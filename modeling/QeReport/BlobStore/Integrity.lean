import Mathlib.Data.Set.Function
import Mathlib.Logic.Relation
import QeReport.BlobStore.FileBlobStore
import QeReport.Lib.Sha256

/-! # Content addressing holds

What a system call can do to the root is one of six effects (`Effect`); three of them touch an
object: a file is linked where none is, an entry is unlinked, a process appends to the temporary
file that it alone writes.  `Sound` is the invariant behind content addressing: an object hashes
to its name, and the file that a process still writes has no object entry, no other writer and
no reader. -/

namespace QeReport.BlobStore

variable {rt : Platform}

/-! ### What processes hold -/

/-- The temporary name and the file that the process may still write or link. -/
def Process.held : Process → Option (Text × ℕ)
  | .put _ (.copying temp f _ _) => some (temp, f)
  | .put _ (.linking temp f) => some (temp, f)
  | _ => none

/-- The object that the process has opened and not yet measured. -/
def Process.stated : Process → Option ℕ
  | .put _ (.looking _ (.stating f)) => some f
  | _ => none

@[simp] theorem held_fails (source : BlobSource) (e : Failure) (race : Option Text) :
    (Process.put source (Put.fails e race)).held = none := by
  cases race <;> rfl

@[simp] theorem stated_fails (source : BlobSource) (e : Failure) (race : Option Text) :
    (Process.put source (Put.fails e race)).stated = none := by
  cases race <;> rfl

/-- The file of a writer: named by the writer's own draw and by nothing else. -/
structure Held (rt : Platform) (w : World) (temp : Text) (f : ℕ) : Prop where
  created : f < w.disk.created
  drawn : ∃ n < w.draws, temp = rt.randomName n ++ txt ".part"
  named : ∀ g, w.disk.entry (.temporary temp) = some g → g = f
  unpublished : ∀ hash, w.disk.entry (.object hash) ≠ some f

/-- What holds of one process. -/
structure Local (rt : Platform) (w : World) (p : Process) : Prop where
  held : ∀ temp f, p.held = some (temp, f) → Held rt w temp f
  stated : ∀ f, p.stated = some f → f < w.disk.created
  copied : ∀ source temp f hashed pending, p = .put source (.copying temp f hashed pending) →
    w.disk.content f ++ pending = hashed
  linkable : ∀ source temp f, p = .put source (.linking temp f) →
    rt.sha256 (w.disk.content f) = source.sha256 ∧
      source.sizeBytes = (w.disk.content f).length

/-- What holds between a writer and another process. -/
structure Apart (p q : Process) : Prop where
  writers : ∀ t f t' f', p.held = some (t, f) → q.held = some (t', f') → t ≠ t' ∧ f ≠ f'
  reader : ∀ t f, p.held = some (t, f) → q.stated ≠ some f

structure Sound (rt : Platform) (s : System) : Prop where
  objects : ∀ hash f, s.world.disk.entry (.object hash) = some f →
    rt.sha256 (s.world.disk.content f) = hash
  each : ∀ (k : ℕ) p, s.processes[k]? = some p → Local rt s.world p
  apart : ∀ (k l : ℕ) p q, k ≠ l → s.processes[k]? = some p → s.processes[l]? = some q → Apart p q

/-! ### What a system call does -/

/-- What a system call of `p` can do to the root. -/
inductive Effect (rt : Platform) (p : Process) (w : World) : World → Prop where
  | same : Effect rt p w w
  | draws : Effect rt p w ⟨w.disk, w.draws + 1⟩
  | creates {d : Disk Place} : w.disk.create (.temporary (w.nextName rt)) = some d →
      Effect rt p w ⟨d, w.draws + 1⟩
  | writes {temp : Text} {f : ℕ} (bytes : List ℕ) : p.held = some (temp, f) →
      Effect rt p w (w.withDisk (w.disk.append f bytes))
  | links {source : BlobSource} {temp : Text} {f : ℕ} {d : Disk Place} :
      p = .put source (.linking temp f) →
      w.disk.link (.temporary temp) (.object source.sha256) = some d →
      Effect rt p w (w.withDisk d)
  | unlinks (place : Place) : Effect rt p w (w.unlink place)

theorem Put.Step.effect {source : BlobSource} {w w' : World} {p p' : Put}
    (h : Put.Step rt source w p w' p') : Effect rt (.put source p) w w' := by
  cases h with
  | created hcreate => exact .creates hcreate
  | createFails => exact .draws
  | wrote n hpos hle => exact .writes _ rfl
  | linked hlink => exact .links rfl hlink
  | gaveWay => exact .unlinks _
  | cleared => exact .unlinks _
  | abandoned => exact .unlinks _
  | _ => exact .same

theorem Process.Step.effect {w w' : World} {p p' : Process} (h : Process.Step rt w p w' p') :
    Effect rt p w w' := by
  cases h with
  | put h => exact h.effect
  | verify h => exact .same
  | remove h =>
      cases h with
      | unlinked => exact .unlinks _
      | _ => exact .same
  | removeTemporary h =>
      cases h with
      | unlinked => exact .unlinks _
      | _ => exact .same
  | stops => exact .same

/-! ### What the other processes keep -/

theorem Effect.created_le {p : Process} {w w' : World} (h : Effect rt p w w') :
    w.disk.created ≤ w'.disk.created := by
  cases h with
  | creates hc =>
      rw [(Disk.create_eq_some hc).2.2.2]
      exact Nat.le_succ _
  | links _ hl => exact le_of_eq (Disk.link_eq_some hl).2.2.1.symm
  | _ => exact le_refl _

theorem Effect.draws_le {p : Process} {w w' : World} (h : Effect rt p w w') :
    w.draws ≤ w'.draws := by
  cases h with
  | draws => exact Nat.le_succ _
  | creates _ => exact Nat.le_succ _
  | _ => exact le_refl _

/-- Only the writer of a file changes its bytes. -/
theorem Effect.content {p : Process} {w w' : World} (h : Effect rt p w w') {f : ℕ}
    (hf : f < w.disk.created) (hp : ∀ t g, p.held = some (t, g) → g ≠ f) :
    w'.disk.content f = w.disk.content f := by
  cases h with
  | creates hc =>
      rw [(Disk.create_eq_some hc).2.2.1]
      exact Function.update_of_ne (Nat.ne_of_lt hf) ..
  | writes bytes hheld => exact Disk.content_append_ne _ _ (hp _ _ hheld).symm
  | links _ hl => rw [World.withDisk, (Disk.link_eq_some hl).2.1]
  | _ => rfl

/-- A name drawn before is not the next one. -/
theorem nextName_fresh {w : World} {t : Text}
    (hnames : Set.InjOn rt.randomName {n | n < w.draws + 1})
    (ht : ∃ n < w.draws, t = rt.randomName n ++ txt ".part") : w.nextName rt ≠ t := by
  obtain ⟨n, hn, rfl⟩ := ht
  intro he
  have hdraw := hnames (show w.draws < w.draws + 1 by omega) (show n < w.draws + 1 by omega)
    (List.append_cancel_right he)
  omega

theorem Held.frame {p : Process} {w w' : World} {t : Text} {f : ℕ} (h : Held rt w t f)
    (he : Effect rt p w w') (hlocal : Local rt w p)
    (hnames : Set.InjOn rt.randomName {n | n < w'.draws})
    (hp : ∀ t' f', p.held = some (t', f') → t' ≠ t ∧ f' ≠ f) : Held rt w' t f := by
  have hcreated := lt_of_lt_of_le h.created he.created_le
  have hdrawn : ∃ n < w'.draws, t = rt.randomName n ++ txt ".part" := by
    obtain ⟨n, hn, ht⟩ := h.drawn
    exact ⟨n, lt_of_lt_of_le hn he.draws_le, ht⟩
  cases he with
  | same => exact h
  | draws => exact ⟨hcreated, hdrawn, h.named, h.unpublished⟩
  | creates hc =>
      have hne := nextName_fresh hnames h.drawn
      refine ⟨hcreated, hdrawn, fun g hg => ?_, fun hash hg => ?_⟩
      · rw [(Disk.create_eq_some hc).2.1, Function.update_of_ne (by simpa using hne.symm)] at hg
        exact h.named g hg
      · rw [(Disk.create_eq_some hc).2.1, Function.update_of_ne (by simp)] at hg
        exact h.unpublished hash hg
  | writes bytes hheld => exact ⟨hcreated, hdrawn, h.named, h.unpublished⟩
  | @links source _ _ _ hput hl =>
      obtain ⟨-, -, -, g, hentry, hupdate⟩ := Disk.link_eq_some hl
      subst hput
      have hg := (hlocal.held _ _ rfl).named g hentry
      refine ⟨hcreated, hdrawn, fun g' hg' => ?_, fun hash hf => ?_⟩
      · rw [World.withDisk, hupdate, Function.update_of_ne (by simp)] at hg'
        exact h.named g' hg'
      · rw [World.withDisk, hupdate] at hf
        by_cases hobject : Place.object hash = .object source.sha256
        · rw [hobject, Function.update_self, Option.some.injEq] at hf
          exact (hp _ _ rfl).2 (hg ▸ hf)
        · rw [Function.update_of_ne hobject] at hf
          exact h.unpublished hash hf
  | unlinks place =>
      have hkept : ∀ q g, (w.unlink place).disk.entry q = some g → w.disk.entry q = some g := by
        intro q g hq
        by_cases hqp : q = place
        · subst hqp
          simp [World.unlink, World.withDisk] at hq
        · simpa [World.unlink, World.withDisk, Function.update_of_ne hqp] using hq
      exact ⟨hcreated, hdrawn, fun g hg => h.named g (hkept _ g hg),
        fun hash hg => h.unpublished hash (hkept _ f hg)⟩

theorem Local.frame {p q : Process} {w w' : World} (h : Local rt w q) (he : Effect rt p w w')
    (hlocal : Local rt w p) (hnames : Set.InjOn rt.randomName {n | n < w'.draws})
    (hapart : Apart p q) : Local rt w' q := by
  have hkept : ∀ t f, q.held = some (t, f) → w'.disk.content f = w.disk.content f := by
    intro t f hq
    exact he.content (h.held t f hq).created
      (fun t' g hp => (hapart.writers t' g t f hp hq).2)
  refine ⟨fun t f hq => ?_, fun f hq => ?_, fun source t f hashed pending hq => ?_,
    fun source t f hq => ?_⟩
  · exact (h.held t f hq).frame he hlocal hnames
      (fun t' f' hp => hapart.writers t' f' t f hp hq)
  · exact lt_of_lt_of_le (h.stated f hq) he.created_le
  · rw [hkept t f (by rw [hq]; rfl)]
    exact h.copied source t f hashed pending hq
  · rw [hkept t f (by rw [hq]; rfl)]
    exact h.linkable source t f hq

/-! ### What a process keeps by itself -/

/-- Whatever a process holds after a step it held before, unless it has just created it. -/
theorem Process.Step.held {w w' : World} {p p' : Process} (h : Process.Step rt w p w' p')
    {t : Text} {f : ℕ} (hp : p'.held = some (t, f)) :
    (p.held = some (t, f) ∧ w'.disk.entry = w.disk.entry ∧ w'.disk.created = w.disk.created ∧
        w'.draws = w.draws) ∨
      (t = w.nextName rt ∧ f = w.disk.created ∧ w'.draws = w.draws + 1 ∧
        w.disk.create (.temporary t) = some w'.disk) := by
  cases h with
  | put h =>
      cases h with
      | created hc =>
          simp only [Process.held, Option.some.injEq, Prod.mk.injEq] at hp
          obtain ⟨rfl, rfl⟩ := hp
          exact .inr ⟨rfl, rfl, rfl, hc⟩
      | chunk | wrote | copied => exact .inl ⟨hp, rfl, rfl, rfl⟩
      | inspectFails | notFound => simp at hp
      | _ => simp [Process.held] at hp
  | _ => simp [Process.held] at hp

/-- An object that a process begins to measure has an entry. -/
theorem Process.Step.stated {w w' : World} {p p' : Process} (h : Process.Step rt w p w' p')
    {f : ℕ} (hp : p'.stated = some f) :
    ∃ source race, p' = .put source (.looking race (.stating f)) ∧
      p = .put source (.looking race .opening) ∧ w' = w ∧
      w.disk.entry (.object source.sha256) = some f := by
  cases h with
  | put h =>
      cases h with
      | looks hl =>
          cases hl with
          | opened he =>
              simp only [Process.stated, Option.some.injEq] at hp
              subst hp
              exact ⟨_, _, rfl, rfl, rfl, he⟩
          | _ => simp [Process.stated] at hp
      | inspectFails | notFound => simp at hp
      | _ => simp [Process.stated] at hp
  | _ => simp [Process.stated] at hp

theorem copyRefusal_eq_none {source : BlobSource} {copied : List ℕ} :
    copyRefusal rt source copied = none ↔
      rt.sha256 copied = source.sha256 ∧ source.sizeBytes = copied.length := by
  unfold copyRefusal
  by_cases hsize : source.sizeBytes = copied.length <;>
    by_cases hsha : rt.sha256 copied = source.sha256 <;> simp [hsize, hsha]

theorem Local.own {w w' : World} {p p' : Process} (h : Local rt w p)
    (hstep : Process.Step rt w p w' p')
    (hobjects : ∀ hash f, w.disk.entry (.object hash) = some f → f < w.disk.created) :
    Local rt w' p' := by
  refine ⟨fun t f hp => ?_, fun f hp => ?_, fun source t f hashed pending hp => ?_,
    fun source t f hp => ?_⟩
  · rcases hstep.held hp with ⟨hheld, hentry, hcreated, hdraws⟩ | ⟨ht, hf, hdraws, hc⟩
    · obtain ⟨hlt, hdrawn, hnamed, hunpublished⟩ := h.held t f hheld
      rw [← hcreated] at hlt
      rw [← hdraws] at hdrawn
      rw [← hentry] at hnamed hunpublished
      exact ⟨hlt, hdrawn, hnamed, hunpublished⟩
    · obtain ⟨-, hentry, -, hcreated⟩ := Disk.create_eq_some hc
      refine ⟨by omega, ⟨w.draws, by omega, ht⟩, fun g hg => ?_, fun hash hg => ?_⟩
      · rw [hentry, Function.update_self, Option.some.injEq] at hg
        omega
      · rw [hentry, Function.update_of_ne (by simp)] at hg
        have hlt := hobjects hash f hg
        omega
  · obtain ⟨source, race, -, -, rfl, hentry⟩ := hstep.stated hp
    exact hobjects _ f hentry
  · cases hstep with
    | put hstep =>
        cases hstep with
        | created hc =>
            cases hp
            rw [(Disk.create_eq_some hc).2.2.1, Function.update_self]
            rfl
        | chunk bytes hle =>
            cases hp
            have hcopied := h.copied source t f _ [] rfl
            rw [List.append_nil] at hcopied
            rw [hcopied]
        | wrote n hpos hle =>
            cases hp
            rw [World.withDisk, Disk.content_append, List.append_assoc, List.take_append_drop]
            exact h.copied source t f hashed _ rfl
        | inspectFails | notFound =>
            have hheld := congrArg Process.held hp
            rw [held_fails] at hheld
            cases hheld
        | _ => cases hp
    | _ => cases hp
  · cases hstep with
    | put hstep =>
        cases hstep with
        | copied hrefusal =>
            cases hp
            obtain ⟨hsha, hsize⟩ := copyRefusal_eq_none.mp hrefusal
            have hcopied := h.copied source t f _ [] rfl
            rw [List.append_nil] at hcopied
            rw [hcopied]
            exact ⟨hsha, hsize⟩
        | inspectFails | notFound =>
            have hheld := congrArg Process.held hp
            rw [held_fails] at hheld
            cases hheld
        | _ => cases hp
    | _ => cases hp

/-! ### The invariant -/

theorem held_begins {p : Process} (h : p.begins = true) : p.held = none ∧ p.stated = none := by
  cases p with
  | put source q => cases q <;> simp_all [Process.begins, Process.held, Process.stated]
  | _ => exact ⟨rfl, rfl⟩

theorem Local.begins {w : World} {p : Process} (h : p.begins = true) : Local rt w p := by
  obtain ⟨hheld, hstated⟩ := held_begins h
  refine ⟨fun t f hp => ?_, fun f hp => ?_, fun source t f hashed pending hp => ?_,
    fun source t f hp => ?_⟩
  · rw [hheld] at hp
    cases hp
  · rw [hstated] at hp
    cases hp
  · subst hp
    cases h
  · subst hp
    cases h

/-- Two processes stay apart when one of them takes a step. -/
theorem Apart.step {p p' q : Process} {w w' : World} (h : Apart p q ∧ Apart q p)
    (hq : Local rt w q) (hstep : Process.Step rt w p w' p')
    (hnames : Set.InjOn rt.randomName {n | n < w'.draws})
    (hunread : ∀ t f, q.held = some (t, f) → ∀ hash, w.disk.entry (.object hash) ≠ some f) :
    Apart p' q ∧ Apart q p' := by
  have hwriters : ∀ t f t' f', p'.held = some (t, f) → q.held = some (t', f') →
      t ≠ t' ∧ f ≠ f' := by
    intro t f t' f' hp hq'
    rcases hstep.held hp with ⟨hheld, -⟩ | ⟨rfl, rfl, hdraws, -⟩
    · exact h.1.writers t f t' f' hheld hq'
    · have hheld := hq.held t' f' hq'
      rw [hdraws] at hnames
      exact ⟨nextName_fresh hnames hheld.drawn, Nat.ne_of_gt hheld.created⟩
  refine ⟨⟨hwriters, fun t f hp => ?_⟩, ⟨fun t f t' f' hq' hp => ?_, fun t f hq' hp => ?_⟩⟩
  · rcases hstep.held hp with ⟨hheld, -⟩ | ⟨-, rfl, -, -⟩
    · exact h.1.reader t f hheld
    · intro hstated
      exact Nat.lt_irrefl _ (hq.stated _ hstated)
  · have hne := hwriters t' f' t f hp hq'
    exact ⟨hne.1.symm, hne.2.symm⟩
  · obtain ⟨source, -, -, -, -, hentry⟩ := hstep.stated hp
    exact hunread t f hq' source.sha256 hentry

theorem sound_initial : Sound rt System.initial := by
  refine ⟨fun hash f h => ?_, fun k p h => ?_, fun k l p q _ h _ => ?_⟩
  all_goals simp [System.initial, Disk.empty] at h

/-- An object that is there after a step hashes to its name. -/
theorem Effect.objects {p : Process} {w w' : World} (he : Effect rt p w w')
    (hlocal : Local rt w p)
    (h : ∀ hash f, w.disk.entry (.object hash) = some f → rt.sha256 (w.disk.content f) = hash) :
    ∀ hash f, w'.disk.entry (.object hash) = some f → rt.sha256 (w'.disk.content f) = hash := by
  intro hash f hf
  have hold : w.disk.entry (.object hash) = some f → rt.sha256 (w'.disk.content f) = hash := by
    intro hentry
    rw [he.content (w.disk.below _ f hentry) (fun t g hp hgf =>
      (hlocal.held t g hp).unpublished hash (hgf ▸ hentry))]
    exact h hash f hentry
  cases he with
  | creates hc =>
      rw [(Disk.create_eq_some hc).2.1, Function.update_of_ne (by simp)] at hf
      exact hold hf
  | @links source t g d hput hl =>
      obtain ⟨-, hcontent, -, g', hentry, hupdate⟩ := Disk.link_eq_some hl
      subst hput
      have hg := (hlocal.held _ _ rfl).named g' hentry
      rw [World.withDisk, hupdate] at hf
      by_cases hobject : Place.object hash = .object source.sha256
      · rw [hobject, Function.update_self, Option.some.injEq] at hf
        rw [World.withDisk, hcontent, ← hf, hg, (hlocal.linkable _ _ _ rfl).1]
        exact (Place.object.inj hobject).symm
      · rw [Function.update_of_ne hobject] at hf
        exact hold hf
  | unlinks place =>
      by_cases hobject : Place.object hash = place
      · rw [World.unlink, World.withDisk, Disk.entry_unlink, hobject, Function.update_self] at hf
        cases hf
      · rw [World.unlink, World.withDisk, Disk.entry_unlink, Function.update_of_ne hobject] at hf
        exact hold hf
  | _ => exact hold hf

theorem getElem?_concat {l : List Process} {p q : Process} {k : ℕ} (h : (l ++ [p])[k]? = some q) :
    l[k]? = some q ∨ (k = l.length ∧ q = p) := by
  rw [List.getElem?_append] at h
  split at h
  · exact .inl h
  · rw [List.getElem?_singleton] at h
    split at h
    · exact .inr ⟨by omega, (Option.some.inj h).symm⟩
    · cases h

theorem getElem?_set_cases {l : List Process} {p q : Process} {j k : ℕ}
    (h : (l.set k p)[j]? = some q) : (j = k ∧ q = p) ∨ (k ≠ j ∧ l[j]? = some q) := by
  rw [List.getElem?_set] at h
  split at h
  · rename_i hkj
    split at h
    · exact .inl ⟨hkj.symm, (Option.some.inj h).symm⟩
    · cases h
  · rename_i hkj
    exact .inr ⟨hkj, h⟩

theorem Sound.step {s s' : System} (h : Sound rt s) (hstep : System.Step rt s s')
    (hnames : Set.InjOn rt.randomName {n | n < s'.world.draws}) : Sound rt s' := by
  cases hstep with
  | call p hp =>
      obtain ⟨hheld, hstated⟩ := held_begins hp
      refine ⟨h.objects, fun k q hq => ?_, fun k l q r hkl hq hr => ?_⟩
      · rcases getElem?_concat hq with hq | ⟨-, rfl⟩
        · exact h.each k q hq
        · exact Local.begins hp
      · rcases getElem?_concat hq with hq | ⟨hk, rfl⟩
        · rcases getElem?_concat hr with hr | ⟨-, rfl⟩
          · exact h.apart k l q r hkl hq hr
          · exact ⟨fun t f t' f' _ hr' => by simp [hheld] at hr', fun t f _ => by simp [hstated]⟩
        · exact ⟨fun t f t' f' hq' _ => by simp [hheld] at hq', fun t f hq' => by simp [hheld] at hq'⟩
  | @advance w p p' k hp hadvance =>
      have hlocal := h.each k p hp
      have heffect := hadvance.effect
      have hbelow : ∀ hash f, s.world.disk.entry (.object hash) = some f →
          f < s.world.disk.created := fun hash f => s.world.disk.below _ f
      have hother : ∀ (l : ℕ) q, k ≠ l → s.processes[l]? = some q → Apart p' q ∧ Apart q p' := by
        intro l q hkl hq
        exact Apart.step ⟨h.apart k l p q hkl hp hq, h.apart l k q p hkl.symm hq hp⟩
          (h.each l q hq) hadvance hnames (fun t f hq' => ((h.each l q hq).held t f hq').unpublished)
      refine ⟨heffect.objects hlocal h.objects, fun l q hq => ?_, fun l m q r hlm hq hr => ?_⟩
      · rcases getElem?_set_cases hq with ⟨-, rfl⟩ | ⟨hkl, hq⟩
        · exact hlocal.own hadvance hbelow
        · exact (h.each l q hq).frame heffect hlocal hnames (h.apart k l p q hkl hp hq)
      · rcases getElem?_set_cases hq with ⟨rfl, rfl⟩ | ⟨hkl, hold⟩
        · rcases getElem?_set_cases hr with ⟨hml, -⟩ | ⟨-, hr⟩
          · exact absurd hml.symm hlm
          · exact (hother m r hlm hr).1
        · rcases getElem?_set_cases hr with ⟨rfl, rfl⟩ | ⟨-, hr⟩
          · exact (hother l q hkl hold).2
          · exact h.apart l m q r hlm hold hr

/-! ### What a put has seen and touched -/

def Put.finished : Put → Bool
  | .returned _ => true
  | .thrown _ => true
  | _ => false

/-- The name of the temporary file, once there is one. -/
def Put.temp : Put → Option Text
  | .inspecting race => race
  | .looking race _ => race
  | .copying temp _ _ _ => some temp
  | .linking temp _ => some temp
  | .lost temp => some temp
  | .confirming temp _ => some temp
  | .clearing temp => some temp
  | .abandoning temp _ => some temp
  | _ => none

/-- In state `s`, while the call `k` was running, the object of its source was the file `f`. -/
def ShownAt (s : System) (k : ℕ) (source : BlobSource) (f : ℕ) : Prop :=
  (∃ p, s.processes[k]? = some (.put source p) ∧ p.finished = false) ∧
    s.world.disk.entry (.object source.sha256) = some f

/-- At some moment during the call the object was there, with the bytes that were declared. -/
def WasThere (rt : Platform) (run : List System) (k : ℕ) (source : BlobSource) : Prop :=
  ∃ s ∈ run, ∃ f, ShownAt s k source f ∧ rt.sha256 (s.world.disk.content f) = source.sha256 ∧
    source.sizeBytes = (s.world.disk.content f).length

/-- A step of the call `k` changed the entry at `place`. -/
def Touches : List System → ℕ → Place → Prop
  | s' :: s :: past, k, place =>
      (s'.processes[k]? ≠ s.processes[k]? ∧
        s'.world.disk.entry place ≠ s.world.disk.entry place) ∨ Touches (s :: past) k place
  | _, _, _ => False

/-- What a `put` has seen, by where it is. -/
def Put.Seen (rt : Platform) (run : List System) (w : World) (k : ℕ) (source : BlobSource) :
    Put → Prop
  | .looking _ (.stating f) =>
      ∃ s ∈ run, ShownAt s k source f ∧ rt.sha256 (s.world.disk.content f) = source.sha256 ∧
        s.world.disk.content f = w.disk.content f
  | .looking _ (.reading _ _) => WasThere rt run k source
  | .looking _ (.verified _) => WasThere rt run k source
  | .confirming _ _ => WasThere rt run k source
  | .clearing _ => WasThere rt run k source
  | .returned _ => WasThere rt run k source
  | _ => True

/-- What a `put` has touched: nothing before its temporary file is there, and from then on no
more than that file's entry and the object. -/
structure Put.Touched (run : List System) (k : ℕ) (source : BlobSource) (p : Put) (temp : Text) :
    Prop where
  before : p.finished = false → p.temp = none → ∀ place, ¬ Touches run k place
  name : ∀ t, p.temp = some t → t = temp
  places : ∀ place, Touches run k place → place = .temporary temp ∨ place = .object source.sha256

theorem WasThere.cons {run : List System} {k : ℕ} {source : BlobSource} (s : System)
    (h : WasThere rt run k source) : WasThere rt (s :: run) k source := by
  obtain ⟨u, hu, hthere⟩ := h
  exact ⟨u, List.mem_cons_of_mem _ hu, hthere⟩

/-- What a `put` has seen stays seen while another process takes a step. -/
theorem Put.Seen.cons {run : List System} {w w' : World} {k : ℕ} {source : BlobSource} {p : Put}
    (h : p.Seen rt run w k source) (s : System)
    (hcontent : ∀ f, (Process.put source p).stated = some f →
      w'.disk.content f = w.disk.content f) : p.Seen rt (s :: run) w' k source := by
  cases p with
  | looking race l =>
      cases l with
      | stating f =>
          obtain ⟨u, hu, hshown, hsha, hkept⟩ := h
          exact ⟨u, List.mem_cons_of_mem _ hu, hshown, hsha, hkept.trans (hcontent f rfl).symm⟩
      | reading f read => exact WasThere.cons s h
      | verified f => exact WasThere.cons s h
      | opening => trivial
      | failed e => trivial
  | confirming temp f => exact WasThere.cons s h
  | clearing temp => exact WasThere.cons s h
  | returned outcome => exact WasThere.cons s h
  | _ => trivial

theorem Put.seen_fails {run : List System} {w : World} {k : ℕ} {source : BlobSource} (e : Failure)
    (race : Option Text) : (Put.fails e race).Seen rt run w k source := by
  cases race <;> trivial

theorem Put.Step.seen {run : List System} {s : System} {w' : World} {k : ℕ} {source : BlobSource}
    {p p' : Put} (h : Put.Step rt source s.world p w' p')
    (hp : s.processes[k]? = some (.put source p)) (hsound : Sound rt s)
    (hseen : p.Seen rt (s :: run) s.world k source) :
    p'.Seen rt (⟨w', s.processes.set k (.put source p')⟩ :: s :: run) w' k source := by
  have hk : k < s.processes.length := (List.getElem?_eq_some_iff.mp hp).1
  cases h with
  | looks hl =>
      cases hl with
      | opened hentry =>
          exact ⟨s, by simp, ⟨⟨_, hp, rfl⟩, hentry⟩, hsound.objects _ _ hentry, rfl⟩
      | rightSize hsize =>
          obtain ⟨u, hu, hshown, hsha, hcontent⟩ := hseen
          refine ⟨u, List.mem_cons_of_mem _ hu, _, hshown, hsha, ?_⟩
          rw [hcontent]
          exact hsize _ rfl
      | chunk n hpos hlt => exact WasThere.cons _ hseen
      | rightHash hle hsha => exact WasThere.cons _ hseen
      | _ => trivial
  | found => exact WasThere.cons _ hseen
  | linked hlink =>
      obtain ⟨-, hcontent, -, g, hentry, hupdate⟩ := Disk.link_eq_some hlink
      have hlocal := hsound.each k _ hp
      obtain ⟨hsha, hsize⟩ := hlocal.linkable _ _ _ rfl
      have hg := (hlocal.held _ _ rfl).named g hentry
      subst hg
      refine ⟨_, List.mem_cons_self .., g, ⟨⟨_, List.getElem?_set_self hk, rfl⟩, ?_⟩, ?_, ?_⟩
      · rw [World.withDisk, hupdate, Function.update_self]
      · rw [World.withDisk, hcontent]
        exact hsha
      · rw [World.withDisk, hcontent]
        exact hsize
  | confirmed hentry hinode hsize => exact WasThere.cons _ hseen
  | cleared => exact WasThere.cons _ hseen
  | notFound => exact Put.seen_fails _ _
  | inspectFails => exact Put.seen_fails _ _
  | _ => trivial

/-- An entry that a step does not change is not touched by it. -/
theorem touches_cons {run : List System} {s s' : System} {k : ℕ} {place : Place}
    (h : Touches (s' :: s :: run) k place) :
    s'.world.disk.entry place ≠ s.world.disk.entry place ∨ Touches (s :: run) k place :=
  h.imp And.right id

theorem Put.Touched.keep {run : List System} {s s' : System} {k : ℕ} {source : BlobSource}
    {p p' : Put} {temp : Text} (h : p.Touched (s :: run) k source temp)
    (hp : p.finished = false) (htemp : p'.temp = p.temp ∨ p'.finished = true ∧ p'.temp = none)
    (hentry : ∀ place, s'.world.disk.entry place ≠ s.world.disk.entry place →
      ∃ t, p.temp = some t ∧ (place = .temporary t ∨ place = .object source.sha256)) :
    p'.Touched (s' :: s :: run) k source temp := by
  refine ⟨fun hp' hnone place ht => ?_, fun t ht => ?_, fun place ht => ?_⟩
  · rcases htemp with htemp | ⟨hfinished, -⟩
    · rw [htemp] at hnone
      rcases touches_cons ht with hchanged | hold
      · obtain ⟨t, hsome, -⟩ := hentry place hchanged
        rw [hnone] at hsome
        cases hsome
      · exact h.before hp hnone place hold
    · rw [hp'] at hfinished
      cases hfinished
  · rcases htemp with htemp | ⟨-, hnone⟩
    · exact h.name t (htemp ▸ ht)
    · rw [hnone] at ht
      cases ht
  · rcases touches_cons ht with hchanged | hold
    · obtain ⟨t, hsome, hplace⟩ := hentry place hchanged
      rw [h.name t hsome] at hplace
      exact hplace
    · exact h.places place hold

/-- What a `put` has touched stays so while another process takes a step. -/
theorem Put.Touched.idle {run : List System} {s s' : System} {k : ℕ} {source : BlobSource}
    {p : Put} {temp : Text} (h : p.Touched (s :: run) k source temp)
    (hk : s'.processes[k]? = s.processes[k]?) : p.Touched (s' :: s :: run) k source temp := by
  have hold : ∀ place, Touches (s' :: s :: run) k place → Touches (s :: run) k place := by
    rintro place (⟨hne, -⟩ | hold)
    · exact absurd hk hne
    · exact hold
  exact ⟨fun hp hnone place ht => h.before hp hnone place (hold place ht), h.name,
    fun place ht => h.places place (hold place ht)⟩

/-- A step of a `put` keeps to its own two entries. -/
theorem Put.Step.touched {run : List System} {s s' : System} {k : ℕ} {source : BlobSource}
    {p p' : Put} (h : Put.Step rt source s.world p s'.world p')
    (hp : ∃ temp, p.Touched (s :: run) k source temp) :
    ∃ temp, p'.Touched (s' :: s :: run) k source temp := by
  obtain ⟨temp, hp⟩ := hp
  generalize hw : s.world = w at h
  generalize hw' : s'.world = w' at h
  have hsame : w'.disk.entry = w.disk.entry → ∀ place,
      s'.world.disk.entry place ≠ s.world.disk.entry place →
        ∃ t, p.temp = some t ∧ (place = .temporary t ∨ place = .object source.sha256) := by
    intro he place hne
    rw [hw, hw', he] at hne
    exact absurd rfl hne
  cases h with
  | created hcreate =>
      have hentry := (Disk.create_eq_some hcreate).2.1
      refine ⟨w.nextName rt, ?_, ?_, ?_⟩
      · intro _ hnone
        cases hnone
      · intro t ht
        exact (Option.some.inj ht).symm
      · intro place ht
        rcases touches_cons ht with hchanged | hold
        · rw [hw, hw', hentry] at hchanged
          left
          by_contra hne
          rw [Function.update_of_ne hne] at hchanged
          exact hchanged rfl
        · exact absurd hold (hp.before rfl rfl place)
  | linked hlink =>
      obtain ⟨-, -, -, g, -, hupdate⟩ := Disk.link_eq_some hlink
      refine ⟨temp, hp.keep rfl (.inl rfl) (fun place hne => ⟨_, rfl, .inr ?_⟩)⟩
      rw [hw, hw', World.withDisk, hupdate] at hne
      by_contra hplace
      rw [Function.update_of_ne hplace] at hne
      exact hne rfl
  | gaveWay | cleared | abandoned =>
      refine ⟨temp, hp.keep rfl (by simp [Put.temp, Put.finished])
        (fun place hne => ⟨_, rfl, .inl ?_⟩)⟩
      rw [hw, hw', World.unlink, World.withDisk, Disk.entry_unlink] at hne
      by_contra hplace
      rw [Function.update_of_ne hplace] at hne
      exact hne rfl
  | @inspectFails race => 
      cases race <;> exact ⟨temp, hp.keep rfl (by simp [Put.temp, Put.finished, Put.fails]) (hsame rfl)⟩
  | @notFound race e =>
      cases race <;> exact ⟨temp, hp.keep rfl (by simp [Put.temp, Put.finished, Put.fails]) (hsame rfl)⟩
  | _ => exact ⟨temp, hp.keep rfl (by simp [Put.temp, Put.finished]) (hsame rfl)⟩

/-! ### Runs -/

theorem System.Step.draws_le {s s' : System} (h : System.Step rt s s') :
    s.world.draws ≤ s'.world.draws := by
  cases h with
  | call p hp => exact le_refl _
  | advance k hp h => exact h.effect.draws_le

theorem System.Step.length_le {s s' : System} (h : System.Step rt s s') :
    s.processes.length ≤ s'.processes.length := by
  cases h with
  | call p hp => simp
  | advance k hp h => simp

/-- A call that has not begun has touched nothing. -/
theorem not_touches {s : System} {past : List System} (h : System.Run rt (s :: past)) {k : ℕ}
    (hk : s.processes.length ≤ k) (place : Place) : ¬ Touches (s :: past) k place := by
  generalize hrun : s :: past = run at h
  induction h generalizing s past with
  | initial =>
      obtain ⟨rfl, rfl⟩ := List.cons.inj hrun
      exact id
  | @step u u' before hbefore hstep ih =>
      obtain ⟨rfl, rfl⟩ := List.cons.inj hrun
      have hu := le_trans hstep.length_le hk
      rintro (⟨hne, -⟩ | hold)
      · rw [List.getElem?_eq_none hk, List.getElem?_eq_none hu] at hne
        exact hne rfl
      · exact ih hu rfl hold

/-- What holds of every call after a run. -/
structure Told (rt : Platform) (s : System) (past : List System) : Prop where
  sound : Sound rt s
  puts : ∀ (k : ℕ) source p, s.processes[k]? = some (.put source p) →
    p.Seen rt (s :: past) s.world k source ∧ ∃ temp, p.Touched (s :: past) k source temp

theorem Told.step {s s' : System} {past : List System} (hrun : System.Run rt (s :: past))
    (h : Told rt s past) (hstep : System.Step rt s s')
    (hnames : Set.InjOn rt.randomName {n | n < s'.world.draws}) : Told rt s' (s :: past) := by
  refine ⟨h.sound.step hstep hnames, fun k source p hp => ?_⟩
  cases hstep with
  | @call q hq =>
      rcases getElem?_concat hp with hold | ⟨hk, rfl⟩
      · obtain ⟨hseen, temp, htouched⟩ := h.puts k source p hold
        have hlt := (List.getElem?_eq_some_iff.mp hold).1
        exact ⟨hseen.cons _ (fun f _ => rfl), temp,
          htouched.idle (List.getElem?_append_left hlt)⟩
      · have hstart : p = .start := by
          cases p <;> simp_all [Process.begins]
        subst hstart
        have hnone : ∀ place, ¬ Touches
            ({ s with processes := s.processes ++ [.put source .start] } :: s :: past) k place := by
          intro place ht
          rcases touches_cons ht with hne | hold
          · exact hne rfl
          · exact not_touches hrun (le_of_eq hk.symm) place hold
        exact ⟨trivial, [], fun _ _ => hnone, fun t ht => (by cases ht),
          fun place ht => absurd ht (hnone place)⟩
  | @advance w q q' l hq hadvance =>
      rcases getElem?_set_cases hp with ⟨rfl, rfl⟩ | ⟨hlk, hold⟩
      · cases hadvance with
        | put hput =>
            obtain ⟨hseen, htouched⟩ := h.puts k source _ hq
            exact ⟨hput.seen hq h.sound hseen, Put.Step.touched hput htouched⟩
      · obtain ⟨hseen, temp, htouched⟩ := h.puts k source p hold
        refine ⟨hseen.cons _ (fun f hf => ?_), temp, htouched.idle (List.getElem?_set_ne hlk)⟩
        refine hadvance.effect.content ((h.sound.each k _ hold).stated f hf) (fun t g hheld hgf => ?_)
        exact (h.sound.apart l k q _ hlk hq hold).reader t g hheld (hgf ▸ hf)

/-- Reading a right object in full, undisturbed. -/
theorem look_verifies {hash : Text} {size : Option ℤ} {d : Disk Place} {f : ℕ}
    (hentry : d.entry (.object hash) = some f)
    (hsize : ∀ n, size = some n → n = (d.content f).length)
    (hsha : rt.sha256 (d.content f) = hash) :
    Relation.ReflTransGen (Look.Step rt hash size d) .opening (.verified f) := by
  have hread : Relation.ReflTransGen (Look.Step rt hash size d) .opening (.reading f []) :=
    (Relation.ReflTransGen.single (.opened hentry)).tail (.rightSize hsize)
  by_cases hempty : d.content f = []
  · refine hread.tail (.rightHash ?_ ?_)
    · rw [hempty]
    · rw [← hempty]
      exact hsha
  · have hpos : 0 < (d.content f).length := List.length_pos_iff.mpr hempty
    have hchunk := hread.tail (.chunk (d.content f).length hpos hpos)
    rw [List.length_nil, List.drop_zero, List.take_length, List.nil_append] at hchunk
    exact hchunk.tail (.rightHash (le_refl _) hsha)

/-- A call that takes a step, alone on the root. -/
def Process.Moves (rt : Platform) (a b : World × Process) : Prop :=
  Process.Step rt a.1 a.2 b.1 b.2

/-- The same for a `put`. -/
def Put.Moves (rt : Platform) (source : BlobSource) (a b : World × Put) : Prop :=
  Put.Step rt source a.1 a.2 b.1 b.2

theorem moves_put {source : BlobSource} {a : World × Put} {w w' : World} {p p' : Put}
    (h : Relation.ReflTransGen (Put.Moves rt source) a (w, p))
    (hstep : Put.Step rt source w p w' p') :
    Relation.ReflTransGen (Put.Moves rt source) a (w', p') :=
  h.tail hstep

theorem moves_remove {a : World × Process} {w w' : World} {hash : Text} {size : Option ℤ}
    {p p' : Remove} (h : Relation.ReflTransGen (Process.Moves rt) a (w, .remove hash size p))
    (hstep : Remove.Step rt hash size w p w' p') :
    Relation.ReflTransGen (Process.Moves rt) a (w', .remove hash size p') :=
  h.tail (.remove hstep)

/-- A run goes on with the steps of one call. -/
theorem System.Run.moves {s : System} {past : List System} {w : World} {p q : Process} {k : ℕ}
    (h : System.Run rt (s :: past)) (hp : s.processes[k]? = some p)
    (hmoves : Relation.ReflTransGen (Process.Moves rt) (s.world, p) (w, q)) :
    ∃ past', System.Run rt (⟨w, s.processes.set k q⟩ :: past') := by
  obtain ⟨hlt, hget⟩ := List.getElem?_eq_some_iff.mp hp
  have hrun : ∀ b, Relation.ReflTransGen (Process.Moves rt) (s.world, p) b →
      ∃ past', System.Run rt (⟨b.1, s.processes.set k b.2⟩ :: past') := by
    intro b hb
    induction hb with
    | refl =>
        refine ⟨past, ?_⟩
        rw [← hget, List.set_getElem_self]
        exact h
    | tail _ hstep ih =>
        obtain ⟨past', hrun⟩ := ih
        have hnext := System.Run.step hrun (.advance k (List.getElem?_set_self hlt) hstep)
        rw [List.set_set] at hnext
        exact ⟨_, hnext⟩
  exact hrun (w, q) hmoves

/-- A run goes on with the steps of one `put`. -/
theorem System.Run.puts {s : System} {past : List System} {w : World} {source : BlobSource}
    {p q : Put} {k : ℕ} (h : System.Run rt (s :: past))
    (hp : s.processes[k]? = some (.put source p))
    (hmoves : Relation.ReflTransGen (Put.Moves rt source) (s.world, p) (w, q)) :
    ∃ past', System.Run rt (⟨w, s.processes.set k (.put source q)⟩ :: past') :=
  h.moves hp (hmoves.lift (fun a => (a.1, Process.put source a.2)) (fun _ _ h => .put h))

/-- A `put` that nothing disturbs copies its source. -/
theorem put_copies {source : BlobSource} {bytes : List ℕ} {w : World}
    (hrefusal : refusal rt source = none)
    (hkind : sourceRefusal source (.file bytes.length) = none) (hbytes : 0 < bytes.length)
    (hcopy : copyRefusal rt source bytes = none)
    (habsent : w.disk.entry (.object source.sha256) = none)
    (hname : w.disk.entry (.temporary (w.nextName rt)) = none) :
    ∃ d, d.entry = Function.update w.disk.entry (.temporary (w.nextName rt)) (some w.disk.created) ∧
      d.content = Function.update w.disk.content w.disk.created bytes ∧
      d.created = w.disk.created + 1 ∧
      Relation.ReflTransGen (Put.Moves rt source) (w, .start)
        (⟨d, w.draws + 1⟩, .linking (w.nextName rt) w.disk.created) := by
  obtain ⟨-, hsize⟩ := copyRefusal_eq_none.mp hcopy
  obtain ⟨d, hd⟩ := Disk.create_of hname
  obtain ⟨-, hentry, hcontent, hcreated⟩ := Disk.create_eq_some hd
  have hcreating : Relation.ReflTransGen (Put.Moves rt source) (w, .start) (w, .creating) :=
    moves_put (moves_put (moves_put .refl (.admitted hrefusal)) (.absent habsent))
      (.sourceOpened hkind)
  have hchunk := moves_put (moves_put hcreating (.created hd))
    (.chunk bytes (le_of_eq (by rw [hsize, List.nil_append])))
  have hcopied := moves_put hchunk (.wrote bytes.length hbytes (le_refl _))
  rw [List.take_length, List.drop_length, List.nil_append] at hcopied
  refine ⟨d.append w.disk.created bytes, hentry, ?_, hcreated, moves_put hcopied (.copied hcopy)⟩
  rw [Disk.append, hcontent, Function.update_self, List.nil_append, Function.update_idem]

/-- A `put` that nothing disturbs publishes what it has copied. -/
theorem put_publishes {source : BlobSource} {w : World} {temp : Text} {f : ℕ}
    (htemp : w.disk.entry (.temporary temp) = some f)
    (habsent : w.disk.entry (.object source.sha256) = none)
    (hsize : source.sizeBytes = (w.disk.content f).length) :
    ∃ d, d.entry = Function.update (Function.update w.disk.entry (.object source.sha256) (some f))
        (.temporary temp) none ∧ d.content = w.disk.content ∧ d.created = w.disk.created ∧
      Relation.ReflTransGen (Put.Moves rt source) (w, .linking temp f)
        (⟨d, w.draws⟩, .returned .stored) := by
  obtain ⟨d, hd⟩ := Disk.link_of htemp habsent
  obtain ⟨-, hcontent, hcreated, g, hg, hentry⟩ := Disk.link_eq_some hd
  rw [htemp] at hg
  obtain rfl := Option.some.inj hg
  have hconfirmed : Relation.ReflTransGen (Put.Moves rt source) (w, .linking temp f)
      (w.withDisk d, .clearing temp) := by
    refine moves_put (moves_put .refl (.linked hd)) (.confirmed (g := f) ?_ rfl ?_)
    · exact (congrFun hentry _).trans (Function.update_self ..)
    · rw [World.withDisk, hcontent]
      exact hsize
  refine ⟨d.unlink (.temporary temp), ?_, hcontent, hcreated, moves_put hconfirmed .cleared⟩
  rw [Disk.entry_unlink, hentry]

/-- A `put` that finds the object there when it comes to link gives way to it. -/
theorem put_gives_way {source : BlobSource} {w : World} {temp : Text} {f g : ℕ}
    (hentry : w.disk.entry (.object source.sha256) = some g)
    (hsize : source.sizeBytes = (w.disk.content g).length)
    (hsha : rt.sha256 (w.disk.content g) = source.sha256) :
    Relation.ReflTransGen (Put.Moves rt source) (w, .linking temp f)
      (w.unlink (.temporary temp), .returned .existing) := by
  have hkept : (w.unlink (.temporary temp)).disk.entry (.object source.sha256) = some g := by
    rw [World.unlink, World.withDisk, Disk.entry_unlink, Function.update_of_ne (by simp)]
    exact hentry
  have hhas : ∀ w : World, w.disk.entry (.object source.sha256) = some g →
      w.disk.has (.object source.sha256) = true := by
    intro w h
    rw [Disk.has, h]
    rfl
  have hlooking : Relation.ReflTransGen (Put.Moves rt source) (w, .linking temp f)
      (w.unlink (.temporary temp), .looking (some temp) .opening) :=
    moves_put (moves_put (moves_put .refl (.taken (hhas w hentry))) .gaveWay)
      (.present (hhas _ hkept))
  have hlook : ∀ l, Relation.ReflTransGen
      (Look.Step rt source.sha256 (some source.sizeBytes) (w.unlink (.temporary temp)).disk)
        .opening l →
      Relation.ReflTransGen (Put.Moves rt source) (w, .linking temp f)
        (w.unlink (.temporary temp), .looking (some temp) l) := by
    intro l hl
    induction hl with
    | refl => exact hlooking
    | tail _ hstep ih => exact moves_put ih (.looks hstep)
  refine moves_put (hlook _ (look_verifies hkept (fun n hn => ?_) hsha)) .found
  rw [← Option.some.inj hn]
  exact hsize

/-- A removal that nothing disturbs removes a right object. -/
theorem removes {hash : Text} {w : World} {f : ℕ} (hhash : isSha256 hash = true)
    (hentry : w.disk.entry (.object hash) = some f)
    (hsha : rt.sha256 (w.disk.content f) = hash) :
    Relation.ReflTransGen (Process.Moves rt) (w, .remove hash none .start)
      (w.unlink (.object hash), .remove hash none (.returned .removed)) := by
  have hhas : w.disk.has (.object hash) = true := by
    rw [Disk.has, hentry]
    rfl
  have hlooking : Relation.ReflTransGen (Process.Moves rt) (w, .remove hash none .start)
      (w, .remove hash none (.looking .opening)) :=
    moves_remove (moves_remove .refl (.admitted hhash (fun _ hn => absurd hn (by simp))))
      (.present hhas)
  have hlook : ∀ l, Relation.ReflTransGen (Look.Step rt hash none w.disk) .opening l →
      Relation.ReflTransGen (Process.Moves rt) (w, .remove hash none .start)
        (w, .remove hash none (.looking l)) := by
    intro l hl
    induction hl with
    | refl => exact hlooking
    | tail _ hstep ih => exact moves_remove ih (.looks hstep)
  have hread := hlook _ (look_verifies hentry (fun _ hn => absurd hn (by simp)) hsha)
  exact moves_remove (moves_remove (moves_remove hread .read) (.unchanged hentry rfl))
    (.unlinked hhas)

/-- Two `put`s of one source copy it at once; one stores it, the other gives way to it, and then
it is removed. -/
theorem exists_raced (source : BlobSource) (bytes : List ℕ) (hrefusal : refusal rt source = none)
    (hhash : isSha256 source.sha256 = true)
    (hkind : sourceRefusal source (.file bytes.length) = none) (hbytes : 0 < bytes.length)
    (hcopy : copyRefusal rt source bytes = none) (hdraws : rt.randomName 0 ≠ rt.randomName 1) :
    ∃ s past, System.Run rt (s :: past) ∧ s.world.draws = 2 ∧
      s.processes = [.put source (.returned .stored), .put source (.returned .existing),
        .remove source.sha256 none (.returned .removed)] := by
  obtain ⟨hsha, hsize⟩ := copyRefusal_eq_none.mp hcopy
  have hcalls : System.Run rt [⟨⟨Disk.empty, 0⟩, [.put source .start, .put source .start]⟩,
      ⟨⟨Disk.empty, 0⟩, [.put source .start]⟩, System.initial] :=
    (System.Run.initial.step (.call (.put source .start) rfl)).step
      (.call (.put source .start) rfl)
  have hapart : ∀ a b : ℕ, rt.randomName a ≠ rt.randomName b →
      Place.temporary (rt.randomName a ++ txt ".part") ≠
        .temporary (rt.randomName b ++ txt ".part") := by
    intro a b hab h
    exact hab (List.append_cancel_right (Place.temporary.inj h))
  -- both have copied before either links
  obtain ⟨d, hentry, hcontent, hcreated, hmoves⟩ :=
    put_copies (w := ⟨Disk.empty, 0⟩) hrefusal hkind hbytes hcopy rfl rfl
  obtain ⟨past, hfirst⟩ := hcalls.puts (k := 0) rfl hmoves
  obtain ⟨d₂, hentry₂, hcontent₂, hcreated₂, hmoves⟩ :=
    put_copies (w := ⟨d, 1⟩) hrefusal hkind hbytes hcopy
      (by rw [hentry, Function.update_of_ne (by simp)]; rfl)
      (by rw [hentry]; exact Function.update_of_ne (hapart 1 0 hdraws.symm) _ _)
  obtain ⟨past, hsecond⟩ := hfirst.puts (k := 1) rfl hmoves
  have htemp : d₂.entry (.temporary (rt.randomName 0 ++ txt ".part")) = some 0 := by
    rw [hentry₂]
    refine (Function.update_of_ne (hapart 0 1 hdraws) _ _).trans ?_
    rw [hentry]
    exact Function.update_self ..
  have hbytes₂ : d₂.content 0 = bytes := by
    have hfile : (0 : ℕ) ≠ d.created := by rw [hcreated]; exact Nat.zero_ne_one
    rw [hcontent₂, Function.update_of_ne hfile, hcontent]
    exact Function.update_self ..
  -- the first links, the second finds the object
  obtain ⟨d₃, hentry₃, hcontent₃, -, hmoves⟩ :=
    @put_publishes rt source ⟨d₂, 2⟩ _ _ htemp
      (by rw [hentry₂, Function.update_of_ne (by simp), hentry,
        Function.update_of_ne (by simp)]; rfl)
      (by rw [hbytes₂]; exact hsize)
  obtain ⟨past, hstored⟩ := hsecond.puts (k := 0) rfl hmoves
  have hobject : d₃.entry (.object source.sha256) = some 0 := by
    rw [hentry₃, Function.update_of_ne (by simp), Function.update_self]
  have hbytes₃ : d₃.content 0 = bytes := by rw [hcontent₃, hbytes₂]
  obtain ⟨past, hexisting⟩ := hstored.puts (k := 1) rfl
    (put_gives_way (w := ⟨d₃, 2⟩) (f := d.created) hobject (by rw [hbytes₃]; exact hsize)
      (by rw [hbytes₃]; exact hsha))
  -- nothing disturbs the removal
  have hcall := hexisting.step (.call (.remove source.sha256 none .start) rfl)
  obtain ⟨past, hremoved⟩ := hcall.moves (k := 2) rfl (removes (f := 0) hhash
    (by
      rw [World.unlink, World.withDisk, Disk.entry_unlink, Function.update_of_ne (by simp)]
      exact hobject)
    (by
      rw [World.unlink, World.withDisk, Disk.content_unlink, hbytes₃]
      exact hsha))
  exact ⟨_, past, hremoved, rfl, rfl⟩

/-- What a run without a repeated temporary name leaves. -/
theorem run_told {s : System} {past : List System} (h : System.Run rt (s :: past))
    (hnames : Set.InjOn rt.randomName {n | n < s.world.draws}) : Told rt s past := by
  generalize hrun : s :: past = run at h
  induction h generalizing s past with
  | initial =>
      obtain ⟨rfl, rfl⟩ := List.cons.inj hrun
      exact ⟨sound_initial, fun k source p hp => by simp [System.initial] at hp⟩
  | @step u u' before hbefore hstep ih =>
      obtain ⟨rfl, rfl⟩ := List.cons.inj hrun
      have hu : Set.InjOn rt.randomName {n | n < u.world.draws} :=
        hnames.mono (fun n hn => lt_of_lt_of_le hn hstep.draws_le)
      exact (ih hu rfl).step hbefore hstep hnames

/-- The earlier states of a run are the last states of runs. -/
theorem run_of_mem {s u : System} {past : List System} (h : System.Run rt (s :: past))
    (hu : u ∈ s :: past) : ∃ before, System.Run rt (u :: before) ∧ u.world.draws ≤ s.world.draws := by
  generalize hrun : s :: past = run at h
  induction h generalizing s past with
  | initial =>
      obtain ⟨rfl, rfl⟩ := List.cons.inj hrun
      obtain rfl := List.mem_singleton.mp hu
      exact ⟨[], .initial, le_refl _⟩
  | @step v v' before hbefore hstep ih =>
      obtain ⟨rfl, rfl⟩ := List.cons.inj hrun
      rcases List.mem_cons.mp hu with rfl | hu
      · exact ⟨_, .step hbefore hstep, le_refl _⟩
      · obtain ⟨past, hpast, hle⟩ := ih hu rfl
        exact ⟨past, hpast, le_trans hle hstep.draws_le⟩

/-- A step changes the bytes of no object. -/
theorem content_kept {s s' : System} (h : Sound rt s) (hstep : System.Step rt s s') {hash : Text}
    {f : ℕ} (hentry : s.world.disk.entry (.object hash) = some f) :
    s'.world.disk.content f = s.world.disk.content f := by
  cases hstep with
  | call p hp => rfl
  | advance k hp hadvance =>
      refine hadvance.effect.content (s.world.disk.below _ f hentry) (fun t g hheld hgf => ?_)
      exact ((h.each k _ hp).held t g hheld).unpublished hash (hgf ▸ hentry)

/-- A `put` replaces no entry of an object and removes none. -/
theorem put_keeps {source : BlobSource} {w w' : World} {p p' : Put}
    (h : Put.Step rt source w p w' p') {hash : Text} {f : ℕ}
    (hentry : w.disk.entry (.object hash) = some f) : w'.disk.entry (.object hash) = some f := by
  cases h with
  | created hc =>
      rw [(Disk.create_eq_some hc).2.1, Function.update_of_ne (by simp)]
      exact hentry
  | linked hl =>
      obtain ⟨hfree, -, -, g, -, hupdate⟩ := Disk.link_eq_some hl
      rw [World.withDisk, hupdate, Function.update_of_ne]
      · exact hentry
      · intro he
        rw [he, hfree] at hentry
        cases hentry
  | gaveWay | cleared | abandoned =>
      rw [World.unlink, World.withDisk, Disk.entry_unlink, Function.update_of_ne (by simp)]
      exact hentry
  | _ => exact hentry

/-- In every run of calls on one root, with crashes and errors between any two system calls and
no temporary name drawn twice: an object hashes to its name in every state, and its bytes do not
change while it is there; a `put` never replaces an object; one that returned reports an object
that was there while it ran, with the declared bytes; one that threw has touched no more than one
temporary file and the object of its source, which is correct if it is there. -/
theorem content_addressed (rt : Platform) (s : System) (past : List System)
    (hrun : System.Run rt (s :: past))
    (hnames : Set.InjOn rt.randomName {n | n < s.world.draws}) :
    (∀ u ∈ s :: past, ∀ hash f, u.world.disk.entry (.object hash) = some f →
      rt.sha256 (u.world.disk.content f) = hash) ∧
    (∀ u ∈ s :: past, ∀ u', System.Step rt u u' → ∀ hash f,
      u.world.disk.entry (.object hash) = some f →
      u'.world.disk.content f = u.world.disk.content f) ∧
    (∀ source w w' p p', Put.Step rt source w p w' p' → ∀ hash f,
      w.disk.entry (.object hash) = some f → w'.disk.entry (.object hash) = some f) ∧
    (∀ (k : ℕ) source outcome, s.processes[k]? = some (.put source (.returned outcome)) →
      WasThere rt (s :: past) k source) ∧
    (∀ (k : ℕ) source e, s.processes[k]? = some (.put source (.thrown e)) →
      ∃ temp, ∀ place, Touches (s :: past) k place →
        place = .temporary temp ∨ place = .object source.sha256) := by
  have hsound : ∀ u ∈ s :: past, Sound rt u := by
    intro u hu
    obtain ⟨before, hbefore, hle⟩ := run_of_mem hrun hu
    exact (run_told hbefore (hnames.mono (fun n hn => lt_of_lt_of_le hn hle))).sound
  have htold := run_told hrun hnames
  refine ⟨fun u hu => (hsound u hu).objects, fun u hu u' hstep hash f => ?_, ?_, ?_, ?_⟩
  · exact content_kept (hsound u hu) hstep
  · intro source w w' p p' hstep hash f
    exact put_keeps hstep
  · intro k source outcome hp
    exact (htold.puts k source _ hp).1
  · intro k source e hp
    obtain ⟨-, temp, htouched⟩ := htold.puts k source _ hp
    exact ⟨temp, htouched.places⟩

/-- A platform with real digests, whose draws are the numbers. -/
def samplePlatform : Platform where
  sha256 := Sha256.digest
  randomName n := List.replicate (32 - (natText n).length) (unit '0') ++ natText n
  inode := id
  maxBlobBytes := 67108864

/-- The declaration of one byte. -/
def sampleSource : BlobSource where
  sha256 := txt "8e35c2cd3bf6641bdb0e2050b76932cbb2e6034a0ddacc1d9bea82a6ba57f7cf"
  sizeBytes := 1

theorem copyRefusal_sample : copyRefusal samplePlatform sampleSource [113] = none := by
  decide

theorem content_addressed_raced : ∃ s past, System.Run samplePlatform (s :: past) ∧
    s.processes = [.put sampleSource (.returned .stored), .put sampleSource (.returned .existing),
      .remove sampleSource.sha256 none (.returned .removed)] ∧
    WasThere samplePlatform (s :: past) 0 sampleSource ∧
    WasThere samplePlatform (s :: past) 1 sampleSource := by
  have hrefusal : refusal samplePlatform sampleSource = none := by decide
  have hapart : samplePlatform.randomName 0 ≠ samplePlatform.randomName 1 := by decide
  obtain ⟨s, past, hrun, hdraws, hprocesses⟩ := exists_raced sampleSource [113] hrefusal
    (by decide) (by decide) (by decide) copyRefusal_sample hapart
  have hnames : Set.InjOn samplePlatform.randomName {n | n < s.world.draws} := by
    intro m hm n hn hmn
    rw [hdraws] at hm hn
    have hm' : m = 0 ∨ m = 1 := Nat.le_one_iff_eq_zero_or_eq_one.mp (Nat.le_of_lt_succ hm)
    have hn' : n = 0 ∨ n = 1 := Nat.le_one_iff_eq_zero_or_eq_one.mp (Nat.le_of_lt_succ hn)
    rcases hm' with rfl | rfl
    · rcases hn' with rfl | rfl
      · rfl
      · exact absurd hmn hapart
    · rcases hn' with rfl | rfl
      · exact absurd hmn.symm hapart
      · rfl
  have haddressed := content_addressed samplePlatform s past hrun hnames
  refine ⟨s, past, hrun, hprocesses, ?_, ?_⟩
  · exact haddressed.2.2.2.1 0 sampleSource .stored (by rw [hprocesses]; rfl)
  · exact haddressed.2.2.2.1 1 sampleSource .existing (by rw [hprocesses]; rfl)

end QeReport.BlobStore

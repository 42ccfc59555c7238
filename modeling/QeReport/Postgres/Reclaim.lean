import Mathlib.Logic.Relation
import QeReport.BlobStore.Integrity

/-! # Reclaiming a blob while a run is archived

`RetentionMaintenance.reclaim` removes a blob that no run needs: the catalog row goes first, under
a guard, and the object after it.  An ingestion puts the object first and inserts the row and the
relation after it.  The two normally exclude each other by the maintenance lock; here they run
side by side without it, for one hash, each one statement or system call at a time.

The database is read as it is committed (READ COMMITTED): the ingestion's transaction adds its
row and its relation when it commits, a relation needs the row by its foreign key, and once the
transaction has related its run to a committed row, that row is locked against deletion. -/

namespace QeReport

open BlobStore

namespace Reclaim

/-- `(project_id, run_id)`. -/
structure RunKey where
  projectId : Text
  runId : Text
deriving DecidableEq

/-! ### The two parties -/

/-- What an ingestion is about to do for the hash.  `own` says that its transaction has inserted
the row itself; otherwise it found a committed one. -/
inductive Ingestion where
  | putting (p : Put)
  | claiming
  | recording
  | recorded (own : Bool)
  | relating (own : Bool)
  | related (own : Bool)
  | committed
  | abandoned

/-- How `reclaim` ends. -/
inductive Outcome where
  | catalogDeleteFailed
  | catalogRowRetained
  | objectRetained
  | removed
  | objectAbsent
deriving DecidableEq

/-- What `reclaim(h, 'catalogued')` is about to do. -/
inductive Reclaimer where
  | deleting
  | removing (p : Remove)
  | ended (outcome : Option Outcome)

/-- The blob store, what the catalog has committed for the hash, and the two parties. -/
structure State where
  world : World
  /-- The row of the hash in `qe_blobs`. -/
  row : Bool
  /-- The rows of the hash in `qe_run_blobs`. -/
  related : List RunKey
  ingestion : Ingestion
  reclaimer : Reclaimer

namespace State

/-- The transaction holds the committed row by its foreign key. -/
def locked (s : State) : Bool :=
  match s.ingestion with
  | .related false => true
  | _ => false

/-- A committed run relates to the hash and the store has no object for it. -/
def Stranded (source : BlobSource) (s : State) : Prop :=
  s.related ≠ [] ∧ s.world.disk.entry (.object source.sha256) = none

end State

section steps

variable (rt : Platform) (source : BlobSource) (run : RunKey)

/-- A step of the ingestion: `put`, then the transaction of `archiveWithin` as far as it concerns
the hash. -/
inductive IngestionStep : State → State → Prop where
  | puts {s : State} {w : World} {p p' : Put} : s.ingestion = .putting p →
      Put.Step rt source s.world p w p' →
      IngestionStep s { s with world := w, ingestion := .putting p' }
  | published {s : State} {outcome : PutOutcome} :
      s.ingestion = .putting (.returned outcome) → IngestionStep s { s with ingestion := .claiming }
  -- `INSERT INTO qe_runs`
  | claimed {s : State} : s.ingestion = .claiming →
      IngestionStep s { s with ingestion := .recording }
  -- `recordBlobs`: `INSERT INTO qe_blobs … ON CONFLICT DO NOTHING`, then the sizes are read back
  | inserted {s : State} : s.ingestion = .recording →
      IngestionStep s { s with ingestion := .recorded (!s.row) }
  | readBack {s : State} {own : Bool} : s.ingestion = .recorded own → (own || s.row) = true →
      IngestionStep s { s with ingestion := .relating own }
  -- `insertLines`, then `relateBlobs`: `INSERT INTO qe_run_blobs`
  | relates {s : State} {own : Bool} : s.ingestion = .relating own → (own || s.row) = true →
      IngestionStep s { s with ingestion := .related own }
  | commits {s : State} {own : Bool} : s.ingestion = .related own →
      IngestionStep s { s with
        row := own || s.row
        related := s.related ++ [run]
        ingestion := .committed }
  -- a statement fails or the process stops: the transaction is rolled back
  | abandons {s : State} : s.ingestion ≠ .committed →
      IngestionStep s { s with ingestion := .abandoned }

/-- The `unlinkSync` of `removeObject`. -/
def Unlinks (s s' : State) : Prop :=
  s.reclaimer = .removing .unlinking ∧ s'.reclaimer = .removing (.returned .removed)

variable (size : ℤ)

/-- A step of `reclaim`: the guarded `DELETE`, then `removeObject` with the recorded size. -/
inductive ReclaimStep : State → State → Prop where
  | deleted {s : State} : s.reclaimer = .deleting → s.row = true → s.related = [] →
      s.locked = false → ReclaimStep s { s with row := false, reclaimer := .removing .start }
  | retained {s : State} : s.reclaimer = .deleting → (s.row = false ∨ s.related ≠ []) →
      ReclaimStep s { s with reclaimer := .ended (some .catalogRowRetained) }
  | deleteFails {s : State} : s.reclaimer = .deleting →
      ReclaimStep s { s with reclaimer := .ended (some .catalogDeleteFailed) }
  | removes {s : State} {w : World} {p p' : Remove} : s.reclaimer = .removing p →
      Remove.Step rt source.sha256 (some size) s.world p w p' →
      ReclaimStep s { s with world := w, reclaimer := .removing p' }
  | removed {s : State} {outcome : RemoveOutcome} : s.reclaimer = .removing (.returned outcome) →
      ReclaimStep s { s with
        reclaimer := .ended (some (if outcome = .removed then .removed else .objectAbsent)) }
  | kept {s : State} {e : Failure} : s.reclaimer = .removing (.thrown e) →
      ReclaimStep s { s with reclaimer := .ended (some .objectRetained) }
  | stops {s : State} : ReclaimStep s { s with reclaimer := .ended none }

inductive Step (s s' : State) : Prop where
  | ingestion : IngestionStep rt source run s s' → Step s s'
  | reclaim : ReclaimStep rt source size s s' → Step s s'

end steps

/-- The start of a race: what the catalog says before it, the store being right. -/
structure Initial (source : BlobSource) (s : State) : Prop where
  sound : s.related ≠ [] →
    s.row = true ∧ s.world.disk.entry (.object source.sha256) ≠ none
  ingestion : s.ingestion = .putting .start
  reclaimer : s.reclaimer = .deleting

/-! ### When an ingestion relies on the object -/

/-- `put` has opened the object that it found, or has confirmed the one that it published. -/
def Put.relies : Put → Bool
  | .looking _ (.stating _) => true
  | .looking _ (.reading _ _) => true
  | .looking _ (.verified _) => true
  | .clearing _ => true
  | .returned _ => true
  | _ => false

/-- The ingestion may relate its run to the hash without looking at the store again: its `put`
relies on the object, and the row that it found, if it found one, is still there. -/
def State.relies (s : State) : Bool :=
  match s.ingestion with
  | .putting p => Put.relies p
  | .claiming => true
  | .recording => true
  | .recorded own => own || s.row
  | .relating own => own || s.row
  | .related own => own || s.row
  | .committed => true
  | .abandoned => false

/-- `reclaim` does not unlink the object of an ingestion that relies on it. -/
def Spares (s s' : State) : Prop := Unlinks s s' → s.relies = false

variable {rt : Platform} {source : BlobSource} {run : RunKey} {size : ℤ}

structure Invariant (source : BlobSource) (s : State) : Prop where
  related : s.related ≠ [] →
    s.row = true ∧ s.world.disk.entry (.object source.sha256) ≠ none
  relied : s.relies = true → s.world.disk.entry (.object source.sha256) ≠ none
  found : s.ingestion = .related false → s.row = true
  unrelated : (∃ p, s.reclaimer = .removing p) → s.ingestion ≠ .committed → s.related = []

theorem Initial.invariant {s : State} (h : Initial source s) : Invariant source s := by
  refine ⟨h.sound, fun hrelies => ?_, fun hrelated => ?_, fun ⟨p, hp⟩ => ?_⟩
  · rw [State.relies, h.ingestion] at hrelies
    cases hrelies
  · rw [h.ingestion] at hrelated
    cases hrelated
  · rw [h.reclaimer] at hp
    cases hp

/-- A `put` that begins to rely on the object has just seen it. -/
theorem put_relies {w w' : World} {p p' : Put} (h : Put.Step rt source w p w' p')
    (hp : Put.relies p = true → w.disk.entry (.object source.sha256) ≠ none)
    (hp' : Put.relies p' = true) : w'.disk.entry (.object source.sha256) ≠ none := by
  have hkeeps : w.disk.entry (.object source.sha256) ≠ none →
      w'.disk.entry (.object source.sha256) ≠ none := by
    intro hsome
    obtain ⟨f, hf⟩ := Option.ne_none_iff_exists'.mp hsome
    rw [put_keeps h hf]
    exact Option.some_ne_none f
  apply hkeeps
  cases h with
  | looks hl =>
      cases hl with
      | opened hentry =>
          rw [hentry]
          exact Option.some_ne_none _
      | rightSize => exact hp rfl
      | chunk => exact hp rfl
      | rightHash => exact hp rfl
      | _ => cases hp'
  | found => exact hp rfl
  | confirmed hentry =>
      rw [hentry]
      exact Option.some_ne_none _
  | cleared => exact hp rfl
  | @inspectFails race => cases race <;> cases hp'
  | @notFound race => cases race <;> cases hp'
  | _ => cases hp'

/-- The ingestion moves on and changes neither the store nor what is committed. -/
theorem Invariant.moves {s : State} (h : Invariant source s) {i : Ingestion}
    (hs : s.ingestion ≠ .committed)
    (hrelies : ({ s with ingestion := i } : State).relies = true → s.relies = true)
    (hfound : i = .related false → s.row = true) :
    Invariant source { s with ingestion := i } :=
  ⟨h.related, fun hr => h.relied (hrelies hr), hfound, fun hr _ => h.unrelated hr hs⟩

theorem IngestionStep.invariant {s s' : State} (h : Invariant source s)
    (hstep : IngestionStep rt source run s s') : Invariant source s' := by
  cases hstep with
  | @puts w p p' hp hput =>
      have hrelies : s.relies = Put.relies p := by rw [State.relies, hp]
      have hkeeps : s.world.disk.entry (.object source.sha256) ≠ none →
          w.disk.entry (.object source.sha256) ≠ none := by
        intro hsome
        obtain ⟨f, hf⟩ := Option.ne_none_iff_exists'.mp hsome
        rw [put_keeps hput hf]
        exact Option.some_ne_none f
      refine ⟨fun hr => ⟨(h.related hr).1, hkeeps (h.related hr).2⟩, fun hr => ?_,
        fun hr => (by cases hr), fun hr _ => h.unrelated hr (by rw [hp]; simp)⟩
      exact put_relies hput (fun hpr => h.relied (hrelies.trans hpr)) hr
  | published hp =>
      refine h.moves (by rw [hp]; simp) (fun _ => ?_) (fun hr => (by cases hr))
      rw [State.relies, hp]
      rfl
  | claimed hp =>
      refine h.moves (by rw [hp]; simp) (fun _ => ?_) (fun hr => (by cases hr))
      rw [State.relies, hp]
  | inserted hp =>
      refine h.moves (by rw [hp]; simp) (fun _ => ?_) (fun hr => (by cases hr))
      rw [State.relies, hp]
  | readBack hp hrow =>
      refine h.moves (by rw [hp]; simp) (fun _ => ?_) (fun hr => (by cases hr))
      rw [State.relies, hp]
      exact hrow
  | @relates own hp hrow =>
      refine h.moves (by rw [hp]; simp) (fun _ => ?_) (fun hr => ?_)
      · rw [State.relies, hp]
        exact hrow
      · cases hr
        exact hrow
  | @commits own hp =>
      -- a row that was found is still there: its deletion waits for the lock
      have hrow : (own || s.row) = true := by
        cases own with
        | false => exact h.found hp
        | true => rfl
      have hentry := h.relied (by rw [State.relies, hp]; exact hrow)
      exact ⟨fun _ => ⟨hrow, hentry⟩, fun _ => hentry, fun hr => (by cases hr),
        fun _ hne => absurd rfl hne⟩
  | abandons hp => exact h.moves hp (fun hr => (by cases hr)) (fun hr => (by cases hr))

theorem ReclaimStep.invariant {s s' : State} (h : Invariant source s)
    (hstep : ReclaimStep rt source size s s') (hspares : Spares s s') : Invariant source s' := by
  cases hstep with
  | deleted hp hrow hrelated hlocked =>
      refine ⟨fun hr => absurd hrelated hr, fun hr => h.relied ?_, fun hr => ?_,
        fun _ _ => hrelated⟩
      · rw [State.relies] at hr ⊢
        cases hi : s.ingestion <;> simp_all
      · rw [State.locked, show s.ingestion = .related false from hr] at hlocked
        cases hlocked
  | @removes w p p' hp hremove =>
      by_cases hunlink : p = .unlinking ∧ p' = .returned .removed
      · obtain ⟨rfl, rfl⟩ := hunlink
        have hidle := hspares ⟨hp, rfl⟩
        have hcommitted : s.ingestion ≠ .committed := by
          intro hc
          rw [State.relies, hc] at hidle
          cases hidle
        have hrelated := h.unrelated ⟨_, hp⟩ hcommitted
        refine ⟨fun hr => absurd hrelated hr, fun hr => ?_, h.found, fun _ _ => hrelated⟩
        exact absurd (hidle.symm.trans hr) (by decide)
      · have hworld : w = s.world := by
          cases hremove with
          | unlinked => exact absurd ⟨rfl, rfl⟩ hunlink
          | _ => rfl
        subst hworld
        exact ⟨h.related, h.relied, h.found, fun _ hc => h.unrelated ⟨p, hp⟩ hc⟩
  | _ => exact ⟨h.related, h.relied, h.found, fun ⟨p, hp⟩ => by cases hp⟩

/-- Without the lock, a run in which `reclaim` never unlinks the object of an ingestion that
relies on it strands no committed run. -/
theorem reclaim_strands_none {s s' : State} (hs : Initial source s)
    (h : Relation.ReflTransGen (fun u v => Step rt source run size u v ∧ Spares u v) s s') :
    ¬ State.Stranded source s' := by
  have hinvariant : Invariant source s' := by
    induction h with
    | refl => exact hs.invariant
    | tail _ hstep ih =>
        obtain ⟨hstep, hspares⟩ := hstep
        cases hstep with
        | ingestion hstep => exact hstep.invariant ih
        | reclaim hstep => exact hstep.invariant ih hspares
  rintro ⟨hrelated, hentry⟩
  exact (hinvariant.related hrelated).2 hentry

/-! ### The loss -/

/-- A blob that nothing refers to: catalogued, and right in the store. -/
structure Unreferenced (rt : Platform) (source : BlobSource) (s : State) (f : ℕ) : Prop extends
    Initial source s where
  admitted : refusal rt source = none
  row : s.row = true
  related : s.related = []
  entry : s.world.disk.entry (.object source.sha256) = some f
  sha256 : rt.sha256 (s.world.disk.content f) = source.sha256
  sizeBytes : source.sizeBytes = (s.world.disk.content f).length

theorem IngestionStep.spares {s s' : State} (h : IngestionStep rt source run s s') :
    Spares s s' := by
  have hreclaimer : s'.reclaimer = s.reclaimer := by cases h <;> rfl
  rintro ⟨hbefore, hafter⟩
  rw [hreclaimer, hbefore] at hafter
  cases hafter

/-- The steps of `put` as steps of the ingestion. -/
theorem puts_all (run : RunKey) (size : ℤ) {s : State} {w : World} {p p' : Put}
    (hp : s.ingestion = .putting p)
    (h : Relation.ReflTransGen (Put.Moves rt source) (s.world, p) (w, p')) :
    Relation.ReflTransGen (fun u v => Step rt source run size u v ∧ Spares u v) s
      { s with world := w, ingestion := .putting p' } := by
  have hmoves : ∀ b, Relation.ReflTransGen (Put.Moves rt source) (s.world, p) b →
      Relation.ReflTransGen (fun u v => Step rt source run size u v ∧ Spares u v) s
        { s with world := b.1, ingestion := .putting b.2 } := by
    intro b hb
    induction hb with
    | refl => rw [← hp]
    | @tail b c _ hstep ih =>
        have hputs : IngestionStep rt source run { s with world := b.1, ingestion := .putting b.2 }
            { s with world := c.1, ingestion := .putting c.2 } := .puts rfl hstep
        exact ih.tail ⟨.ingestion hputs, hputs.spares⟩
  exact hmoves (w, p') h

/-- The steps of `removeObject` before the unlink as steps of `reclaim`, with the ingestion
anywhere. -/
theorem removes_all (run : RunKey) (size : ℤ) {w : World} {p p' : Remove} (s : State)
    (hw : s.world = w) (hp : s.reclaimer = .removing p)
    (h : Relation.ReflTransGen
      (fun q q' => Remove.Step rt source.sha256 (some size) w q w q' ∧ q ≠ .unlinking) p p') :
    Relation.ReflTransGen (fun u v => Step rt source run size u v ∧ Spares u v) s
      { s with reclaimer := .removing p' } := by
  subst hw
  induction h with
  | refl => rw [← hp]
  | tail _ hstep ih =>
      refine ih.tail ⟨.reclaim (.removes rfl hstep.1), fun hunlinks => ?_⟩
      exact absurd (Reclaimer.removing.inj hunlinks.1) hstep.2

theorem refusal_eq_none (h : refusal rt source = none) :
    isSha256 source.sha256 = true ∧ isSize source.sizeBytes = true := by
  unfold refusal at h
  cases hsha : isSha256 source.sha256 with
  | false => simp [hsha] at h
  | true =>
      cases hsize : isSize source.sizeBytes with
      | false => simp [hsha, hsize] at h
      | true => exact ⟨rfl, rfl⟩

/-- `put` finds the blob. -/
theorem put_finds {s : State} {f : ℕ} (h : Unreferenced rt source s f) :
    Relation.ReflTransGen (Put.Moves rt source) (s.world, .start)
      (s.world, .returned .existing) := by
  have hlook : Relation.ReflTransGen (Put.Moves rt source) (s.world, .looking none .opening)
      (s.world, .looking none (.verified f)) :=
    (look_verifies h.entry (fun _ hn => Option.some.inj hn ▸ h.sizeBytes) h.sha256).lift
      (fun l => (s.world, Put.looking none l)) (fun _ _ => .looks)
  have hstart : Relation.ReflTransGen (Put.Moves rt source) (s.world, .start)
      (s.world, .looking none .opening) :=
    moves_put (moves_put .refl (.admitted h.admitted)) (.present (by rw [Disk.has, h.entry]; rfl))
  exact moves_put (hstart.trans hlook) .found

/-- `removeObject` reads the blob and is about to unlink it. -/
theorem remove_reads {w : World} {f : ℕ} (hrefusal : refusal rt source = none)
    (hentry : w.disk.entry (.object source.sha256) = some f)
    (hsha : rt.sha256 (w.disk.content f) = source.sha256)
    (hsize : source.sizeBytes = (w.disk.content f).length) :
    Relation.ReflTransGen (fun q q' =>
      Remove.Step rt source.sha256 (some source.sizeBytes) w q w q' ∧ q ≠ .unlinking)
      .start .unlinking := by
  obtain ⟨hhash, hsizes⟩ := refusal_eq_none hrefusal
  have hlook : Relation.ReflTransGen (fun q q' =>
      Remove.Step rt source.sha256 (some source.sizeBytes) w q w q' ∧ q ≠ .unlinking)
      (.looking .opening) (.looking (.verified f)) :=
    (look_verifies hentry (fun _ hn => Option.some.inj hn ▸ hsize) hsha).lift Remove.looking
      (fun _ _ h => ⟨.looks h, by simp⟩)
  have hstart : Relation.ReflTransGen (fun q q' =>
      Remove.Step rt source.sha256 (some source.sizeBytes) w q w q' ∧ q ≠ .unlinking)
      .start (.looking .opening) :=
    (Relation.ReflTransGen.single ⟨.admitted hhash (fun n hn => Option.some.inj hn ▸ hsizes),
      by simp⟩).tail ⟨.present (by rw [Disk.has, hentry]; rfl), by simp⟩
  exact ((hstart.trans hlook).tail ⟨.read, by simp⟩).tail ⟨.unchanged hentry rfl, by simp⟩

/-- The row is deleted between `put` and the transaction, the object after it. -/
theorem exists_stranded {s : State} {f : ℕ} (h : Unreferenced rt source s f) (run : RunKey) :
    ∃ s', Relation.ReflTransGen (Step rt source run source.sizeBytes) s s' ∧
      State.Stranded source s' := by
  have hfound := Relation.ReflTransGen.mono (fun _ _ h => And.left h) _ _
    (puts_all run source.sizeBytes h.ingestion (put_finds h))
  have hput := hfound.tail (.ingestion (.published rfl))
  have hdeleted := hput.tail (.reclaim (.deleted h.reclaimer h.row h.related rfl))
  have hcommitted := ((((hdeleted.tail (.ingestion (.claimed rfl))).tail
    (.ingestion (.inserted rfl))).tail (.ingestion (.readBack rfl rfl))).tail
      (.ingestion (.relates rfl rfl))).tail (.ingestion (.commits rfl))
  have hread := removes_all run source.sizeBytes { s with
      row := true
      related := s.related ++ [run]
      ingestion := .committed
      reclaimer := .removing .start } rfl rfl
    (remove_reads h.admitted h.entry h.sha256 h.sizeBytes)
  have hread' := Relation.ReflTransGen.mono (fun _ _ h => And.left h) _ _ hread
  refine ⟨_, (hcommitted.trans hread').tail (.reclaim (.removes rfl (.unlinked ?_))), ?_, ?_⟩
  · rw [Disk.has, h.entry]
    rfl
  · simp
  · exact Function.update_self ..

/-- One byte, catalogued and stored, that nothing refers to. -/
def sampleRace : State where
  world := ⟨⟨fun p => if p = .object sampleSource.sha256 then some 0 else none,
    fun _ => [113], 1, fun p f h => by
      split at h
      · rw [← Option.some.inj h]
        exact Nat.one_pos
      · cases h⟩, 0⟩
  row := true
  related := []
  ingestion := .putting .start
  reclaimer := .deleting

theorem sampleRace_unreferenced : Unreferenced samplePlatform sampleSource sampleRace 0 where
  sound h := absurd rfl h
  ingestion := rfl
  reclaimer := rfl
  admitted := by decide
  row := rfl
  related := rfl
  entry := rfl
  sha256 := (copyRefusal_eq_none.mp copyRefusal_sample).1
  sizeBytes := rfl

theorem reclaim_strands_run : ∃ s', Initial sampleSource sampleRace ∧
    Relation.ReflTransGen (Step samplePlatform sampleSource ⟨txt "p", txt "r"⟩ 1) sampleRace s' ∧
    State.Stranded sampleSource s' := by
  obtain ⟨s', hrun, hstranded⟩ := exists_stranded sampleRace_unreferenced ⟨txt "p", txt "r"⟩
  exact ⟨s', sampleRace_unreferenced.toInitial, hrun, hstranded⟩

/-- `reclaim` removes the row and the object; the ingestion, which comes after it, stores the object
and inserts the row anew. -/
theorem reclaim_strands_none_after : ∃ s',
    Relation.ReflTransGen (fun u v =>
      Step samplePlatform sampleSource ⟨txt "p", txt "r"⟩ 1 u v ∧ Spares u v) sampleRace s' ∧
    s'.reclaimer = .removing (.returned .removed) ∧ s'.ingestion = .committed ∧
    s'.related = [⟨txt "p", txt "r"⟩] ∧ ¬ State.Stranded sampleSource s' := by
  have h := sampleRace_unreferenced
  have hdeleted : Relation.ReflTransGen (fun u v =>
      Step samplePlatform sampleSource ⟨txt "p", txt "r"⟩ 1 u v ∧ Spares u v) sampleRace
      { sampleRace with row := false, reclaimer := .removing .start } :=
    .single ⟨.reclaim (.deleted rfl rfl rfl rfl), fun _ => rfl⟩
  have hread := hdeleted.trans (removes_all _ _ _ rfl rfl
    (remove_reads h.admitted h.entry h.sha256 h.sizeBytes))
  have hunlinked := hread.tail ⟨.reclaim (.removes rfl (.unlinked (by rw [Disk.has, h.entry]; rfl))),
    fun _ => rfl⟩
  have habsent : (sampleRace.world.unlink (.object sampleSource.sha256)).disk.entry
      (.object sampleSource.sha256) = none := by
    rw [World.unlink, World.withDisk, Disk.entry_unlink, Function.update_self]
  obtain ⟨d, hentry, hcontent, -, hcopies⟩ := @put_copies samplePlatform sampleSource [113] _
    h.admitted (by decide) (by decide) copyRefusal_sample habsent rfl
  obtain ⟨d', hentry', -, -, hpublishes⟩ := @put_publishes samplePlatform sampleSource ⟨d, 1⟩ _ _
    (by rw [hentry]; exact Function.update_self ..)
    (by rw [hentry, Function.update_of_ne (by simp)]; exact habsent)
    (by rw [hcontent, Function.update_self]; rfl)
  have hput := hunlinked.trans (puts_all ⟨txt "p", txt "r"⟩ 1 rfl (hcopies.trans hpublishes))
  have hgoes : ∀ {s s' : State}, Relation.ReflTransGen (fun u v =>
      Step samplePlatform sampleSource ⟨txt "p", txt "r"⟩ 1 u v ∧ Spares u v) sampleRace s →
      IngestionStep samplePlatform sampleSource ⟨txt "p", txt "r"⟩ s s' →
      Relation.ReflTransGen (fun u v =>
        Step samplePlatform sampleSource ⟨txt "p", txt "r"⟩ 1 u v ∧ Spares u v) sampleRace s' :=
    fun hrun hstep => hrun.tail ⟨.ingestion hstep, hstep.spares⟩
  have hrecorded := hgoes (hgoes (hgoes hput (.published rfl)) (.claimed rfl)) (.inserted rfl)
  have hcommitted := hgoes (hgoes (hgoes hrecorded (.readBack rfl rfl)) (.relates rfl rfl))
    (.commits rfl)
  exact ⟨_, hcommitted, rfl, rfl, rfl, reclaim_strands_none h.toInitial hcommitted⟩

end Reclaim

end QeReport

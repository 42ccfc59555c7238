import Mathlib.Data.List.Perm.Basic
import Mathlib.Data.List.Infix
import Mathlib.Data.List.Nodup
import Mathlib.Data.List.Pairwise

/-! # Logs under a guard

A log is a list of events, each of which had to be admitted by the events before it: `guard p e`
says that `e` may follow the log `p`, and `Admissible guard l` that this held at every position
of `l`.

Events belong to classes (`cls`), and the guard of an event often looks only at the events of
its own class, apart from a symmetric relation with the others.  `Decomposes` states this for
logs whose events satisfy a side condition `scope`, and `admissible_iff_classes` splits
admissibility along it: every class admissible by itself, and the relation between any two
events.  Two consequences carry whole developments: the order in which classes are interleaved
does not matter (`admissible_of_classes_eq`), and cutting every class down to a prefix keeps a
log admissible (`admissible_of_classes_initial`). -/

namespace QeReport.GuardedLog

variable {E K : Type}

/-- Every event of the log is admitted by the events before it. -/
def Admissible (guard : List E → E → Prop) (l : List E) : Prop :=
  ∀ p e s, l = p ++ e :: s → guard p e

variable {guard : List E → E → Prop}

theorem admissible_nil : Admissible guard [] := by
  intro p e s h
  simp at h

theorem admissible_concat {l : List E} {e : E} :
    Admissible guard (l ++ [e]) ↔ Admissible guard l ∧ guard l e := by
  constructor
  · intro h
    refine ⟨fun p e' s he => h p e' (s ++ [e]) (by simp [he]), h l e [] rfl⟩
  · rintro ⟨hl, he⟩ p e' s h
    rcases List.eq_nil_or_concat s with rfl | ⟨s', x, rfl⟩
    · obtain ⟨rfl, hx⟩ := List.append_inj' h rfl
      rw [← (List.cons.inj hx).1]
      exact he
    · have h' : l ++ [e] = (p ++ e' :: s') ++ [x] := by simpa using h
      exact hl p e' s' (List.append_inj' h' rfl).1

theorem admissible_append {l r : List E} :
    Admissible guard (l ++ r) ↔ Admissible guard l ∧ Admissible (fun p => guard (l ++ p)) r := by
  induction r using List.reverseRecOn with
  | nil => simp [admissible_nil]
  | append_singleton r e ih =>
      rw [← List.append_assoc, admissible_concat, admissible_concat, ih, and_assoc]

theorem Admissible.initial {l r : List E} (h : Admissible guard r) (hp : l <+: r) :
    Admissible guard l := by
  obtain ⟨t, rfl⟩ := hp
  exact (admissible_append.mp h).1

theorem Admissible.imp {guard' : List E → E → Prop} {l : List E} (h : Admissible guard l)
    (hg : ∀ p e s, l = p ++ e :: s → guard p e → guard' p e) : Admissible guard' l :=
  fun p e s he => hg p e s he (h p e s he)

theorem Admissible.of_mem {l : List E} (h : Admissible guard l) {e : E} (he : e ∈ l) :
    ∃ p s, l = p ++ e :: s ∧ guard p e := by
  obtain ⟨p, s, rfl⟩ := List.append_of_mem he
  exact ⟨p, s, rfl, h p e s rfl⟩

theorem Admissible.pairwise {l : List E} (h : Admissible guard l) {R : E → E → Prop}
    (hR : ∀ p e, guard p e → ∀ x ∈ p, R x e) : l.Pairwise R := by
  induction l using List.reverseRecOn with
  | nil => exact List.Pairwise.nil
  | append_singleton l e ih =>
      obtain ⟨hl, he⟩ := admissible_concat.mp h
      refine List.pairwise_append.mpr ⟨ih hl, List.pairwise_singleton _ _, fun x hx y hy => ?_⟩
      rw [List.mem_singleton.mp hy]
      exact hR l e he x hx

/-! ### Keys that are used once -/

section keys
variable {B : Type} {key : E → Option B}

/-- A key that the guard refuses a second time occurs once. -/
theorem Admissible.nodup_keys {l : List E} (h : Admissible guard l)
    (hkey : ∀ p e b, guard p e → key e = some b → b ∉ p.filterMap key) : (l.filterMap key).Nodup := by
  induction l using List.reverseRecOn with
  | nil => exact List.nodup_nil
  | append_singleton l e ih =>
      obtain ⟨hl, he⟩ := admissible_concat.mp h
      rw [List.filterMap_append]
      cases hk : key e with
      | none => simpa [hk] using ih hl
      | some b =>
          have hb := hkey l e b he hk
          rw [List.filterMap_cons_some hk, List.filterMap_nil]
          exact (ih hl).append (List.nodup_singleton b) (by simpa using hb)

omit guard in
theorem eq_of_nodup_keys {l : List E} (h : (l.filterMap key).Nodup) {x y : E} {b : B}
    (hx : x ∈ l) (hy : y ∈ l) (hxb : key x = some b) (hyb : key y = some b) : x = y := by
  induction l with
  | nil => simp at hx
  | cons z l ih =>
      have hl : (l.filterMap key).Nodup := by
        cases hz : key z with
        | none => rwa [List.filterMap_cons_none hz] at h
        | some c =>
            rw [List.filterMap_cons_some hz] at h
            exact h.of_cons
      have hz : ∀ w ∈ l, key w = some b → key z ≠ some b := by
        intro w hw hwb hzb
        rw [List.filterMap_cons_some hzb] at h
        exact (List.nodup_cons.mp h).1 (List.mem_filterMap.mpr ⟨w, hw, hwb⟩)
      rcases List.mem_cons.mp hx with hxz | hxl
      · rcases List.mem_cons.mp hy with hyz | hyl
        · rw [hxz, hyz]
        · exact absurd (hxz ▸ hxb) (hz y hyl hyb)
      · rcases List.mem_cons.mp hy with hyz | hyl
        · exact absurd (hyz ▸ hyb) (hz x hxl hxb)
        · exact ih hl hxl hyl

end keys

/-! ### Splitting a log into classes -/

section classes
variable [DecidableEq K] (cls : E → K)

/-- The events of class `k`. -/
def ofClass (k : K) (l : List E) : List E := l.filter (fun e => cls e = k)

variable {cls}

theorem mem_ofClass {k : K} {l : List E} {e : E} : e ∈ ofClass cls k l ↔ e ∈ l ∧ cls e = k := by
  simp [ofClass]

theorem ofClass_append (k : K) (l r : List E) :
    ofClass cls k (l ++ r) = ofClass cls k l ++ ofClass cls k r := List.filter_append ..

theorem ofClass_sublist (k : K) (l : List E) : (ofClass cls k l).Sublist l := List.filter_sublist

/-- Two logs with the same classes hold the same events. -/
theorem perm_of_classes {l l' : List E} (h : ∀ k, ofClass cls k l = ofClass cls k l') :
    l.Perm l' := by
  classical
  rw [List.perm_iff_count]
  intro e
  have hcount : ∀ m : List E, m.count e = (ofClass cls (cls e) m).count e := by
    intro m
    rw [ofClass, List.count_filter (by simp)]
  rw [hcount l, hcount l', h]

/-- When each block is a class of its own, the class is the block. -/
theorem ofClass_flatMap_keys {B : Type} {g : B → List E} {key : B → K} {bs : List B}
    (hnodup : (bs.map key).Nodup) (hkey : ∀ b ∈ bs, ∀ x ∈ g b, cls x = key b) {b : B}
    (hb : b ∈ bs) : ofClass cls (key b) (bs.flatMap g) = g b := by
  have hother : ∀ c ∈ bs, key c ≠ key b → ofClass cls (key b) (g c) = [] := by
    intro c hc hne
    rw [List.eq_nil_iff_forall_not_mem]
    intro x hx
    obtain ⟨hxc, hxk⟩ := mem_ofClass.mp hx
    exact hne ((hkey c hc x hxc).symm.trans hxk)
  have hown : ofClass cls (key b) (g b) = g b := by
    rw [ofClass, List.filter_eq_self]
    exact fun x hx => by simpa using hkey b hb x hx
  have hnone : ∀ cs : List B, (∀ c ∈ cs, c ∈ bs ∧ key c ≠ key b) →
      ofClass cls (key b) (cs.flatMap g) = [] := by
    intro cs
    induction cs with
    | nil => exact fun _ => rfl
    | cons c cs ih =>
        intro h
        rw [List.flatMap_cons, ofClass_append, hother c (h c (by simp)).1 (h c (by simp)).2,
          List.nil_append]
        exact ih (fun d hd => h d (List.mem_cons_of_mem _ hd))
  obtain ⟨cs, ds, rfl⟩ := List.append_of_mem hb
  rw [List.map_append, List.map_cons] at hnodup
  have hcs : ∀ c ∈ cs, key c ≠ key b := fun c hc heq =>
    (List.nodup_append.mp hnodup).2.2 _ (List.mem_map_of_mem hc) _ List.mem_cons_self heq
  have hds : ∀ d ∈ ds, key d ≠ key b := fun d hd heq =>
    (List.nodup_cons.mp (List.nodup_append.mp hnodup).2.1).1
      (heq ▸ List.mem_map_of_mem hd)
  rw [List.flatMap_append, List.flatMap_cons, ofClass_append, ofClass_append, hown,
    hnone cs (fun c hc => ⟨by simp [hc], hcs c hc⟩), hnone ds (fun d hd => ⟨by simp [hd], hds d hd⟩)]
  simp

/-- A log put together from its classes has the same classes. -/
theorem ofClass_flatMap_ofClass {B : Type} {key : B → K} {bs : List B}
    (hnodup : (bs.map key).Nodup) {l : List E} (hall : ∀ x ∈ l, ∃ b ∈ bs, key b = cls x) (k : K) :
    ofClass cls k (bs.flatMap (fun b => ofClass cls (key b) l)) = ofClass cls k l := by
  by_cases hk : ∃ b ∈ bs, key b = k
  · obtain ⟨b, hb, rfl⟩ := hk
    have hkey : ∀ c ∈ bs, ∀ x ∈ ofClass cls (key c) l, cls x = key c :=
      fun c _ x hx => (mem_ofClass.mp hx).2
    exact ofClass_flatMap_keys hnodup hkey hb
  · have hnone : ∀ m : List E, (∀ x ∈ m, x ∈ l) → ofClass cls k m = [] := by
      intro m hm
      rw [List.eq_nil_iff_forall_not_mem]
      intro x hx
      obtain ⟨hxm, rfl⟩ := mem_ofClass.mp hx
      exact hk (hall x (hm x hxm))
    rw [hnone l (fun _ h => h), hnone]
    intro x hx
    obtain ⟨b, -, hxb⟩ := List.mem_flatMap.mp hx
    exact (mem_ofClass.mp hxb).1

/-- When no class has events in two blocks, the order of the blocks does not show in a class. -/
theorem ofClass_flatMap_perm {B : Type} {g : B → List E} {xs ys : List B} (hp : xs.Perm ys)
    (hapart : xs.Pairwise (fun a b => ∀ x ∈ g a, ∀ y ∈ g b, cls x ≠ cls y)) (k : K) :
    ofClass cls k (xs.flatMap g) = ofClass cls k (ys.flatMap g) := by
  induction hp with
  | nil => rfl
  | cons b _ ih =>
      rw [List.flatMap_cons, List.flatMap_cons, ofClass_append, ofClass_append, ih hapart.of_cons]
  | swap a b l =>
      have hab := (List.pairwise_cons.mp hapart).1 a (by simp)
      have hempty : ofClass cls k (g a) = [] ∨ ofClass cls k (g b) = [] := by
        by_contra h
        rw [not_or] at h
        obtain ⟨x, hx⟩ := List.exists_mem_of_ne_nil _ h.1
        obtain ⟨y, hy⟩ := List.exists_mem_of_ne_nil _ h.2
        rw [mem_ofClass] at hx hy
        exact hab y hy.1 x hx.1 (hy.2.trans hx.2.symm)
      simp only [List.flatMap_cons, ofClass_append]
      rcases hempty with h | h <;> simp [h]
  | trans hp _ ih1 ih2 =>
      have hsymm : ∀ a b, (∀ x ∈ g a, ∀ y ∈ g b, cls x ≠ cls y) →
          ∀ x ∈ g b, ∀ y ∈ g a, cls x ≠ cls y :=
        fun a b h x hx y hy => (h y hy x hx).symm
      rw [ih1 hapart, ih2 ((hp.pairwise_iff (fun {a b} => hsymm a b)).mp hapart)]

/-- Cutting every block down to a prefix cuts every class down to a prefix. -/
theorem ofClass_flatMap_initial {B : Type} {g : B → List E} {xs ys : List B}
    (hp : List.Forall₂ (fun a b => g a <+: g b) xs ys)
    (hapart : ys.Pairwise (fun a b => ∀ x ∈ g a, ∀ y ∈ g b, cls x ≠ cls y)) (k : K) :
    ofClass cls k (xs.flatMap g) <+: ofClass cls k (ys.flatMap g) := by
  induction hp with
  | nil => exact List.prefix_rfl
  | @cons a b xs ys hab _ ih =>
      have hih := ih hapart.of_cons
      have hcls : ofClass cls k (g a) <+: ofClass cls k (g b) := hab.filter _
      rw [List.flatMap_cons, List.flatMap_cons, ofClass_append, ofClass_append]
      by_cases hempty : ofClass cls k (g b) = []
      · rw [hempty, List.prefix_nil] at hcls
        rwa [hempty, hcls]
      · have hrest : ofClass cls k (ys.flatMap g) = [] := by
          obtain ⟨x, hx⟩ := List.exists_mem_of_ne_nil _ hempty
          rw [List.eq_nil_iff_forall_not_mem]
          intro y hy
          obtain ⟨hyl, hyk⟩ := mem_ofClass.mp hy
          obtain ⟨c, hc, hyc⟩ := List.mem_flatMap.mp hyl
          obtain ⟨hxb, hxk⟩ := mem_ofClass.mp hx
          exact (List.pairwise_cons.mp hapart).1 c hc x hxb y hyc (hxk.trans hyk.symm)
        rw [hrest, List.prefix_nil] at hih
        rwa [hrest, hih, List.append_nil, List.append_nil]

/-- On a log in scope the guard is a local guard on the event's own class and a relation with
every earlier event. -/
def Decomposes (cls : E → K) (guard : List E → E → Prop) (scope : E → E → Prop)
    (localGuard : List E → E → Prop) (rel : E → E → Prop) : Prop :=
  ∀ p e, (p ++ [e]).Pairwise scope →
    (guard p e ↔ localGuard (ofClass cls (cls e) p) e ∧ ∀ x ∈ p, rel x e)

variable {scope rel : E → E → Prop} {localGuard : List E → E → Prop}

theorem admissible_iff_classes (hd : Decomposes cls guard scope localGuard rel) {l : List E}
    (hs : l.Pairwise scope) :
    Admissible guard l ↔ (∀ k, Admissible localGuard (ofClass cls k l)) ∧ l.Pairwise rel := by
  induction l using List.reverseRecOn with
  | nil => simp [ofClass, admissible_nil]
  | append_singleton l e ih =>
      obtain ⟨hl, -, -⟩ := List.pairwise_append.mp hs
      have hrel : (l ++ [e]).Pairwise rel ↔ l.Pairwise rel ∧ ∀ x ∈ l, rel x e := by
        simp [List.pairwise_append]
      have hcls : (∀ k, Admissible localGuard (ofClass cls k (l ++ [e]))) ↔
          (∀ k, Admissible localGuard (ofClass cls k l)) ∧ localGuard (ofClass cls (cls e) l) e := by
        constructor
        · intro h
          refine ⟨fun k => (h k).initial ?_, ?_⟩
          · rw [ofClass_append]
            exact List.prefix_append _ _
          · have := h (cls e)
            simp only [ofClass_append] at this
            have e1 : ofClass cls (cls e) [e] = [e] := by simp [ofClass]
            rw [e1] at this
            exact (admissible_concat.mp this).2
        · rintro ⟨h1, h2⟩ k
          rw [ofClass_append]
          by_cases hk : cls e = k
          · subst hk
            have e1 : ofClass cls (cls e) [e] = [e] := by simp [ofClass]
            rw [e1]
            exact admissible_concat.mpr ⟨h1 _, h2⟩
          · have e1 : ofClass cls k [e] = [] := by simp [ofClass, hk]
            rw [e1, List.append_nil]
            exact h1 k
      rw [admissible_concat, ih hl, hd l e hs, hrel, hcls]
      tauto

/-- The interleaving of the classes does not matter. -/
theorem admissible_of_classes_eq (hd : Decomposes cls guard scope localGuard rel)
    (hsymm : ∀ x y, rel x y → rel y x) (hscope : ∀ x y, scope x y → scope y x)
    {l l' : List E} (hp : l.Perm l') (hc : ∀ k, ofClass cls k l = ofClass cls k l')
    (hs : l.Pairwise scope) (h : Admissible guard l) : Admissible guard l' := by
  have hs' : l'.Pairwise scope := (hp.pairwise_iff (fun {x y} => hscope x y)).mp hs
  obtain ⟨h1, h2⟩ := (admissible_iff_classes hd hs).mp h
  refine (admissible_iff_classes hd hs').mpr ⟨fun k => hc k ▸ h1 k, ?_⟩
  exact (hp.pairwise_iff (fun {x y} => hsymm x y)).mp h2

/-- Cutting every class down to a prefix keeps a log admissible. -/
theorem admissible_of_classes_initial (hd : Decomposes cls guard scope localGuard rel)
    {l l' : List E} (hsub : l'.Sublist l) (hc : ∀ k, ofClass cls k l' <+: ofClass cls k l)
    (hs : l.Pairwise scope) (h : Admissible guard l) : Admissible guard l' := by
  obtain ⟨h1, h2⟩ := (admissible_iff_classes hd hs).mp h
  exact (admissible_iff_classes hd (hs.sublist hsub)).mpr
    ⟨fun k => (h1 k).initial (hc k), h2.sublist hsub⟩

end classes

end QeReport.GuardedLog

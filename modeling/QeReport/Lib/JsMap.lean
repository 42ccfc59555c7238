import Mathlib.Algebra.BigOperators.Group.List.Basic
import Mathlib.Data.List.Induction
import Mathlib.Data.List.Nodup
import Mathlib.Data.List.Perm.Basic

/-! # Insertion-ordered maps

`JsMap K V` is the `Map` of JavaScript: at most one entry for a key, entries iterated in the
order in which their keys were first set.  `set` replaces the value of a key in place or
appends a new entry; `get?` is characterised by `get?_set`, and `mem_entries` says that the
iterated entries are exactly the ones `get?` finds. -/

namespace QeReport

/-- A map with entries in insertion order and one entry for a key. -/
structure JsMap (K V : Type) where
  entries : List (K × V)
  nodup : (entries.map Prod.fst).Nodup

namespace JsMap

variable {K V : Type} [DecidableEq K]

/-- The empty map. -/
def empty : JsMap K V := ⟨[], List.nodup_nil⟩

instance : Inhabited (JsMap K V) := ⟨empty⟩

/-- `map.get(k)`. -/
def get? (m : JsMap K V) (k : K) : Option V := (m.entries.find? (fun p => p.1 = k)).map Prod.snd

/-- `map.has(k)`. -/
def has (m : JsMap K V) (k : K) : Bool := (m.get? k).isSome

/-- `map.size`. -/
def size (m : JsMap K V) : ℕ := m.entries.length

/-- `map.values()`. -/
def values (m : JsMap K V) : List V := m.entries.map Prod.snd

theorem mem_entries {m : JsMap K V} {k : K} {v : V} : (k, v) ∈ m.entries ↔ m.get? k = some v := by
  obtain ⟨l, hl⟩ := m
  simp only [get?]
  induction l with
  | nil => simp
  | cons p l ih =>
      obtain ⟨k', v'⟩ := p
      simp only [List.map_cons, List.nodup_cons] at hl
      by_cases h : k' = k
      · subst h
        have hk : (k', v) ∉ l := fun hm => hl.1 (List.mem_map.mpr ⟨_, hm, rfl⟩)
        simp [hk, eq_comm]
      · have hk : (k, v) ≠ (k', v') := fun he => h (congrArg Prod.fst he).symm
        simpa [hk, h, Ne.symm h] using ih hl.2

theorem get?_eq_none {m : JsMap K V} {k : K} : m.get? k = none ↔ k ∉ m.entries.map Prod.fst := by
  simp only [get?, Option.map_eq_none_iff, List.find?_eq_none, decide_eq_true_eq, List.mem_map,
    not_exists, not_and]

theorem mem_keys {m : JsMap K V} {k : K} :
    k ∈ m.entries.map Prod.fst ↔ (m.get? k).isSome = true := by
  rw [← not_iff_not, ← get?_eq_none, Bool.not_eq_true, Option.isSome_eq_false_iff,
    Option.isNone_iff_eq_none]

/-- The entries are their keys with what is found under them. -/
theorem entries_eq_map {m : JsMap K V} {l : List (K × V)} (h : ∀ e ∈ l, e ∈ m.entries) (d : V) :
    l = (l.map Prod.fst).map (fun k => (k, (m.get? k).getD d)) := by
  rw [List.map_map]
  refine (List.map_id l).symm.trans (List.map_congr_left (fun e he => ?_))
  obtain ⟨k, v⟩ := e
  have hget := mem_entries.mp (h (k, v) he)
  simp [hget]

theorem has_iff {m : JsMap K V} {k : K} : m.has k = true ↔ ∃ v, m.get? k = some v := by
  simp [has, Option.isSome_iff_exists]

theorem mem_values {m : JsMap K V} {v : V} : v ∈ m.values ↔ ∃ k, m.get? k = some v := by
  simp only [values, List.mem_map]
  constructor
  · rintro ⟨⟨k, v'⟩, hm, rfl⟩
    exact ⟨k, mem_entries.mp hm⟩
  · rintro ⟨k, hk⟩
    exact ⟨(k, v), mem_entries.mpr hk, rfl⟩

/-- The entry list of `map.set(k, v)`. -/
def setEntries (l : List (K × V)) (k : K) (v : V) : List (K × V) :=
  if k ∈ l.map Prod.fst then l.map (fun p => if p.1 = k then (k, v) else p) else l ++ [(k, v)]

theorem map_replace_fst (l : List (K × V)) (k : K) (v : V) :
    (l.map (fun p => if p.1 = k then (k, v) else p)).map Prod.fst = l.map Prod.fst := by
  rw [List.map_map]
  apply List.map_congr_left
  intro p _
  by_cases h : p.1 = k <;> simp [h]

theorem setEntries_nodup {l : List (K × V)} (h : (l.map Prod.fst).Nodup) (k : K) (v : V) :
    ((setEntries l k v).map Prod.fst).Nodup := by
  unfold setEntries
  split_ifs with hk
  · rw [map_replace_fst]
    exact h
  · rw [List.map_append]
    exact h.append (List.nodup_singleton _) (by simpa using hk)

/-- `map.set(k, v)`. -/
def set (m : JsMap K V) (k : K) (v : V) : JsMap K V :=
  ⟨setEntries m.entries k v, setEntries_nodup m.nodup k v⟩

@[simp] theorem get?_empty (k : K) : (empty : JsMap K V).get? k = none := rfl

omit [DecidableEq K] in
@[simp] theorem size_empty : (empty : JsMap K V).size = 0 := rfl

theorem get?_set (m : JsMap K V) (k : K) (v : V) (k' : K) :
    (m.set k v).get? k' = if k' = k then some v else m.get? k' := by
  have key : ∀ w, (k', w) ∈ (m.set k v).entries ↔
      if k' = k then w = v else (k', w) ∈ m.entries := by
    intro w
    simp only [set, setEntries]
    split_ifs with h1 h2 h2
    · subst h2
      simp only [List.mem_map]
      constructor
      · rintro ⟨⟨a, b⟩, _, hab⟩
        by_cases ha : a = k'
        · simpa [ha, eq_comm] using hab
        · simp [ha] at hab
      · rintro rfl
        obtain ⟨⟨a, b⟩, hab, rfl⟩ := List.mem_map.mp h1
        exact ⟨(a, b), hab, by simp⟩
    · simp only [List.mem_map]
      constructor
      · rintro ⟨⟨a, b⟩, hab, he⟩
        by_cases ha : a = k
        · simp only [ha, if_true, Prod.mk.injEq] at he
          exact absurd he.1.symm h2
        · simp only [ha, if_false, Prod.mk.injEq] at he
          rwa [← he.1, ← he.2]
      · intro hm
        exact ⟨(k', w), hm, by simp [h2]⟩
    · subst h2
      simp only [List.mem_append, List.mem_singleton, Prod.mk.injEq, true_and]
      exact ⟨fun h => h.resolve_left (fun hm => h1 (List.mem_map.mpr ⟨_, hm, rfl⟩)), Or.inr⟩
    · simp [h2]
  apply Option.ext
  intro w
  rw [← mem_entries, key]
  split_ifs with h
  · simp [eq_comm]
  · rw [mem_entries]

@[simp] theorem get?_set_self (m : JsMap K V) (k : K) (v : V) : (m.set k v).get? k = some v := by
  rw [get?_set, if_pos rfl]

theorem get?_set_ne (m : JsMap K V) {k k' : K} (v : V) (h : k' ≠ k) :
    (m.set k v).get? k' = m.get? k' := by
  rw [get?_set, if_neg h]

theorem size_set_of_none {m : JsMap K V} {k : K} (v : V) (h : m.get? k = none) :
    (m.set k v).size = m.size + 1 := by
  simp [size, set, setEntries, get?_eq_none.mp h]

theorem size_set_of_some {m : JsMap K V} {k : K} (v : V) {w : V} (h : m.get? k = some w) :
    (m.set k v).size = m.size := by
  have hk : k ∈ m.entries.map Prod.fst := List.mem_map.mpr ⟨_, mem_entries.mpr h, rfl⟩
  simp [size, set, setEntries, hk]

theorem size_set (m : JsMap K V) (k : K) (v : V) :
    (m.set k v).size = m.size + if m.has k then 0 else 1 := by
  cases h : m.get? k with
  | none => simp [size_set_of_none v h, has, h]
  | some w => simp [size_set_of_some v h, has, h]

/-! ### Updating -/

/-- The value of a key changed in place, when it has one: `const v = map.get(k); if (v) ...`. -/
def update (m : JsMap K V) (k : K) (f : V → V) : JsMap K V :=
  match m.get? k with
  | none => m
  | some v => m.set k (f v)

theorem get?_update (m : JsMap K V) (k : K) (f : V → V) (k' : K) :
    (m.update k f).get? k' = if k' = k then (m.get? k).map f else m.get? k' := by
  unfold update
  cases h : m.get? k with
  | none =>
      split_ifs with hk
      · rw [hk, h]
        rfl
      · rfl
  | some v => rw [get?_set, Option.map_some]

theorem update_of_none {m : JsMap K V} {k : K} (f : V → V) (h : m.get? k = none) :
    m.update k f = m := by
  rw [update, h]

theorem update_of_some {m : JsMap K V} {k : K} (f : V → V) {v : V} (h : m.get? k = some v) :
    m.update k f = m.set k (f v) := by
  rw [update, h]

/-! ### Deleting -/

/-- `map.delete(k)`. -/
def erase (m : JsMap K V) (k : K) : JsMap K V :=
  ⟨m.entries.filter (fun p => p.1 ≠ k), m.nodup.sublist (List.filter_sublist.map _)⟩

theorem get?_erase (m : JsMap K V) (k k' : K) :
    (m.erase k).get? k' = if k' = k then none else m.get? k' := by
  apply Option.ext
  intro v
  have hmem : (k', v) ∈ (m.erase k).entries ↔ (k', v) ∈ m.entries ∧ k' ≠ k := by
    simp [erase]
  rw [← mem_entries, hmem, mem_entries]
  split_ifs with h
  · simp [h]
  · simp [h]

theorem values_set_of_none {m : JsMap K V} {k : K} (v : V) (h : m.get? k = none) :
    (m.set k v).values = m.values ++ [v] := by
  have hset : (m.set k v).entries = m.entries ++ [(k, v)] := if_neg (get?_eq_none.mp h)
  rw [values, hset, List.map_append]
  rfl

theorem values_erase_sublist (m : JsMap K V) (k : K) : (m.erase k).values.Sublist m.values :=
  List.filter_sublist.map _

/-- Where the values differ in `f`, an erased entry takes its own value of `f` away. -/
theorem mem_map_values_erase {α : Type} {f : V → α} {m : JsMap K V} (hf : (m.values.map f).Nodup)
    {k : K} {v : V} (h : m.get? k = some v) (x : α) :
    x ∈ (m.erase k).values.map f ↔ x ∈ m.values.map f ∧ x ≠ f v := by
  rw [values, List.map_map] at hf
  have hinj := List.inj_on_of_nodup_map hf
  have hkv := mem_entries.mpr h
  simp only [List.mem_map, mem_values, get?_erase]
  constructor
  · rintro ⟨w, ⟨k', hw⟩, rfl⟩
    split_ifs at hw with hk
    refine ⟨⟨w, ⟨k', hw⟩, rfl⟩, fun heq => hk ?_⟩
    exact (Prod.mk.inj (hinj (mem_entries.mpr hw) hkv heq)).1
  · rintro ⟨⟨w, ⟨k', hw⟩, rfl⟩, hne⟩
    refine ⟨w, ⟨k', ?_⟩, rfl⟩
    rw [if_neg, hw]
    rintro rfl
    exact hne (by rw [Option.some.inj (hw.symm.trans h)])

/-! ### Invariants -/

/-- The keys are those of `dom`, and each value satisfies `P`. -/
structure Holds (dom : K → Prop) (P : K → V → Prop) (m : JsMap K V) : Prop where
  none : ∀ k, m.get? k = none → ¬ dom k
  some : ∀ k v, m.get? k = some v → dom k ∧ P k v

section holds
variable {dom dom' : K → Prop} {P P' : K → V → Prop} {m : JsMap K V}

theorem holds_empty (h : ∀ k, ¬ dom k) : Holds dom P empty :=
  ⟨fun k _ => h k, fun k v hk => by simp at hk⟩

theorem Holds.imp (h : Holds dom P m) (hdom : ∀ k, dom' k ↔ dom k)
    (hP : ∀ k v, P k v → P' k v) : Holds dom' P' m :=
  ⟨fun k hk => (hdom k).not.mpr (h.none k hk),
    fun k v hk => ⟨(hdom k).mpr (h.some k v hk).1, hP k v (h.some k v hk).2⟩⟩

theorem Holds.set (h : Holds dom P m) {k : K} {v : V} (hdom : ∀ k', dom' k' ↔ dom k' ∨ k' = k)
    (hP : ∀ k' w, k' ≠ k → P k' w → P' k' w) (hv : P' k v) : Holds dom' P' (m.set k v) := by
  constructor
  · intro k' hk'
    rw [get?_set] at hk'
    split_ifs at hk' with hkk
    rw [hdom, not_or]
    exact ⟨h.none k' hk', hkk⟩
  · intro k' w hk'
    rw [get?_set] at hk'
    split_ifs at hk' with hkk
    · cases hk'
      rw [hkk, hdom]
      exact ⟨Or.inr rfl, hv⟩
    · obtain ⟨h1, h2⟩ := h.some k' w hk'
      exact ⟨(hdom k').mpr (Or.inl h1), hP k' w hkk h2⟩

theorem Holds.update (h : Holds dom P m) {k : K} {f : V → V} (hdom : ∀ k', dom' k' ↔ dom k')
    (hP : ∀ k' w, k' ≠ k → P k' w → P' k' w) (hf : ∀ w, dom k → P k w → P' k (f w)) :
    Holds dom' P' (m.update k f) := by
  constructor
  · intro k' hk'
    rw [get?_update] at hk'
    rw [hdom]
    split_ifs at hk' with hkk
    · rw [hkk]
      exact h.none k (Option.map_eq_none_iff.mp hk')
    · exact h.none k' hk'
  · intro k' w hk'
    rw [get?_update] at hk'
    rw [hdom]
    split_ifs at hk' with hkk
    · obtain ⟨w', hw', rfl⟩ := Option.map_eq_some_iff.mp hk'
      obtain ⟨h1, h2⟩ := h.some k w' hw'
      rw [hkk]
      exact ⟨h1, hf w' h1 h2⟩
    · obtain ⟨h1, h2⟩ := h.some k' w hk'
      exact ⟨h1, hP k' w hkk h2⟩

end holds

/-! ### Rewriting every value -/

/-- Setting each key of a list to what its value becomes, as long as nothing fails. -/
theorem get?_foldlM_set {ε W : Type} {f : W → Except ε V} {l : List (K × W)}
    (hnodup : (l.map Prod.fst).Nodup) {m m' : JsMap K V}
    (h : l.foldlM (fun m e => do return m.set e.1 (← f e.2)) m = .ok m') (k : K) :
    (∀ w, (k, w) ∈ l → ∃ v, f w = .ok v ∧ m'.get? k = some v) ∧
      (k ∉ l.map Prod.fst → m'.get? k = m.get? k) := by
  induction l generalizing m with
  | nil =>
      cases h
      exact ⟨nofun, fun _ => rfl⟩
  | cons e l ih =>
      obtain ⟨k', w'⟩ := e
      rw [List.map_cons, List.nodup_cons] at hnodup
      rw [List.foldlM_cons] at h
      cases hf : f w' with
      | error err =>
          simp only [hf] at h
          cases h
      | ok v' =>
          simp only [hf] at h
          obtain ⟨hmem, hrest⟩ := ih hnodup.2 h
          constructor
          · intro w hw
            rcases List.mem_cons.mp hw with hw | hw
            · obtain ⟨rfl, rfl⟩ := Prod.mk.inj hw
              exact ⟨v', hf, (hrest hnodup.1).trans (get?_set_self m k v')⟩
            · exact hmem w hw
          · intro hk
            rw [List.map_cons, List.mem_cons, not_or] at hk
            rw [hrest hk.2]
            exact get?_set_ne m v' hk.1

/-! ### Totals -/

/-- Setting a key that is there replaces its entry where it stands. -/
theorem entries_set_of_some {m : JsMap K V} {k : K} {w : V} (h : m.get? k = some w) :
    ∃ l r, m.entries = l ++ (k, w) :: r ∧ ∀ v, (m.set k v).entries = l ++ (k, v) :: r := by
  obtain ⟨l, r, hlr⟩ := List.append_of_mem (mem_entries.mpr h)
  have hnodup := m.nodup
  rw [hlr, List.map_append, List.map_cons, List.nodup_append, List.nodup_cons] at hnodup
  have hl : ∀ p ∈ l, p.1 ≠ k := fun p hp =>
    hnodup.2.2 p.1 (List.mem_map_of_mem hp) k List.mem_cons_self
  have hr : ∀ p ∈ r, p.1 ≠ k := fun p hp hk =>
    hnodup.2.1.1 (List.mem_map.mpr ⟨p, hp, hk⟩)
  refine ⟨l, r, hlr, fun v => ?_⟩
  have hkeep : ∀ q : List (K × V), (∀ p ∈ q, p.1 ≠ k) →
      q.map (fun p => if p.1 = k then (k, v) else p) = q := by
    intro q hq
    conv_rhs => rw [← List.map_id q]
    exact List.map_congr_left (fun p hp => if_neg (hq p hp))
  have hmem : k ∈ m.entries.map Prod.fst := List.mem_map.mpr ⟨_, mem_entries.mpr h, rfl⟩
  simp only [set, setEntries, if_pos hmem]
  rw [hlr, List.map_append, List.map_cons, hkeep l hl, hkeep r hr, if_pos rfl]

section total
variable {M : Type} [AddCommMonoid M] (f : V → M) {m : JsMap K V} {k : K}

omit [DecidableEq K] in
/-- The sum of a quantity over the values. -/
def total (m : JsMap K V) : M := (m.values.map f).sum

theorem total_set_of_none (v : V) (h : m.get? k = none) :
    (m.set k v).total f = m.total f + f v := by
  simp [total, values, set, setEntries, get?_eq_none.mp h]

/-- What a change adds to one value it adds to the total. -/
theorem total_update {g : V → V} {w : V} {d : M} (h : m.get? k = some w) (hd : f (g w) = f w + d) :
    (m.update k g).total f = m.total f + d := by
  obtain ⟨l, r, hm, hset⟩ := entries_set_of_some h
  rw [update_of_some g h, total, total, values, values, hset, hm]
  simp only [List.map_append, List.map_cons, List.sum_append, List.sum_cons, hd]
  ac_rfl

theorem total_update_same {g : V → V} (hg : ∀ v, f (g v) = f v) :
    (m.update k g).total f = m.total f := by
  cases h : m.get? k with
  | none => rw [update_of_none g h]
  | some w => rw [total_update f h ((hg w).trans (add_zero _).symm), add_zero]

end total

/-! ### Grouping -/

section group
variable {α : Type} (key : α → K) (val : α → V)

/-- One turn of grouping: the value goes to the end of the list of its key. -/
def push (m : JsMap K (List V)) (a : α) : JsMap K (List V) :=
  match m.get? (key a) with
  | none => m.set (key a) [val a]
  | some vs => m.set (key a) (vs ++ [val a])

/-- The values of each key, in the order of the list. -/
def groupBy (l : List α) : JsMap K (List V) := l.foldl (push key val) empty

theorem get?_groupBy (l : List α) (k : K) :
    (groupBy key val l).get? k =
      if k ∈ l.map key then some ((l.filter (fun a => key a = k)).map val) else none := by
  induction l using List.reverseRecOn with
  | nil => rfl
  | append_singleton l a ih =>
      have hstep : groupBy key val (l ++ [a]) = push key val (groupBy key val l) a := by
        simp [groupBy]
      rw [hstep, push]
      by_cases hk : k = key a
      · subst hk
        have hlast : key a ∈ (l ++ [a]).map key := by simp
        rw [if_pos hlast, ih]
        by_cases hmem : key a ∈ l.map key
        · simp [hmem, List.filter_append]
        · have hnil : l.filter (fun x => key x = key a) = [] := by
            rw [List.filter_eq_nil_iff]
            intro x hx heq
            exact hmem (List.mem_map.mpr ⟨x, hx, by simpa using heq⟩)
          simp [hmem, List.filter_append, hnil]
      · have hother : ∀ vs, ((groupBy key val l).set (key a) vs).get? k =
            (groupBy key val l).get? k := fun vs => get?_set_ne _ vs hk
        have hfilter : (l ++ [a]).filter (fun x => key x = k) = l.filter (fun x => key x = k) := by
          simp [List.filter_append, Ne.symm hk]
        rw [hfilter]
        split <;> rw [hother, ih] <;> simp [hk]

/-- Grouping keeps totals. -/
theorem total_groupBy {M : Type} [AddCommMonoid M] (f : V → M) (l : List α) :
    (groupBy key val l).total (fun vs => (vs.map f).sum) = (l.map (fun a => f (val a))).sum := by
  induction l using List.reverseRecOn with
  | nil => rfl
  | append_singleton l a ih =>
      have hstep : groupBy key val (l ++ [a]) = push key val (groupBy key val l) a := by
        simp [groupBy]
      rw [hstep, List.map_append, List.sum_append, ← ih, push]
      cases h : (groupBy key val l).get? (key a) with
      | none => simp [total_set_of_none _ _ h]
      | some vs =>
          have hadd := total_update (g := fun vs => vs ++ [val a]) (fun vs => (vs.map f).sum) h
            (d := f (val a)) (by simp)
          simpa [update_of_some _ h] using hadd

end group

end JsMap

end QeReport

import Mathlib.Data.List.Induction
import Mathlib.Data.List.Nodup
import Mathlib.Data.List.Perm.Basic
import QeReport.Lib.GuardedLog

/-! # First occurrences

`fresh ident l` keeps the first element of `l` for each identity, in the order of `l`;
`freshAfter ident seen l` does so for the part `l` of a list that starts with `seen`. -/

namespace QeReport

variable {α K : Type} [DecidableEq K] (ident : α → K)

/-- The elements of `l` whose identity occurs neither in `seen` nor before them. -/
def freshAfter : List α → List α → List α
  | _, [] => []
  | seen, x :: l =>
      if ∃ y ∈ seen, ident y = ident x then freshAfter (seen ++ [x]) l
      else x :: freshAfter (seen ++ [x]) l

/-- The first element for each identity. -/
def fresh (l : List α) : List α := freshAfter ident [] l

variable {ident}

theorem freshAfter_append (seen a b : List α) :
    freshAfter ident seen (a ++ b) = freshAfter ident seen a ++ freshAfter ident (seen ++ a) b := by
  induction a generalizing seen with
  | nil => simp [freshAfter]
  | cons x a ih =>
      rw [List.cons_append, freshAfter, freshAfter, ih]
      split_ifs <;> simp

theorem fresh_append (a b : List α) : fresh ident (a ++ b) = fresh ident a ++ freshAfter ident a b := by
  rw [fresh, freshAfter_append, List.nil_append, fresh]

theorem freshAfter_sublist (seen l : List α) : (freshAfter ident seen l).Sublist l := by
  induction l generalizing seen with
  | nil => exact List.Sublist.slnil
  | cons x l ih =>
      rw [freshAfter]
      split_ifs
      · exact (ih _).cons x
      · exact (ih _).cons_cons x

theorem fresh_sublist (l : List α) : (fresh ident l).Sublist l := freshAfter_sublist [] l

/-- An element is fresh when its identity is new. -/
theorem freshAfter_singleton (seen : List α) (x : α) :
    freshAfter ident seen [x] = if ∃ y ∈ seen, ident y = ident x then [] else [x] := by
  rw [freshAfter]
  split_ifs <;> rfl

theorem exists_fresh {l : List α} {x : α} (hx : x ∈ l) : ∃ y ∈ fresh ident l, ident y = ident x := by
  induction l using List.reverseRecOn generalizing x with
  | nil => simp at hx
  | append_singleton l z ih =>
      rw [fresh_append, freshAfter_singleton]
      rcases List.mem_append.mp hx with hx | hx
      · obtain ⟨y, hy, hyx⟩ := ih hx
        exact ⟨y, List.mem_append_left _ hy, hyx⟩
      · rw [List.mem_singleton] at hx
        subst hx
        split_ifs with h
        · obtain ⟨y, hy, hyx⟩ := h
          obtain ⟨w, hw, hwy⟩ := ih hy
          exact ⟨w, List.mem_append_left _ hw, hwy.trans hyx⟩
        · exact ⟨x, by simp, rfl⟩

/-- An identity is fresh once. -/
theorem fresh_nodup (l : List α) : ((fresh ident l).map ident).Nodup := by
  induction l using List.reverseRecOn with
  | nil => simp [fresh, freshAfter]
  | append_singleton l z ih =>
      rw [fresh_append, freshAfter_singleton]
      split_ifs with h
      · simpa using ih
      · rw [List.map_append]
        refine ih.append (List.nodup_singleton _) ?_
        simp only [List.disjoint_left, List.mem_map, List.map_cons, List.map_nil, List.mem_singleton]
        rintro k ⟨y, hy, rfl⟩ hyz
        exact h ⟨y, (fresh_sublist l).subset hy, hyz⟩

/-- What was seen does not matter when it shares no identity. -/
theorem freshAfter_of_disjoint {seen l : List α}
    (h : ∀ x ∈ seen, ∀ y ∈ l, ident x ≠ ident y) : freshAfter ident seen l = fresh ident l := by
  have key : ∀ (l seen seen' : List α),
      (∀ y ∈ l, (∃ x ∈ seen, ident x = ident y) ↔ ∃ x ∈ seen', ident x = ident y) →
      freshAfter ident seen l = freshAfter ident seen' l := by
    intro l
    induction l with
    | nil =>
        intro seen seen' _
        rfl
    | cons z l ih =>
        intro seen seen' hs
        have hz := hs z List.mem_cons_self
        have hrest : ∀ y ∈ l, (∃ x ∈ seen ++ [z], ident x = ident y) ↔
            ∃ x ∈ seen' ++ [z], ident x = ident y := by
          intro y hy
          simp only [List.mem_append, List.mem_singleton, or_and_right, exists_or, exists_eq_left,
            hs y (List.mem_cons_of_mem _ hy)]
        rw [freshAfter, freshAfter, ih _ _ hrest]
        simp only [hz]
  refine key l seen [] (fun y hy => iff_of_false ?_ (by simp))
  rintro ⟨x, hx, hxy⟩
  exact h x hx y hy hxy

/-- A selection by identity keeps the fresh elements. -/
theorem filter_fresh {p : α → Bool} {l : List α}
    (hp : ∀ x ∈ l, ∀ y ∈ l, ident x = ident y → p x = p y) :
    (fresh ident l).filter p = fresh ident (l.filter p) := by
  induction l using List.reverseRecOn with
  | nil => rfl
  | append_singleton l z ih =>
      have ih' := ih (fun x hx y hy => hp x (List.mem_append_left _ hx) y (List.mem_append_left _ hy))
      rw [fresh_append, List.filter_append, ih', List.filter_append, fresh_append]
      congr 1
      by_cases hz : p z = true
      · have hiff : (∃ y ∈ l.filter p, ident y = ident z) ↔ ∃ y ∈ l, ident y = ident z := by
          constructor
          · rintro ⟨y, hy, hyz⟩
            exact ⟨y, List.mem_of_mem_filter hy, hyz⟩
          · rintro ⟨y, hy, hyz⟩
            refine ⟨y, List.mem_filter.mpr ⟨hy, ?_⟩, hyz⟩
            rw [hp y (List.mem_append_left _ hy) z (by simp) hyz, hz]
        rw [List.filter_cons_of_pos hz, List.filter_nil, freshAfter_singleton, freshAfter_singleton]
        simp only [hiff]
        split_ifs
        · rfl
        · simp [hz]
      · rw [List.filter_cons_of_neg hz, List.filter_nil, freshAfter_singleton]
        split_ifs
        · rfl
        · simp [freshAfter, hz]

/-- A map that keeps identities keeps what is fresh. -/
theorem map_freshAfter {β : Type} {ident' : β → K} {f : α → β} (h : ∀ x, ident' (f x) = ident x)
    (seen l : List α) :
    (freshAfter ident seen l).map f = freshAfter ident' (seen.map f) (l.map f) := by
  induction l generalizing seen with
  | nil => rfl
  | cons x l ih =>
      have hseen : (∃ y ∈ seen.map f, ident' y = ident' (f x)) ↔ ∃ y ∈ seen, ident y = ident x := by
        simp [h]
      rw [List.map_cons, freshAfter, freshAfter]
      simp only [hseen]
      split_ifs <;> simp [ih]

theorem map_fresh {β : Type} {ident' : β → K} {f : α → β} (h : ∀ x, ident' (f x) = ident x)
    (l : List α) : (fresh ident l).map f = fresh ident' (l.map f) := map_freshAfter h [] l

/-- Lists in which the elements of each identity stand in the same order have the same fresh
elements, and in the same order if that is given by a relation. -/
theorem fresh_eq_of_classes {l l' : List α} {r : α → α → Prop}
    (h : ∀ i, GuardedLog.ofClass ident i l' = GuardedLog.ofClass ident i l)
    (hl : (fresh ident l).Pairwise r) (hl' : (fresh ident l').Pairwise r)
    (hanti : ∀ a ∈ fresh ident l, ∀ b ∈ fresh ident l, r a b → r b a → a = b) :
    fresh ident l' = fresh ident l := by
  have hclass : ∀ (m : List α) (i : K), GuardedLog.ofClass ident i (fresh ident m) =
      fresh ident (GuardedLog.ofClass ident i m) := by
    intro m i
    exact filter_fresh (fun x _ y _ hxy => by rw [hxy])
  have hperm : (fresh ident l').Perm (fresh ident l) :=
    GuardedLog.perm_of_classes (fun i => by rw [hclass, hclass, h i])
  exact hperm.eq_of_pairwise
    (fun a b ha hb hab hba => hanti a (hperm.mem_iff.mp ha) b hb hab hba) hl' hl

/-! ### Lists related one by one -/

theorem mem_of_forall₂ {α β : Type} {R : α → β → Prop} {as : List α} {bs : List β}
    (h : List.Forall₂ R as bs) {b : β} (hb : b ∈ bs) : ∃ a ∈ as, R a b := by
  induction h with
  | nil => cases hb
  | cons hab _ ih =>
      rcases List.mem_cons.mp hb with rfl | hb
      · exact ⟨_, List.mem_cons_self, hab⟩
      · obtain ⟨a, ha, hr⟩ := ih hb
        exact ⟨a, List.mem_cons_of_mem _ ha, hr⟩

theorem exists_of_forall₂ {α β : Type} {R : α → β → Prop} {as : List α} {bs : List β}
    (h : List.Forall₂ R as bs) {a : α} (ha : a ∈ as) : ∃ b ∈ bs, R a b :=
  mem_of_forall₂ h.flip ha

end QeReport

import Mathlib.Data.List.Basic
import Mathlib.Data.Nat.Init

/-! # Forests by their parents

A forest is given by a partial parent function and a rank that falls along it.  `ancestors` lists
the vertices above one, the nearest first; two vertices above or at one vertex are comparable. -/

namespace QeReport

/-- A forest: every vertex has at most one parent, of smaller rank. -/
structure Forest (α : Type) where
  parent : α → Option α
  rank : α → ℕ
  rank_lt : ∀ a b, parent a = some b → rank b < rank a

namespace Forest
variable {α : Type} (F : Forest α)

/-- At most `n` vertices above a vertex. -/
def ancestorsWithin : ℕ → α → List α
  | 0, _ => []
  | n + 1, a =>
      match F.parent a with
      | none => []
      | some b => b :: ancestorsWithin n b

/-- The vertices above a vertex, the nearest first. -/
def ancestors (a : α) : List α := F.ancestorsWithin (F.rank a) a

/-- A vertex and the vertices above it. -/
def lineage (a : α) : List α := a :: F.ancestors a

variable {F} {a b c : α}

theorem ancestorsWithin_of_le {n : ℕ} (h : F.rank a ≤ n) :
    F.ancestorsWithin n a = F.ancestors a := by
  have hall : ∀ (m n : ℕ) (a : α), F.rank a ≤ m → F.rank a ≤ n →
      F.ancestorsWithin m a = F.ancestorsWithin n a := by
    intro m
    induction m with
    | zero =>
        intro n a hm _
        cases n with
        | zero => rfl
        | succ n =>
            cases hp : F.parent a with
            | none => simp [ancestorsWithin, hp]
            | some b =>
                have := F.rank_lt a b hp
                omega
    | succ m ih =>
        intro n a hm hn
        cases hp : F.parent a with
        | none => cases n <;> simp [ancestorsWithin, hp]
        | some b =>
            have hlt := F.rank_lt a b hp
            cases n with
            | zero => omega
            | succ n =>
                simp only [ancestorsWithin, hp]
                rw [ih n b (by omega) (by omega)]
  exact hall n (F.rank a) a h (Nat.le_refl _)

theorem ancestors_of_root (h : F.parent a = none) : F.ancestors a = [] := by
  rw [ancestors]
  cases F.rank a <;> simp [ancestorsWithin, h]

theorem ancestors_of_parent (h : F.parent a = some b) : F.ancestors a = F.lineage b := by
  have hlt := F.rank_lt a b h
  obtain ⟨n, hn⟩ : ∃ n, F.rank a = n + 1 := ⟨F.rank a - 1, by omega⟩
  rw [ancestors, hn]
  simp only [ancestorsWithin, h]
  rw [ancestorsWithin_of_le (by omega), lineage]

theorem mem_lineage : b ∈ F.lineage a ↔ b = a ∨ b ∈ F.ancestors a := List.mem_cons

theorem mem_lineage_self : a ∈ F.lineage a := List.mem_cons_self

/-- A vertex above another is at or above its parent. -/
theorem mem_ancestors : b ∈ F.ancestors a ↔ ∃ p, F.parent a = some p ∧ b ∈ F.lineage p := by
  cases hp : F.parent a with
  | none => simp [ancestors_of_root hp]
  | some p => simp [ancestors_of_parent hp]

/-- Along the parents: what holds of a vertex when it holds of its parent holds of all. -/
theorem parent_induction {P : α → Prop} (h : ∀ a, (∀ p, F.parent a = some p → P p) → P a) (a : α) :
    P a := by
  induction hr : F.rank a using Nat.strongRecOn generalizing a with
  | _ n ih =>
      subst hr
      exact h a (fun p hp => ih (F.rank p) (F.rank_lt a p hp) p rfl)

theorem rank_lt_of_mem (h : b ∈ F.ancestors a) : F.rank b < F.rank a := by
  induction a using F.parent_induction with
  | h a ih =>
      obtain ⟨p, hp, hb⟩ := mem_ancestors.mp h
      have hlt := F.rank_lt a p hp
      rcases mem_lineage.mp hb with rfl | hb
      · exact hlt
      · exact Nat.lt_trans (ih p hp hb) hlt

theorem not_mem_ancestors_self : a ∉ F.ancestors a := fun h => Nat.lt_irrefl _ (rank_lt_of_mem h)

theorem ancestors_trans (hab : b ∈ F.ancestors a) (hbc : c ∈ F.ancestors b) : c ∈ F.ancestors a := by
  induction a using F.parent_induction with
  | h a ih =>
      obtain ⟨p, hp, hb⟩ := mem_ancestors.mp hab
      refine mem_ancestors.mpr ⟨p, hp, mem_lineage.mpr (Or.inr ?_)⟩
      rcases mem_lineage.mp hb with rfl | hb
      · exact hbc
      · exact ih p hp hb

/-- The lineage of a vertex above another ends the list of the vertices above it. -/
theorem lineage_suffix (h : b ∈ F.ancestors a) : F.lineage b <:+ F.ancestors a := by
  induction a using F.parent_induction with
  | h a ih =>
      obtain ⟨p, hp, hb⟩ := mem_ancestors.mp h
      rw [ancestors_of_parent hp]
      rcases mem_lineage.mp hb with rfl | hb
      · apply List.suffix_refl
      · exact (ih p hp hb).trans (List.suffix_cons p _)

/-- Two vertices at or above a vertex are comparable. -/
theorem lineage_comparable (hb : b ∈ F.lineage a) (hc : c ∈ F.lineage a) :
    c ∈ F.lineage b ∨ b ∈ F.ancestors c := by
  induction a using F.parent_induction with
  | h a ih =>
      rcases mem_lineage.mp hb with rfl | hb
      · exact Or.inl hc
      · rcases mem_lineage.mp hc with rfl | hc
        · exact Or.inr hb
        · obtain ⟨p, hp, hbp⟩ := mem_ancestors.mp hb
          rw [ancestors_of_parent hp] at hc
          exact ih p hp hbp hc

end Forest

end QeReport

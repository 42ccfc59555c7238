import Mathlib.Logic.Relation

/-! # Rows that transactions hold

A table of rows under keys, as a database keeps it for transactions that read what is committed.
A transaction takes a key that no other one holds, by locking its row or by inserting one, and
leaves a row under it that only the transaction itself sees; with its end this row becomes the
committed one, or it is forgotten.  `Access p` is all that a transaction `p` can do to a key in
one statement.

What follows from it: nobody else changes a key that is held (`Access.keeps`), and the committed
row of a key changes only from a row that its holder has left there (`Access.committed_cases`),
so that a relation every holder keeps between the two is kept by any number of transactions
(`grows`).  Keys that are only inserted never leave the sight of a transaction that has seen them
(`Slot.InsertOnly`). -/

namespace QeReport.Slots

/-- The committed row of a key, and the row as the transaction that holds the key leaves it. -/
structure Slot (π ρ : Type) where
  committed : Option ρ
  held : Option (π × Option ρ)

abbrev Table (π κ ρ : Type) := κ → Slot π ρ

variable {π κ ρ : Type}

namespace Slot

def HeldBy (p : π) (s : Slot π ρ) : Prop := ∃ row, s.held = some (p, row)

/-- No transaction but `p` holds the key. -/
def FreeFor (p : π) (s : Slot π ρ) : Prop := ∀ q row, s.held = some (q, row) → q = p

/-- The transaction leaves a row under a key that it holds or takes. -/
def leave (p : π) (row : Option ρ) (s : Slot π ρ) : Slot π ρ := ⟨s.committed, some (p, row)⟩

@[simp] theorem leave_committed (p : π) (row : Option ρ) (s : Slot π ρ) :
    (s.leave p row).committed = s.committed := rfl

@[simp] theorem leave_held (p : π) (row : Option ρ) (s : Slot π ρ) :
    (s.leave p row).held = some (p, row) := rfl

variable [DecidableEq π]

/-- The row a statement of the transaction sees. -/
def seenBy (p : π) (s : Slot π ρ) : Option ρ :=
  match s.held with
  | some (q, row) => if q = p then row else s.committed
  | none => s.committed

/-- The end of the transaction, with a commit or without. -/
def finish (p : π) (commit : Bool) (s : Slot π ρ) : Slot π ρ :=
  match s.held with
  | some (q, row) => if q = p then ⟨if commit then row else s.committed, none⟩ else s
  | none => s

theorem seenBy_of_held {p : π} {row : Option ρ} {s : Slot π ρ} (h : s.held = some (p, row)) :
    s.seenBy p = row := by
  rw [seenBy, h]
  exact if_pos rfl

theorem seenBy_of_not_held {p : π} {s : Slot π ρ} (h : ¬ s.HeldBy p) :
    s.seenBy p = s.committed := by
  rw [seenBy]
  cases hs : s.held with
  | none => rfl
  | some holder =>
      have hne : holder.1 ≠ p := fun heq => h ⟨holder.2, by rw [hs, ← heq]⟩
      exact if_neg hne

theorem finish_of_held {p : π} {row : Option ρ} {s : Slot π ρ} (commit : Bool)
    (h : s.held = some (p, row)) :
    s.finish p commit = ⟨if commit then row else s.committed, none⟩ := by
  rw [finish, h]
  exact if_pos rfl

theorem finish_of_not_held {p : π} {s : Slot π ρ} (commit : Bool) (h : ¬ s.HeldBy p) :
    s.finish p commit = s := by
  rw [finish]
  cases hs : s.held with
  | none => rfl
  | some holder =>
      have hne : holder.1 ≠ p := fun heq => h ⟨holder.2, by rw [hs, ← heq]⟩
      exact if_neg hne

theorem finish_not_held (p : π) (commit : Bool) (s : Slot π ρ) : ¬ (s.finish p commit).HeldBy p := by
  by_cases h : s.HeldBy p
  · obtain ⟨row, hrow⟩ := h
    rw [finish_of_held commit hrow]
    rintro ⟨_, hnone⟩
    cases hnone
  · rwa [finish_of_not_held commit h]

/-- A key that no other transaction holds is free when the transaction ends. -/
theorem finish_held_of_free {p : π} {s : Slot π ρ} (commit : Bool) (h : FreeFor p s) :
    (s.finish p commit).held = none := by
  cases hheld : (s.finish p commit).held with
  | none => rfl
  | some holder =>
      have hnot := finish_not_held p commit s
      by_cases hs : s.HeldBy p
      · obtain ⟨row, hrow⟩ := hs
        rw [finish_of_held commit hrow] at hheld
        cases hheld
      · rw [finish_of_not_held commit hs] at hheld
        exact absurd ⟨holder.2, by rw [hheld, ← h holder.1 holder.2 hheld]⟩ hs

theorem rollback_committed (p : π) (s : Slot π ρ) : (s.finish p false).committed = s.committed := by
  by_cases h : s.HeldBy p
  · obtain ⟨row, hrow⟩ := h
    rw [finish_of_held false hrow]
    rfl
  · rw [finish_of_not_held false h]

end Slot

open Slot

/-! ### Statements -/

variable [DecidableEq π]

/-- What one statement of the transaction `p` does to a key. -/
inductive Access (p : π) (s : Slot π ρ) : Slot π ρ → Prop where
  | still : Access p s s
  | leaves (row : Option ρ) : s.FreeFor p → Access p s (s.leave p row)
  | finishes (commit : Bool) : Access p s (s.finish p commit)

section access
variable {p q : π} {s s' : Slot π ρ}

/-- Nobody changes a key that another transaction holds. -/
theorem Access.keeps (h : Access p s s') (hheld : s.HeldBy q) (hne : q ≠ p) : s' = s := by
  obtain ⟨row, hrow⟩ := hheld
  have hnot : ¬ s.HeldBy p := by
    rintro ⟨_, hp⟩
    rw [hrow] at hp
    exact hne (congrArg Prod.fst (Option.some.inj hp))
  cases h with
  | still => rfl
  | leaves _ hfree => exact absurd (hfree q row hrow) hne
  | finishes commit => exact finish_of_not_held commit hnot

/-- A key that another transaction holds after the statement was held by it before. -/
theorem Access.held (h : Access p s s') {row : Option ρ} (hheld : s'.held = some (q, row))
    (hne : q ≠ p) : s.held = some (q, row) := by
  cases h with
  | still => exact hheld
  | leaves _ hfree =>
      rw [leave_held] at hheld
      exact absurd (congrArg Prod.fst (Option.some.inj hheld)).symm hne
  | finishes commit =>
      by_cases hp : s.HeldBy p
      · obtain ⟨_, hp⟩ := hp
        rw [finish_of_held commit hp] at hheld
        cases hheld
      · rwa [finish_of_not_held commit hp] at hheld

/-- The committed row changes only into the one that the transaction has left. -/
theorem Access.committed_cases (h : Access p s s') : s'.committed = s.committed ∨
    ∃ row, s.held = some (p, row) ∧ s' = ⟨row, none⟩ := by
  cases h with
  | still => exact .inl rfl
  | leaves row hfree => exact .inl rfl
  | finishes commit =>
      by_cases hp : s.HeldBy p
      · obtain ⟨row, hrow⟩ := hp
        rw [finish_of_held commit hrow]
        cases commit with
        | false => exact .inl rfl
        | true => exact .inr ⟨row, hrow, rfl⟩
      · exact .inl (by rw [finish_of_not_held commit hp])

/-- What every holder keeps between the committed row and its own holds of what is committed. -/
theorem grows {R : Option ρ → Option ρ → Prop} (hrefl : ∀ c, R c c) (h : Access p s s')
    (hheld : ∀ row, s.held = some (p, row) → R s.committed row) : R s.committed s'.committed := by
  rcases h.committed_cases with heq | ⟨row, hrow, rfl⟩
  · rw [heq]
    exact hrefl _
  · exact hheld row hrow

end access

/-! ### Rows anywhere -/

/-- The row is committed, or its holder has left it. -/
def Slot.Has (row : ρ) (s : Slot π ρ) : Prop :=
  s.committed = some row ∨ ∃ q, s.held = some (q, some row)

section rows
variable {p : π} {row : ρ} {s : Slot π ρ}

omit [DecidableEq π] in
theorem Slot.Has.of_leave {row' : Option ρ} (h : (s.leave p row').Has row) :
    s.Has row ∨ row' = some row := by
  rcases h with hcommitted | ⟨q, hheld⟩
  · exact .inl (.inl hcommitted)
  · rw [leave_held] at hheld
    exact .inr (congrArg Prod.snd (Option.some.inj hheld))

theorem Slot.Has.of_finish {commit : Bool} (h : (s.finish p commit).Has row) : s.Has row := by
  by_cases hp : s.HeldBy p
  · obtain ⟨row', hrow'⟩ := hp
    rw [finish_of_held commit hrow'] at h
    rcases h with hcommitted | ⟨q, hheld⟩
    · cases commit with
      | false => exact .inl hcommitted
      | true => exact .inr ⟨p, hrow'.trans (congrArg (fun r => some (p, r)) hcommitted)⟩
    · cases hheld
  · rwa [finish_of_not_held commit hp] at h

theorem Slot.has_of_seenBy (h : s.seenBy p = some row) : s.Has row := by
  by_cases hp : s.HeldBy p
  · obtain ⟨row', hrow'⟩ := hp
    rw [seenBy_of_held hrow'] at h
    exact .inr ⟨p, by rw [hrow', h]⟩
  · rw [seenBy_of_not_held hp] at h
    exact .inl h

end rows

/-! ### Rows that are only inserted -/

/-- What is held is a row where none is committed. -/
def Slot.InsertOnly (s : Slot π ρ) : Prop :=
  ∀ q row, s.held = some (q, row) → s.committed = none ∧ row ≠ none

namespace Slot.InsertOnly
variable {p q : π} {row : ρ} {s : Slot π ρ}

omit [DecidableEq π] in
theorem leave (hnone : s.committed = none) (p : π) (row : ρ) :
    (s.leave p (some row)).InsertOnly := by
  intro q row' hrow
  rw [leave_held] at hrow
  obtain rfl : some row = row' := congrArg Prod.snd (Option.some.inj hrow)
  exact ⟨hnone, Option.some_ne_none row⟩

theorem finish (h : s.InsertOnly) (p : π) (commit : Bool) : (s.finish p commit).InsertOnly := by
  by_cases hp : s.HeldBy p
  · obtain ⟨row, hrow⟩ := hp
    rw [finish_of_held commit hrow]
    intro q row' hnone
    cases hnone
  · rwa [finish_of_not_held commit hp]

/-- What is committed is seen by every transaction. -/
theorem seenBy_of_committed (h : s.InsertOnly) (hrow : s.committed = some row) (q : π) :
    s.seenBy q = some row := by
  rw [seenBy_of_not_held, hrow]
  rintro ⟨_, hheld⟩
  rw [(h _ _ hheld).1] at hrow
  cases hrow

/-- A row that a transaction sees is committed with the transaction, or held by it. -/
theorem committed_finish (hseen : s.seenBy p = some row) :
    (s.finish p true).committed = some row := by
  by_cases hp : s.HeldBy p
  · obtain ⟨row', hrow'⟩ := hp
    rw [seenBy_of_held hrow'] at hseen
    rw [finish_of_held true hrow', hseen]
    rfl
  · rw [seenBy_of_not_held hp] at hseen
    rwa [finish_of_not_held true hp]

/-- An insert takes no row from the sight of any transaction. -/
theorem seenBy_leave (h : s.InsertOnly) (hfree : s.FreeFor p) (hnone : s.seenBy p = none)
    (hseen : s.seenBy q = some row) (row' : Option ρ) : (s.leave p row').seenBy q = some row := by
  by_cases hq : s.HeldBy q
  · obtain ⟨held, hheld⟩ := hq
    obtain rfl := hfree q held hheld
    rw [hnone] at hseen
    cases hseen
  · rw [seenBy_of_not_held hq] at hseen
    rw [h.seenBy_of_committed hseen] at hnone
    cases hnone

theorem seenBy_finish (h : s.InsertOnly) (hne : q ≠ p) (hseen : s.seenBy q = some row)
    (commit : Bool) : (s.finish p commit).seenBy q = some row := by
  by_cases hp : s.HeldBy p
  · obtain ⟨held, hheld⟩ := hp
    have hq : ¬ s.HeldBy q := by
      rintro ⟨_, hq⟩
      rw [hheld] at hq
      exact hne (congrArg Prod.fst (Option.some.inj hq)).symm
    rw [seenBy_of_not_held hq, (h _ _ hheld).1] at hseen
    cases hseen
  · rwa [finish_of_not_held commit hp]

theorem committed_finish_of_committed (h : s.InsertOnly) (hrow : s.committed = some row) (commit : Bool) :
    (s.finish p commit).committed = some row := by
  by_cases hp : s.HeldBy p
  · obtain ⟨held, hheld⟩ := hp
    rw [(h _ _ hheld).1] at hrow
    cases hrow
  · rwa [finish_of_not_held commit hp]

end Slot.InsertOnly

end QeReport.Slots

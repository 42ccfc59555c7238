import QeReport.Lib.JsonReading

/-! # The canonical text loop

`canonical` writes the canonical text of a value with an explicit stack instead of recursion.
A frame keeps what is left of an array or an object and how many entries it has opened; the
frame of an object holds its entries in the order of their keys, which are distinct, so that
taking the next entry is reading the next key and its value.  `canonical_eq` says that the loop
computes `canonText`. -/

namespace QeReport

/-- A frame of the stack. -/
inductive Frame where
  | array (items : List Json) (index : ℕ)
  | object (entries : List (Text × Json)) (index : ℕ)

/-- The text written so far and the stack. -/
abbrev CanonState := Text × List Frame

/-- `open(value)`. -/
def openValue (value : Json) (out : Text) (stack : List Frame) : CanonState :=
  match value with
  | .arr items => (out ++ [unit '['], .array items 0 :: stack)
  | .obj members => (out ++ [unit '\x7b'], .object (sortBy compareKeys members) 0 :: stack)
  | primitive => (out ++ stringify primitive, stack)

/-- A comma before every entry but the first. -/
def comma (index : ℕ) : Text := if index > 0 then [unit ','] else []

/-- One pass through the body of the loop. -/
def canonicalStep : CanonState → CanonState
  | (out, []) => (out, [])
  | (out, .array [] _ :: stack) => (out ++ [unit ']'], stack)
  | (out, .array (v :: items) index :: stack) =>
      openValue v (out ++ comma index) (.array items (index + 1) :: stack)
  | (out, .object [] _ :: stack) => (out ++ [unit '\x7d'], stack)
  | (out, .object ((k, v) :: entries) index :: stack) =>
      openValue v (out ++ comma index ++ quote k ++ [unit ':'])
        (.object entries (index + 1) :: stack)

def canonicalLoop : ℕ → CanonState → CanonState
  | 0, s => s
  | n + 1, s => canonicalLoop n (canonicalStep s)

mutual

/-- How often the loop runs for a value. -/
def canonicalSteps : Json → ℕ
  | .arr items => 1 + stepsOfItems items
  | .obj members => 1 + stepsOfEntries members
  | _ => 0

def stepsOfItems : List Json → ℕ
  | [] => 0
  | v :: vs => 1 + canonicalSteps v + stepsOfItems vs

def stepsOfEntries : List (Text × Json) → ℕ
  | [] => 0
  | (_, v) :: ms => 1 + canonicalSteps v + stepsOfEntries ms

end

/-- The canonical text of a parsed JSON value. -/
def canonical (root : Json) : Text :=
  (canonicalLoop (canonicalSteps root) (openValue root [] [])).1

/-! ### The loop computes the canonical text -/

theorem stepsOfEntries_eq (ms : List (Text × Json)) :
    stepsOfEntries ms = (ms.map (fun m => 1 + canonicalSteps m.2)).sum := by
  induction ms with
  | nil => rfl
  | cons m ms ih => rw [stepsOfEntries, ih, List.map_cons, List.sum_cons]

theorem stepsOfEntries_sortBy (ms : List (Text × Json)) :
    stepsOfEntries (sortBy compareKeys ms) = stepsOfEntries ms := by
  rw [stepsOfEntries_eq, stepsOfEntries_eq]
  exact ((sortBy_perm ms).map _).sum_nat

/-- Entries separated by commas, when `index` entries stand before them. -/
def restText (index : ℕ) : List Text → Text
  | [] => []
  | t :: ts => comma index ++ t ++ restText (index + 1) ts

theorem restText_succ (index : ℕ) (t : Text) (ts : List Text) :
    restText (index + 1) (t :: ts) = unit ',' :: commaSeparated (t :: ts) := by
  induction ts generalizing index t with
  | nil => simp [restText, comma, commaSeparated]
  | cons t' ts ih =>
      rw [restText, ih (index + 1) t']
      simp [comma, commaSeparated]

theorem restText_zero (ts : List Text) : restText 0 ts = commaSeparated ts := by
  cases ts with
  | nil => rfl
  | cons t ts =>
      cases ts with
      | nil => simp [restText, comma, commaSeparated]
      | cons t' ts =>
          rw [restText, restText_succ]
          simp [comma, commaSeparated]

/-- What the loop does with a value, the items of an array and the entries of an object.  The
bound on the size carries the induction, since an object is written in another order than its
members stand in. -/
theorem canonicalLoop_spec (size : ℕ) :
    (∀ v out stack n, canonicalSteps v ≤ size →
      canonicalLoop (canonicalSteps v + n) (openValue v out stack) =
        canonicalLoop n (out ++ canonText v, stack)) ∧
    (∀ vs index out stack n, stepsOfItems vs ≤ size →
      canonicalLoop (1 + stepsOfItems vs + n) (out, .array vs index :: stack) =
        canonicalLoop n (out ++ restText index (canonTexts vs) ++ [unit ']'], stack)) ∧
    (∀ ms index out stack n, stepsOfEntries ms ≤ size →
      canonicalLoop (1 + stepsOfEntries ms + n) (out, .object ms index :: stack) =
        canonicalLoop n
          (out ++ restText index ((canonMembers ms).map memberText) ++ [unit '\x7d'], stack)) := by
  induction size using Nat.strong_induction_on with
  | _ size ih =>
      refine ⟨fun v out stack n h => ?_, fun vs index out stack n h => ?_,
        fun ms index out stack n h => ?_⟩
      · cases v with
        | null => simp [canonicalSteps, openValue, canonText]
        | bool b => simp [canonicalSteps, openValue, canonText]
        | num x => simp [canonicalSteps, openValue, canonText]
        | str s => simp [canonicalSteps, openValue, canonText]
        | arr items =>
            simp only [canonicalSteps] at h ⊢
            rw [openValue, (ih (stepsOfItems items) (by omega)).2.1 items 0 _ stack n le_rfl,
              restText_zero, canonText]
            simp
        | obj members =>
            have hs := stepsOfEntries_sortBy members
            simp only [canonicalSteps] at h ⊢
            rw [openValue, ← hs, (ih (stepsOfEntries members) (by omega)).2.2 _ 0 _ stack n hs.le,
              restText_zero, canonText, sortBy_canonMembers]
            simp
      · cases vs with
        | nil => simp [stepsOfItems, Nat.add_comm 1 n, canonicalLoop, canonicalStep, canonTexts, restText]
        | cons v vs =>
            simp only [stepsOfItems] at h ⊢
            have e : 1 + (1 + canonicalSteps v + stepsOfItems vs) + n =
                canonicalSteps v + (1 + stepsOfItems vs + n) + 1 := by omega
            rw [e, canonicalLoop, canonicalStep, (ih (canonicalSteps v) (by omega)).1 v _ _ _ le_rfl,
              (ih (stepsOfItems vs) (by omega)).2.1 vs _ _ stack n le_rfl, canonTexts, restText]
            simp only [List.append_assoc]
      · cases ms with
        | nil =>
            simp [stepsOfEntries, Nat.add_comm 1 n, canonicalLoop, canonicalStep, canonMembers, restText]
        | cons m ms =>
            obtain ⟨k, v⟩ := m
            simp only [stepsOfEntries] at h ⊢
            have e : 1 + (1 + canonicalSteps v + stepsOfEntries ms) + n =
                canonicalSteps v + (1 + stepsOfEntries ms + n) + 1 := by omega
            rw [e, canonicalLoop, canonicalStep, (ih (canonicalSteps v) (by omega)).1 v _ _ _ le_rfl,
              (ih (stepsOfEntries ms) (by omega)).2.2 ms _ _ stack n le_rfl, canonMembers,
              List.map_cons, restText, memberText]
            simp only [List.append_assoc, List.cons_append, List.nil_append]

theorem canonical_eq (v : Json) : canonical v = canonText v := by
  have h := (canonicalLoop_spec (canonicalSteps v)).1 v [] [] 0 le_rfl
  rw [canonical, ← Nat.add_zero (canonicalSteps v), h]
  rfl

end QeReport

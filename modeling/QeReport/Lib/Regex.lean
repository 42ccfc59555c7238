import Mathlib.Algebra.Ring.Nat
import Mathlib.Data.List.Basic
import Mathlib.Data.List.GetD
import Mathlib.Tactic.SplitIfs

/-! # Regular expressions that backtrack

Regular expressions over an arbitrary alphabet with the semantics of the backtracking matchers of
programming languages: alternatives are tried from left to right, a repetition of a class from its
longest match down (or, when lazy, from its shortest up), groups capture, and looking around looks
at one character.  `exec` runs an expression with what is to follow as its continuation and gives
the first success.

`replaceAll` replaces the matches of an expression from left to right; they do not overlap.  The
expressions it is used with match no empty text (`minLength`). -/

namespace QeReport

inductive Regex (α : Type) where
  | empty
  /-- One character of a class. -/
  | one (p : α → Bool)
  /-- Between `min` and `max` characters of a class. -/
  | many (p : α → Bool) (min : ℕ) (max : Option ℕ) (greedy : Bool)
  | seq (r s : Regex α)
  | alt (r s : Regex α)
  | group (n : ℕ) (r : Regex α)
  /-- The text a group has captured. -/
  | backref (n : ℕ)
  /-- No character of the class stands before. -/
  | notAfter (p : α → Bool)
  /-- No character of the class follows. -/
  | notBefore (p : α → Bool)

namespace Regex
variable {α : Type}

/-- Where a run stands: the character before, the text left, the captures, the latest first. -/
structure Cursor (α : Type) where
  prev : Option α
  rest : List α
  groups : List (ℕ × List α)

/-- The character before the rest of a text of which `n` characters are taken. -/
def lastOf (prev : Option α) (rest : List α) (n : ℕ) : Option α :=
  ((rest.take n).getLast?).or prev

namespace Cursor

/-- `n` characters on. -/
def move (c : Cursor α) (n : ℕ) : Cursor α :=
  { c with prev := lastOf c.prev c.rest n, rest := c.rest.drop n }

/-- The text between a cursor and a later one. -/
def textTo (c c' : Cursor α) : List α := c.rest.take (c.rest.length - c'.rest.length)

/-- The text of a group. -/
def group? (c : Cursor α) (n : ℕ) : Option (List α) :=
  (c.groups.find? (fun g => g.1 = n)).map Prod.snd

end Cursor

/-- The lengths a repetition tries, in their order, on a run of `n` characters of its class. -/
def tries (min : ℕ) (max : Option ℕ) (greedy : Bool) (n : ℕ) : List ℕ :=
  let bound := match max with
    | none => n
    | some m => if m ≤ n then m else n
  let lengths := List.range' min (bound + 1 - min)
  if greedy then lengths.reverse else lengths

section exec
variable [DecidableEq α]

/-- The first success of an expression followed by a continuation. -/
def exec : Regex α → Cursor α → (Cursor α → Option (Cursor α)) → Option (Cursor α)
  | .empty, c, k => k c
  | .one p, c, k => if c.rest.head?.any p then k (c.move 1) else none
  | .many p min max greedy, c, k =>
      (tries min max greedy (c.rest.takeWhile p).length).findSome? (fun n => k (c.move n))
  | .seq r s, c, k => exec r c (fun c => exec s c k)
  | .alt r s, c, k => (exec r c k).or (exec s c k)
  | .group n r, c, k =>
      exec r c (fun c' => k { c' with groups := (n, c.textTo c') :: c'.groups })
  | .backref n, c, k =>
      match c.group? n with
      | none => none
      | some w => if w.isPrefixOf c.rest then k (c.move w.length) else none
  | .notAfter p, c, k => if c.prev.any p then none else k c
  | .notBefore p, c, k => if c.rest.head?.any p then none else k c

/-- One expression after the other. -/
def concat (rs : List (Regex α)) : Regex α := rs.foldr .seq .empty

/-- The first of some expressions that succeeds. -/
def anyOf (rs : List (Regex α)) : Regex α := rs.foldr .alt (.one (fun _ => false))

@[simp] theorem exec_empty (c : Cursor α) (k : Cursor α → Option (Cursor α)) :
    exec .empty c k = k c := rfl

@[simp] theorem exec_seq (r s : Regex α) (c : Cursor α) (k : Cursor α → Option (Cursor α)) :
    exec (.seq r s) c k = exec r c (fun c => exec s c k) := rfl

@[simp] theorem exec_concat_nil (c : Cursor α) (k : Cursor α → Option (Cursor α)) :
    exec (concat []) c k = k c := rfl

@[simp] theorem exec_concat_cons (r : Regex α) (rs : List (Regex α)) (c : Cursor α)
    (k : Cursor α → Option (Cursor α)) :
    exec (concat (r :: rs)) c k = exec r c (fun c => exec (concat rs) c k) := rfl

@[simp] theorem exec_anyOf (rs : List (Regex α)) (c : Cursor α)
    (k : Cursor α → Option (Cursor α)) :
    exec (anyOf rs) c k = rs.findSome? (fun r => exec r c k) := by
  induction rs with
  | nil => cases h : c.rest <;> simp [anyOf, exec, h]
  | cons r rs ih =>
      rw [anyOf, List.foldr_cons, exec, List.findSome?_cons]
      cases h : exec r c k with
      | none => simpa [anyOf] using ih
      | some d => rfl

/-! ### Matches -/

/-- A match: how many characters it takes, and what it captures. -/
structure Match (α : Type) where
  length : ℕ
  groups : List (ℕ × List α)

/-- The text of a group that captured. -/
def Match.group? (m : Match α) (n : ℕ) : Option (List α) :=
  (m.groups.find? (fun g => g.1 = n)).map Prod.snd

/-- The match at the beginning of a text, after a character. -/
def matchAt (r : Regex α) (prev : Option α) (rest : List α) : Option (Match α) :=
  (exec r ⟨prev, rest, []⟩ some).map (fun c => ⟨rest.length - c.rest.length, c.groups⟩)

/-- Replacing the matches, with the characters of a match still to leave out. -/
def replaceFrom (r : Regex α) (subst : Match α → List α) : ℕ → Option α → List α → List α
  | _, _, [] => []
  | n + 1, _, x :: t => replaceFrom r subst n (some x) t
  | 0, prev, x :: t =>
      match r.matchAt prev (x :: t) with
      | none => x :: replaceFrom r subst 0 (some x) t
      | some m => subst m ++ replaceFrom r subst (m.length - 1) (some x) t

/-- Every match replaced, from left to right. -/
def replaceAll (r : Regex α) (subst : Match α → List α) (text : List α) : List α :=
  replaceFrom r subst 0 none text

end exec

/-! ### Moving on -/

theorem lastOf_zero (prev : Option α) (rest : List α) : lastOf prev rest 0 = prev := by
  simp [lastOf]

theorem lastOf_succ (prev : Option α) (x : α) (t : List α) (n : ℕ) :
    lastOf prev (x :: t) (n + 1) = lastOf (some x) t n := by
  cases h : (t.take n).getLast? <;> simp [lastOf, List.getLast?_cons, h]

theorem lastOf_add (prev : Option α) (rest : List α) (m n : ℕ) :
    lastOf (lastOf prev rest m) (rest.drop m) n = lastOf prev rest (m + n) := by
  induction m generalizing prev rest with
  | zero => rw [lastOf_zero, List.drop_zero, Nat.zero_add]
  | succ m ih =>
      cases rest with
      | nil => simp [lastOf]
      | cons x t =>
          have h : m + 1 + n = m + n + 1 := by omega
          rw [lastOf_succ, List.drop_succ_cons, h, lastOf_succ]
          exact ih (some x) t

@[simp] theorem Cursor.rest_move (c : Cursor α) (n : ℕ) : (c.move n).rest = c.rest.drop n := rfl

@[simp] theorem Cursor.groups_move (c : Cursor α) (n : ℕ) : (c.move n).groups = c.groups := rfl

theorem Cursor.move_zero (c : Cursor α) : c.move 0 = c := by
  rw [Cursor.move, lastOf_zero, List.drop_zero]

theorem Cursor.move_move (c : Cursor α) (m n : ℕ) : (c.move m).move n = c.move (m + n) := by
  rw [Cursor.move, Cursor.move, Cursor.move]
  simp only [lastOf_add, List.drop_drop]

theorem Cursor.textTo_move {c : Cursor α} {n : ℕ} (h : n ≤ c.rest.length) :
    c.textTo (c.move n) = c.rest.take n := by
  rw [Cursor.textTo, Cursor.rest_move, List.length_drop, Nat.sub_sub_self h]

/-- The least number of characters a match takes. -/
def minLength : Regex α → ℕ
  | .one _ => 1
  | .many _ min _ _ => min
  | .seq r s => minLength r + minLength s
  | .alt r s => Nat.min (minLength r) (minLength s)
  | .group _ r => minLength r
  | _ => 0

/-- A sequence takes what one of its parts takes. -/
theorem minLength_concat_pos {r : Regex α} {rs : List (Regex α)} (h : r ∈ rs)
    (hr : 0 < minLength r) : 0 < minLength (concat rs) := by
  induction rs with
  | nil => exact absurd h List.not_mem_nil
  | cons s rs ih =>
      have hcons : minLength (concat (s :: rs)) = minLength s + minLength (concat rs) := rfl
      rw [hcons]
      rcases List.mem_cons.mp h with rfl | h
      · omega
      · have := ih h
        omega

theorem mem_tries {min : ℕ} {max : Option ℕ} {greedy : Bool} {n m : ℕ} :
    m ∈ tries min max greedy n ↔ min ≤ m ∧ m ≤ n ∧ ∀ b, max = some b → m ≤ b := by
  have hmem : m ∈ tries min max greedy n ↔
      m ∈ List.range' min ((match max with | none => n | some b => if b ≤ n then b else n) + 1 - min) := by
    cases greedy <;> simp [tries]
  rw [hmem, List.mem_range'_1]
  cases max with
  | none => simp; omega
  | some b =>
      simp only [Option.some.injEq, forall_eq']
      split_ifs <;> omega

section moves
variable [DecidableEq α] {r : Regex α} {c d : Cursor α} {k : Cursor α → Option (Cursor α)}

/-- A success is one of the continuation at a later cursor. -/
theorem exec_moves (h : exec r c k = some d) :
    ∃ n groups, minLength r ≤ n ∧ n ≤ c.rest.length ∧
      k { c.move n with groups := groups } = some d := by
  induction r generalizing c k with
  | empty => exact ⟨0, c.groups, Nat.le_refl _, Nat.zero_le _, by rwa [Cursor.move_zero]⟩
  | one p =>
      rw [exec] at h
      split_ifs at h with hp
      refine ⟨1, c.groups, Nat.le_refl _, ?_, h⟩
      cases hrest : c.rest with
      | nil => simp [hrest] at hp
      | cons x t => simp
  | many p min max greedy =>
      rw [exec] at h
      obtain ⟨n, hn, hk⟩ := List.exists_of_findSome?_eq_some h
      obtain ⟨hmin, hle, -⟩ := mem_tries.mp hn
      have hlength := (List.takeWhile_sublist p (l := c.rest)).length_le
      exact ⟨n, c.groups, hmin, by omega, hk⟩
  | seq r s ihr ihs =>
      rw [exec] at h
      obtain ⟨m, groups, hm, hmle, h⟩ := ihr h
      obtain ⟨n, groups', hn, hnle, h⟩ := ihs h
      have hdrop : ({ c.move m with groups := groups } : Cursor α).rest.length =
          c.rest.length - m := by
        simp [Cursor.move]
      refine ⟨m + n, groups', ?_, by omega, ?_⟩
      · rw [minLength]
        omega
      · rw [← Cursor.move_move]
        exact h
  | alt r s ihr ihs =>
      rw [exec, Option.or_eq_some_iff] at h
      rcases h with h | ⟨-, h⟩
      · obtain ⟨n, groups, hn, hle, h⟩ := ihr h
        exact ⟨n, groups, Nat.le_trans (Nat.min_le_left _ _) hn, hle, h⟩
      · obtain ⟨n, groups, hn, hle, h⟩ := ihs h
        exact ⟨n, groups, Nat.le_trans (Nat.min_le_right _ _) hn, hle, h⟩
  | group m r ih =>
      rw [exec] at h
      obtain ⟨n, groups, hn, hle, h⟩ := ih h
      exact ⟨n, _, hn, hle, h⟩
  | backref m =>
      rw [exec] at h
      cases hgroup : c.group? m with
      | none => simp [hgroup] at h
      | some w =>
          simp only [hgroup] at h
          split_ifs at h with hw
          exact ⟨w.length, c.groups, Nat.zero_le _, (List.isPrefixOf_iff_prefix.mp hw).length_le, h⟩
  | notAfter p =>
      rw [exec] at h
      split_ifs at h
      exact ⟨0, c.groups, Nat.zero_le _, Nat.zero_le _, by rwa [Cursor.move_zero]⟩
  | notBefore p =>
      rw [exec] at h
      split_ifs at h
      exact ⟨0, c.groups, Nat.zero_le _, Nat.zero_le _, by rwa [Cursor.move_zero]⟩

theorem matchAt_length {prev : Option α} {rest : List α} {m : Match α}
    (h : r.matchAt prev rest = some m) : minLength r ≤ m.length ∧ m.length ≤ rest.length := by
  obtain ⟨d, hd, rfl⟩ := Option.map_eq_some_iff.mp h
  obtain ⟨n, groups, hmin, hle, hsome⟩ := exec_moves hd
  obtain rfl := Option.some.inj hsome
  simp only [Cursor.move, List.length_drop] at hle ⊢
  omega

end moves

/-! ### Replacing -/

section replace
variable [DecidableEq α] {r : Regex α} {subst : Match α → List α}

theorem replaceFrom_skip (n : ℕ) (prev : Option α) (rest : List α) :
    replaceFrom r subst n prev rest =
      replaceFrom r subst 0 (lastOf prev rest n) (rest.drop n) := by
  induction rest generalizing n prev with
  | nil => simp [replaceFrom]
  | cons x t ih =>
      cases n with
      | zero => rw [lastOf_zero, List.drop_zero]
      | succ n => rw [replaceFrom, ih, lastOf_succ, List.drop_succ_cons]

theorem replaceFrom_none {prev : Option α} {x : α} {t : List α}
    (h : r.matchAt prev (x :: t) = none) :
    replaceFrom r subst 0 prev (x :: t) = x :: replaceFrom r subst 0 (some x) t := by
  rw [replaceFrom, h]

theorem replaceFrom_some (hr : 0 < minLength r) {prev : Option α} {rest : List α} {m : Match α}
    (h : r.matchAt prev rest = some m) :
    replaceFrom r subst 0 prev rest =
      subst m ++ replaceFrom r subst 0 (lastOf prev rest m.length) (rest.drop m.length) := by
  obtain ⟨hmin, hle⟩ := matchAt_length h
  cases rest with
  | nil => simp at hle; omega
  | cons x t =>
      obtain ⟨n, hn⟩ : ∃ n, m.length = n + 1 := ⟨m.length - 1, by omega⟩
      have hskip : m.length - 1 = n := by omega
      rw [replaceFrom, h, hn, lastOf_succ, List.drop_succ_cons]
      simp only [hskip]
      rw [replaceFrom_skip n]

/-- Along the scan of a text: where nothing matches one character on, at a match behind it. -/
theorem scan_induction (hr : 0 < minLength r) {P : Option α → List α → Prop}
    (nil : ∀ prev, P prev [])
    (step : ∀ prev x t, r.matchAt prev (x :: t) = none → P (some x) t → P prev (x :: t))
    (found : ∀ prev rest m, r.matchAt prev rest = some m →
      P (lastOf prev rest m.length) (rest.drop m.length) → P prev rest)
    (prev : Option α) (rest : List α) : P prev rest := by
  induction h : rest.length using Nat.strongRecOn generalizing prev rest with
  | _ n ih =>
      subst h
      cases rest with
      | nil => exact nil prev
      | cons x t =>
          cases hm : r.matchAt prev (x :: t) with
          | none => exact step prev x t hm (ih t.length (Nat.lt_succ_self _) (some x) t rfl)
          | some m =>
              obtain ⟨hmin, hle⟩ := matchAt_length hm
              apply found prev (x :: t) m hm
              apply ih _ _ _ _ rfl
              rw [List.length_drop]
              omega

/-- Nothing is left of no text only. -/
theorem replaceAll_ne_nil (hr : 0 < minLength r) (hsubst : ∀ m, subst m ≠ []) {text : List α}
    (h : text ≠ []) : replaceAll r subst text ≠ [] := by
  rw [replaceAll]
  cases hm : r.matchAt none text with
  | none =>
      cases text with
      | nil => exact absurd rfl h
      | cons x t =>
          rw [replaceFrom_none hm]
          exact List.cons_ne_nil _ _
  | some m =>
      rw [replaceFrom_some hr hm]
      exact List.append_ne_nil_of_left_ne_nil (hsubst m) _

end replace

end Regex

end QeReport

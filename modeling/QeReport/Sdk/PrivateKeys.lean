import QeReport.Lib.RegexRuns
import QeReport.Sdk.Rules

/-! # What the pattern of private keys matches

A marker ends with the words `PRIVATE KEY`, which its run of capital letters may hold more than
once; only the last place of the run is followed by dashes.  A block goes on to the first closing
marker behind its opening one. -/

namespace QeReport.Sdk.Redactor

open Regex (Cursor Match concat exec exec_ones exec_concat_cons exec_concat_nil exec_many_unique
  findSome?_range
  length_le_of_startsWith length_takeWhile_drop length_takeWhile_of_startsWith matchAt mem_tries search startsWith
  tries tries_lazy)

section
variable {α : Type} (A : Alphabet α)

/-- The classes of the characters of a text. -/
def literals (s : String) : List (α → Bool) := s.toList.map (fun ch => isIn A (· = ch.toNat))

/-- `[A-Z ]`. -/
def isCapital (x : α) : Bool := isIn A (fun c => range 'A' 'Z' c || oneOf " " c) x

/-- The length of a marker that begins with `start`. -/
def markerLength (start : String) (t : List α) : Option ℕ :=
  if startsWith (literals A start) t then
    let n := start.toList.length + ((t.drop start.toList.length).takeWhile (isCapital A)).length
    if start.toList.length + 11 ≤ n ∧
        startsWith (literals A "PRIVATE KEY-----") (t.drop (n - 11)) = true then some (n + 5)
    else none
  else none

/-- The length of a block. -/
def blockLength (t : List α) : Option ℕ :=
  (markerLength A "-----BEGIN " t).bind (fun n =>
    (search (markerLength A "-----END ") (t.drop n)).map (n + ·))

end

section
variable {α : Type} {A : Alphabet α}

/-- The text before the dashes is a run of capital letters. -/
theorem takeWhile_privateKey {t : List α}
    (h : startsWith (literals A "PRIVATE KEY-----") t = true) :
    (t.takeWhile (isCapital A)).length = 11 := by
  have hsplit : literals A "PRIVATE KEY-----" =
      literals A "PRIVATE KEY" ++ isIn A (· = '-'.toNat) :: literals A "----" := rfl
  have hletters : ∀ ch ∈ "PRIVATE KEY".toList,
      (range 'A' 'Z' ch.toNat || oneOf " " ch.toNat) = true :=
    List.all_eq_true.mp (by decide)
  rw [hsplit] at h
  refine length_takeWhile_of_startsWith h (fun f hf x hx => ?_) (fun x hx => ?_)
  · obtain ⟨ch, hch, rfl⟩ := List.mem_map.mp hf
    rw [isCapital, isIn, of_decide_eq_true hx]
    exact hletters ch hch
  · rw [isCapital, isIn, of_decide_eq_true hx]
    decide

variable [DecidableEq α] {c : Cursor α} {k : Cursor α → Option (Cursor α)}

theorem exec_lit (s : String) : exec (lit A s) c k =
    if startsWith (literals A s) c.rest then k (c.move s.toList.length) else none := by
  have h := exec_ones (c := c) (k := k) (literals A s)
  rwa [literals, List.map_map, List.length_map] at h

/-- The words `PRIVATE KEY` are the last of the run. -/
theorem exec_marker (start : String) :
    exec (lit A start) c (fun c => exec (markerEnd A) c k) =
      (markerLength A start c.rest).bind (fun n => k (c.move n)) := by
  have hwords : ("PRIVATE KEY-----".toList).length = 16 := by decide
  rw [exec_lit, markerLength]
  cases hstart : startsWith (literals A start) c.rest with
  | false => rfl
  | true =>
      rw [if_pos rfl, if_pos rfl]
      dsimp only
      simp only [markerEnd, exec_concat_cons, exec_concat_nil, exec_lit, hwords]
      have hclass : isIn A (fun c => range 'A' 'Z' c || oneOf " " c) = isCapital A := rfl
      have hrun : ∀ m ≤ ((c.rest.drop start.toList.length).takeWhile (isCapital A)).length,
          startsWith (literals A "PRIVATE KEY-----")
            (c.rest.drop (start.toList.length + m)) = true →
          m + 11 = ((c.rest.drop start.toList.length).takeWhile (isCapital A)).length := by
        intro m hm hstart
        rw [← List.drop_drop] at hstart
        have hlength := takeWhile_privateKey hstart
        rw [length_takeWhile_drop hm] at hlength
        omega
      rw [star, hclass, exec_many_unique (n := ((c.rest.drop start.toList.length).takeWhile
        (isCapital A)).length - 11)]
      · have htries : ∀ r, r - 11 ∈ tries 0 none true r := fun r =>
          mem_tries.mpr ⟨Nat.zero_le _, Nat.sub_le _ _, fun _ h => by simp at h⟩
        rw [Cursor.rest_move, if_pos (htries _)]
        simp only [Cursor.rest_move, Cursor.move_move]
        generalize hr : ((c.rest.drop start.toList.length).takeWhile (isCapital A)).length = r at hrun ⊢
        by_cases hfound : startsWith (literals A "PRIVATE KEY-----")
            (c.rest.drop (start.toList.length + (r - 11))) = true
        · have hle := hrun (r - 11) (Nat.sub_le _ _) hfound
          have hplace : start.toList.length + (r - 11) = start.toList.length + r - 11 := by omega
          have hend : start.toList.length + (r - 11) + 16 = start.toList.length + r + 5 := by omega
          rw [if_pos hfound, hend, if_pos ⟨by omega, hplace ▸ hfound⟩, Option.bind_some]
        · rw [if_neg hfound, if_neg, Option.bind_none]
          rintro ⟨hle, hwords⟩
          have hplace : start.toList.length + (r - 11) = start.toList.length + r - 11 := by omega
          exact hfound (hplace ▸ hwords)
      · intro m hm hle
        rw [Cursor.rest_move] at hle
        rw [if_neg]
        rw [Cursor.rest_move, Cursor.rest_move, List.drop_drop]
        intro hwords
        have := hrun m hle hwords
        omega

omit [DecidableEq α] in
theorem markerLength_le {start : String} {t : List α} {n : ℕ}
    (h : markerLength A start t = some n) : start.toList.length + 16 ≤ n ∧ n ≤ t.length := by
  rw [markerLength] at h
  split_ifs at h with hstart
  dsimp only at h
  split_ifs at h with hwords
  obtain rfl := Option.some.inj h
  have hle := length_le_of_startsWith hwords.2
  rw [literals, List.length_map, List.length_drop] at hle
  have hlength : ("PRIVATE KEY-----".toList).length = 16 := by decide
  omega

/-- The pattern matches an opening marker and what follows up to the first closing one. -/
theorem matchAt_privateKeyBlock (prev : Option α) (t : List α) :
    matchAt (privateKeyBlock A) prev t = (blockLength A t).map (fun n => ⟨n, []⟩) := by
  have hclosing : ∀ c : Cursor α, exec (lit A "-----END ") c (fun c => exec (markerEnd A) c some) =
      (markerLength A "-----END " c.rest).map c.move := by
    intro c
    rw [exec_marker]
    cases markerLength A "-----END " c.rest <;> rfl
  have hany : ∀ t : List α, t.takeWhile (fun _ => true) = t :=
    fun t => List.takeWhile_eq_self_iff.mpr (fun _ _ => rfl)
  rw [matchAt, privateKeyBlock]
  simp only [exec_concat_cons, exec_concat_nil]
  rw [exec_marker, blockLength]
  cases hopen : markerLength A "-----BEGIN " t with
  | none => rfl
  | some n =>
      rw [Option.bind_some, Option.bind_some, exec, Cursor.rest_move, hany, tries_lazy,
        ← findSome?_range, List.map_findSome?, List.map_findSome?, List.map_findSome?]
      congr 1
      funext m
      simp only [Function.comp_apply]
      rw [hclosing, Cursor.rest_move, Cursor.rest_move, List.drop_drop]
      cases hclose : markerLength A "-----END " (t.drop (n + m)) with
      | none => rfl
      | some e =>
          have he := markerLength_le hclose
          rw [List.length_drop] at he
          simp only [Option.map_some, Cursor.rest_move, List.drop_drop, List.length_drop,
            Cursor.groups_move, Option.some.injEq, Match.mk.injEq, and_true]
          omega

end

end QeReport.Sdk.Redactor

import QeReport.Lib.RegexRuns
import QeReport.Sdk.Rules

/-! # What the pattern of named values matches

The pattern of headers and keys backtracks, but each of its parts can go on from one place only: a
name must be followed by a separator, a quoted value by its closing quote.  Its match is therefore
given by the lengths of its parts (`namedAt`), read from left to right. -/

namespace QeReport.Sdk.Redactor

open Regex (Cursor Match anyOf concat exec exec_ones exec_concat_cons exec_concat_nil exec_anyOf
  exec_group_many exec_group_stop exec_star_stop exec_star_total matchAt startsWith head?_drop_of_lt lastOf_add length_le_of_startsWith length_takeWhile_le
  tries tries_star)

section
variable {α : Type} (A : Alphabet α)

/-! ### The parts and their lengths -/

/-- The classes of the characters of a text, under the `i` flag. -/
def letters (s : String) : List (α → Bool) := s.toList.map (fun ch => isInI A (· = ch.toNat))

/-- `[:=]`. -/
def isSeparator (x : α) : Bool := isInI A (oneOf ":=") x

/-- `["']`. -/
def isQuote (x : α) : Bool := isInI A (oneOf "\"'") x

/-- The length of a separator. -/
def separatorLength (t : List α) : Option ℕ :=
  let n := (t.takeWhile (isBlank A)).length
  if (t.drop n).head?.any (isSeparator A) then
    some (n + 1 + ((t.drop (n + 1)).takeWhile (isBlank A)).length)
  else none

/-- How a value is written. -/
inductive Kind where
  | double | single | bare
deriving DecidableEq

/-- The length of a value between quotes, with them. -/
def quotedLength (quote : String) (t : List α) : Option ℕ :=
  if startsWith (letters A quote) t then
    let n := ((t.drop 1).takeWhile (isNotIn A (oneOf (quote ++ "\r\n")))).length
    if startsWith (letters A quote) (t.drop (n + 1)) then some (n + 2) else none
  else none

/-- A value. -/
def valueAt (stops : String) (t : List α) : Kind × ℕ :=
  match quotedLength A "\"" t with
  | some n => (.double, n)
  | none =>
      match quotedLength A "'" t with
      | some n => (.single, n)
      | none => (.bare, (t.takeWhile (isNotIn A (oneOf stops))).length)

/-- The lengths of the quote before a name, of the name and of the separator. -/
structure Head where
  quote : ℕ
  name : ℕ
  separator : ℕ
deriving DecidableEq

def Head.length (h : Head) : ℕ := h.quote + h.name + h.quote + h.separator

section decidable
variable [DecidableEq α]

/-- One name after the quote `q`, the quote again and a separator. -/
def oneNameAt (q t : List α) (name : String) : Option Head :=
  if startsWith (letters A name) t && q.isPrefixOf (t.drop name.toList.length) then
    (separatorLength A (t.drop (name.toList.length + q.length))).map
      (fun n => ⟨q.length, name.toList.length, n⟩)
  else none

/-- The first of some names that is found. -/
def nameAt (names : List String) (q t : List α) : Option Head := names.findSome? (oneNameAt A q t)

/-- A name with a separator; it is first looked for in quotes. -/
def headAt (names : List String) (t : List α) : Option Head :=
  (if t.head?.any (isQuote A) then nameAt A names (t.take 1) (t.drop 1) else none).or
    (nameAt A names [] t)

/-- The match of the pattern after a character. -/
def namedAt (names : List String) (stops : String) (prev : Option α) (t : List α) :
    Option (Head × Kind × ℕ) :=
  if prev.any (isInI A (alphaNumericOr "_-")) then none
  else (headAt A names t).map (fun h => (h, valueAt A stops (t.drop h.length)))

end decidable

/-! ### What is captured -/

/-- The text of a value, without its quotes. -/
def Kind.capture (kind : Kind) (n : ℕ) (t : List α) : ℕ × List α :=
  match kind with
  | .double => (4, (t.drop 1).take (n - 2))
  | .single => (5, (t.drop 1).take (n - 2))
  | .bare => (6, t.take n)

/-- The captures of a match. -/
def captures (t : List α) (h : Head) (kind : Kind) (n : ℕ) : List (ℕ × List α) :=
  [kind.capture n (t.drop h.length),
    (3, (t.drop (h.quote + h.name + h.quote)).take h.separator),
    (2, (t.drop h.quote).take h.name), (1, t.take h.quote)]

/-- What a match is replaced by. -/
def replacementOf (t : List α) (h : Head) (kind : Kind) : List α :=
  t.take h.quote ++ (t.drop h.quote).take h.name ++ t.take h.quote ++
    (t.drop (h.quote + h.name + h.quote)).take h.separator ++
    match kind with
    | .double => written A "\"" ++ redacted A ++ written A "\""
    | .single => written A "'" ++ redacted A ++ written A "'"
    | .bare => redacted A

theorem replaceValue_captures (t : List α) (h : Head) (kind : Kind) (n m : ℕ) :
    replaceValue A ⟨m, captures t h kind n⟩ = replacementOf A t h kind := by
  cases kind <;> rfl

end

/-! ### The matcher reads the parts -/

section
variable {α : Type} [DecidableEq α] {A : Alphabet α} {c : Cursor α}
  {k : Cursor α → Option (Cursor α)}

theorem exec_litI (s : String) : exec (litI A s) c k =
    if startsWith (letters A s) c.rest then k (c.move s.toList.length) else none := by
  have h := exec_ones (c := c) (k := k) (letters A s)
  rwa [letters, List.map_map, List.length_map] at h

omit [DecidableEq α] in
theorem not_isSeparator_of_isBlank {x : α} (h : isBlank A x = true) : isSeparator A x = false :=
  IsAscii.forall (q := fun c => ignoringCase (oneOf ":=") c = false)
    (isAscii_oneOf (s := " \t") (by decide)).ignoringCase (by decide) h

/-- What may follow a separator is tried behind the longest one only. -/
theorem exec_separator (hk : ∀ c, (k c).isSome = true) : exec (separator A) c k =
    match separatorLength A c.rest with
    | none => none
    | some n => k (c.move n) := by
  have hafter : ∀ c : Cursor α, exec (star (isBlank A)) c k =
      k (c.move (c.rest.takeWhile (isBlank A)).length) := fun c => exec_star_total (hk _)
  simp only [separator, exec_concat_cons, exec_concat_nil, hafter]
  have hclass : isInI A (oneOf ":=") = isSeparator A := rfl
  rw [star, hclass, exec_star_stop]
  · simp only [exec, Cursor.move_move, Cursor.rest_move, separatorLength, Nat.add_assoc]
    split_ifs <;> rfl
  · intro n hn
    obtain ⟨x, hx, hblank⟩ := head?_drop_of_lt hn
    rw [exec, Cursor.rest_move, hx, Option.any_some, not_isSeparator_of_isBlank hblank]
    rfl

/-- A quoted value goes on to its closing quote. -/
theorem exec_quoted {quote : String} {ch : Char} (hquote : quote.toList = [ch]) (n : ℕ) :
    exec (quoted A quote n) c some =
      (quotedLength A quote c.rest).map (fun m =>
        { c.move m with groups := (n, (c.rest.drop 1).take (m - 2)) :: c.groups }) := by
  have hletters : letters A quote = [isInI A (· = ch.toNat)] := by rw [letters, hquote]; rfl
  have hstop : ∀ x : α, isNotIn A (oneOf (quote ++ "\r\n")) x = true →
      isInI A (· = ch.toNat) x = false := by
    intro x hx
    rw [isNotIn, Bool.not_eq_true'] at hx
    refine Bool.eq_false_iff.mpr (fun h => Bool.eq_false_iff.mp hx (ignoringCase_mono ?_ h))
    intro code hcode
    rw [oneOf, String.toList_append, hquote]
    simpa using Or.inl (of_decide_eq_true hcode).symm
  simp only [quoted, exec_concat_cons, exec_concat_nil, exec_litI, hletters, hquote,
    List.length_singleton, quotedLength]
  have hdead : ∀ m < ((c.move 1).rest.takeWhile (isNotIn A (oneOf (quote ++ "\r\n")))).length,
      startsWith [isInI A (· = ch.toNat)] ((c.move 1).capture n m).rest = false := by
    intro m hm
    obtain ⟨x, hx, hin⟩ := head?_drop_of_lt hm
    obtain ⟨t, ht⟩ := List.head?_eq_some_iff.mp hx
    rw [Cursor.rest_capture, ht, startsWith, hstop x hin]
    rfl
  split_ifs with hopen hclose
  · rw [star, exec_group_stop (fun m hm => by rw [hdead m hm]; rfl)]
    simp only [Cursor.rest_capture, Cursor.rest_move, List.drop_drop, Nat.add_comm 1] at hclose ⊢
    rw [if_pos hclose, Option.map_some, Cursor.move_capture]
    have hlength : ∀ l, 1 + l + 1 = l + 2 := by omega
    rw [hlength, Nat.add_sub_cancel]
    rfl
  · rw [star, exec_group_stop (fun m hm => by rw [hdead m hm]; rfl)]
    simp only [Cursor.rest_capture, Cursor.rest_move, List.drop_drop, Nat.add_comm 1] at hclose ⊢
    rw [if_neg hclose, Option.map_none]
  · rfl

/-- A value is always found. -/
theorem exec_value (stops : String) :
    exec (anyOf [quoted A "\"" 4, quoted A "'" 5, .group 6 (star (isNotIn A (oneOf stops)))])
        c some =
      some { c.move (valueAt A stops c.rest).2 with
        groups := (valueAt A stops c.rest).1.capture (valueAt A stops c.rest).2 c.rest ::
          c.groups } := by
  have hbare : exec (.group 6 (star (isNotIn A (oneOf stops)))) c some =
      some (c.capture 6 (c.rest.takeWhile (isNotIn A (oneOf stops))).length) := by
    rw [star, exec_group_many, tries_star, List.findSome?_cons]
  rw [exec_anyOf, List.findSome?_cons, List.findSome?_cons, List.findSome?_cons,
    exec_quoted (show "\"".toList = ['"'] by decide),
    exec_quoted (show "'".toList = ['\''] by decide), hbare, valueAt]
  cases hdouble : quotedLength A "\"" c.rest with
  | some n => rfl
  | none =>
      cases hsingle : quotedLength A "'" c.rest with
      | some n => rfl
      | none => rfl

/-- The first success behind a choice, when every choice that succeeds can go on. -/
theorem findSome?_bind {β γ δ : Type} {f : β → Option δ} {g : β → Option γ} {next : γ → Option δ}
    (hf : ∀ b, f b = (g b).bind next) (hnext : ∀ x, (next x).isSome = true) (l : List β) :
    l.findSome? f = (l.findSome? g).bind next := by
  induction l with
  | nil => rfl
  | cons b l ih =>
      rw [List.findSome?_cons, List.findSome?_cons, hf b]
      cases hg : g b with
      | none => exact ih
      | some x =>
          obtain ⟨d, hd⟩ := Option.isSome_iff_exists.mp (hnext x)
          simp [hd]

/-- A cursor behind a name, its quote and a separator. -/
def behindName (c : Cursor α) (h : Head) : Cursor α :=
  { c.move (h.name + h.quote + h.separator) with
    groups := (3, (c.rest.drop (h.name + h.quote)).take h.separator) ::
      (2, c.rest.take h.name) :: c.groups }

omit [DecidableEq α] in
theorem separatorLength_le {t : List α} {n : ℕ} (h : separatorLength A t = some n) :
    n ≤ t.length := by
  rw [separatorLength] at h
  split_ifs at h with hhead
  obtain rfl := Option.some.inj h
  have hlt : (t.takeWhile (isBlank A)).length < t.length := by
    refine Nat.lt_of_not_le (fun hle => ?_)
    rw [List.drop_of_length_le hle] at hhead
    exact Bool.false_ne_true hhead
  have hrun := length_takeWhile_le (isBlank A) (t.drop ((t.takeWhile (isBlank A)).length + 1))
  rw [List.length_drop] at hrun
  omega

theorem exec_group_separator (i : ℕ) (hk : ∀ c, (k c).isSome = true) :
    exec (.group i (separator A)) c k =
      (separatorLength A c.rest).bind (fun n => k (c.capture i n)) := by
  rw [exec, exec_separator (fun c' => hk _)]
  cases h : separatorLength A c.rest with
  | none => rfl
  | some n =>
      simp only [Option.bind_some, Cursor.capture, Cursor.textTo_move (separatorLength_le h),
        Cursor.groups_move]

/-- A name with its quote and a separator, before what can always go on. -/
theorem exec_oneName (name : String) {q : List α} (hq : c.group? 1 = some q)
    (hk : ∀ c, (k c).isSome = true) :
    exec (.group 2 (litI A name)) c
        (fun c => exec (.backref 1) c (fun c => exec (.group 3 (separator A)) c k)) =
      (oneNameAt A q c.rest name).bind (fun h => k (behindName c h)) := by
  rw [exec, exec_litI, oneNameAt]
  cases hname : startsWith (letters A name) c.rest with
  | false => rfl
  | true =>
      have hle := length_le_of_startsWith hname
      rw [letters, List.length_map] at hle
      have hgroup : (c.capture 2 name.toList.length).group? 1 = some q := by
        rw [← hq]
        rfl
      rw [if_pos rfl, Cursor.textTo_move hle, Bool.true_and]
      change exec (.backref 1) (c.capture 2 name.toList.length) _ = _
      rw [exec, hgroup]
      dsimp only
      rw [Cursor.rest_capture]
      cases hquote : q.isPrefixOf (c.rest.drop name.toList.length) with
      | false => rfl
      | true =>
          rw [if_pos rfl, if_pos rfl, exec_group_separator 3 hk, Option.bind_map,
            Cursor.rest_move, Cursor.rest_capture, List.drop_drop]
          congr 1
          funext n
          simp only [Function.comp_apply, behindName, Cursor.capture, Cursor.move, lastOf_add,
            List.drop_drop, Nat.add_assoc]

theorem exec_names (names : List String) {q : List α} (hq : c.group? 1 = some q)
    (hk : ∀ c, (k c).isSome = true) :
    exec (.group 2 (anyOf (names.map (litI A)))) c
        (fun c => exec (.backref 1) c (fun c => exec (.group 3 (separator A)) c k)) =
      (nameAt A names q c.rest).bind (fun h => k (behindName c h)) := by
  rw [exec, exec_anyOf, List.findSome?_map, nameAt]
  apply findSome?_bind _ (fun h => hk _)
  intro name
  rw [← exec_oneName name hq hk, exec]
  rfl

/-- A cursor behind a quote, a name, the quote and a separator. -/
def behindHead (c : Cursor α) (h : Head) : Cursor α := behindName (c.capture 1 h.quote) h

omit [DecidableEq α] in
theorem length_takeWhile_one {p : α → Bool} (t : List α) :
    tries 0 (some 1) true (t.takeWhile p).length = if t.head?.any p then [1, 0] else [0] := by
  cases t with
  | nil => rfl
  | cons x t =>
      rw [List.takeWhile_cons, List.head?_cons, Option.any_some]
      cases hx : p x with
      | false => rfl
      | true => simp [tries, List.range'_succ]

theorem quote_of_nameAt {names : List String} {q t : List α} {h : Head}
    (hname : nameAt A names q t = some h) : h.quote = q.length := by
  obtain ⟨name, -, hone⟩ := List.exists_of_findSome?_eq_some hname
  rw [oneNameAt] at hone
  split_ifs at hone
  obtain ⟨n, -, rfl⟩ := Option.map_eq_some_iff.mp hone
  rfl

/-- An optional quote, a name, the quote and a separator. -/
theorem exec_head (names : List String) (hk : ∀ c, (k c).isSome = true) :
    exec (.group 1 (.many (isQuote A) 0 (some 1) true)) c (fun c =>
        exec (.group 2 (anyOf (names.map (litI A)))) c
          (fun c => exec (.backref 1) c (fun c => exec (.group 3 (separator A)) c k))) =
      (headAt A names c.rest).bind (fun h => k (behindHead c h)) := by
  have hnames : ∀ n ≤ c.rest.length,
      exec (.group 2 (anyOf (names.map (litI A)))) (c.capture 1 n)
          (fun c => exec (.backref 1) c (fun c => exec (.group 3 (separator A)) c k)) =
        (nameAt A names (c.rest.take n) (c.rest.drop n)).bind
          (fun h => k (behindHead c h)) := by
    intro n hn
    rw [exec_names names (q := c.rest.take n) rfl hk, Cursor.rest_capture]
    cases hname : nameAt A names (c.rest.take n) (c.rest.drop n) with
    | none => rfl
    | some h =>
        have hquote := quote_of_nameAt hname
        rw [List.length_take, Nat.min_eq_left hn] at hquote
        rw [Option.bind_some, Option.bind_some, behindHead, hquote]
  rw [exec_group_many, length_takeWhile_one, headAt]
  cases hhead : c.rest.head?.any (isQuote A) with
  | false =>
      rw [if_neg Bool.false_ne_true, if_neg Bool.false_ne_true, List.findSome?_singleton,
        hnames 0 (Nat.zero_le _)]
      rfl
  | true =>
      have hlength : 1 ≤ c.rest.length := by
        cases hrest : c.rest with
        | nil => rw [hrest] at hhead; exact absurd hhead Bool.false_ne_true
        | cons x t => exact Nat.succ_le_succ (Nat.zero_le _)
      rw [if_pos rfl, if_pos rfl, List.findSome?_cons, List.findSome?_singleton, hnames 1 hlength,
        hnames 0 (Nat.zero_le _), List.take_zero, List.drop_zero]
      cases hquoted : nameAt A names (c.rest.take 1) (c.rest.drop 1) with
      | none => rfl
      | some h =>
          obtain ⟨d, hd⟩ := Option.isSome_iff_exists.mp (hk (behindHead c h))
          simp [hd]

/-! ### Lengths -/

omit [DecidableEq α] in
theorem quotedLength_le {quote : String} {t : List α} {n : ℕ}
    (h : quotedLength A quote t = some n) (hquote : 0 < quote.toList.length) : n ≤ t.length := by
  rw [quotedLength] at h
  split_ifs at h with hopen
  dsimp only at h
  split_ifs at h with hclose
  obtain rfl := Option.some.inj h
  have hle := length_le_of_startsWith hclose
  rw [letters, List.length_map, List.length_drop] at hle
  omega

omit [DecidableEq α] in
theorem valueAt_le (stops : String) (t : List α) : (valueAt A stops t).2 ≤ t.length := by
  rw [valueAt]
  cases hdouble : quotedLength A "\"" t with
  | some n => exact quotedLength_le hdouble (by decide)
  | none =>
      cases hsingle : quotedLength A "'" t with
      | some n => exact quotedLength_le hsingle (by decide)
      | none => exact length_takeWhile_le _ t

theorem nameAt_le {names : List String} {q t : List α} {h : Head}
    (hname : nameAt A names q t = some h) : h.name + h.quote + h.separator ≤ t.length := by
  obtain ⟨name, -, hone⟩ := List.exists_of_findSome?_eq_some hname
  rw [oneNameAt] at hone
  split_ifs at hone with hstart
  obtain ⟨n, hn, rfl⟩ := Option.map_eq_some_iff.mp hone
  rw [Bool.and_eq_true, List.isPrefixOf_iff_prefix] at hstart
  have hname := length_le_of_startsWith hstart.1
  have hquote := hstart.2.length_le
  have hseparator := separatorLength_le hn
  rw [letters, List.length_map] at hname
  rw [List.length_drop] at hquote hseparator
  dsimp only
  omega

theorem headAt_le {names : List String} {t : List α} {h : Head}
    (hhead : headAt A names t = some h) : h.length ≤ t.length := by
  rw [headAt, Option.or_eq_some_iff] at hhead
  rcases hhead with hquoted | ⟨-, hbare⟩
  · split_ifs at hquoted with hquote
    have hname := nameAt_le hquoted
    have hlength := quote_of_nameAt hquoted
    rw [List.length_take] at hlength
    rw [List.length_drop] at hname
    rw [Head.length]
    omega
  · have hname := nameAt_le hbare
    have hlength := quote_of_nameAt hbare
    rw [List.length_nil] at hlength
    rw [Head.length]
    omega

/-! ### The match -/

/-- The pattern matches what is read from left to right. -/
theorem matchAt_namedValue (names : List String) (stops : String) (prev : Option α) (t : List α) :
    matchAt (namedValue A names stops) prev t =
      (namedAt A names stops prev t).map
        (fun (h, kind, n) => ⟨h.length + n, captures t h kind n⟩) := by
  have hk : ∀ c : Cursor α, (exec (anyOf [quoted A "\"" 4, quoted A "'" 5,
      .group 6 (star (isNotIn A (oneOf stops)))]) c some).isSome = true := by
    intro c
    rw [exec_value]
    rfl
  rw [matchAt, namedValue]
  simp only [exec_concat_cons, exec_concat_nil]
  rw [exec, namedAt]
  split_ifs with hprev
  · rfl
  · have hclass : isInI A (oneOf "\"'") = isQuote A := rfl
    rw [hclass, exec_head names hk]
    cases hhead : headAt A names t with
    | none => rfl
    | some h =>
        have hle := headAt_le hhead
        have hvalue := valueAt_le (A := A) stops (t.drop h.length)
        have hbehind : (behindHead ⟨prev, t, []⟩ h).rest = t.drop h.length := by
          simp only [behindHead, behindName, Cursor.rest_move, Cursor.rest_capture, List.drop_drop,
            Head.length, Nat.add_assoc]
        have hgroups : (behindHead ⟨prev, t, []⟩ h).groups =
            [(3, (t.drop (h.quote + h.name + h.quote)).take h.separator),
              (2, (t.drop h.quote).take h.name), (1, t.take h.quote)] := by
          simp only [behindHead, behindName, Cursor.rest_capture, List.drop_drop, Nat.add_assoc]
          rfl
        rw [List.length_drop] at hvalue
        rw [Option.bind_some, exec_value, hbehind, hgroups]
        simp only [Option.map_some, Cursor.rest_move, hbehind, List.drop_drop, List.length_drop,
          captures, Option.some.injEq, Match.mk.injEq, and_true]
        omega

end

end QeReport.Sdk.Redactor

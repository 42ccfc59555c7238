import Mathlib.Algebra.Ring.Nat
import Mathlib.Data.List.TakeWhile
import QeReport.Lib.Text

/-! # JSON values and their canonical text

`Json` is what `JSON.parse` returns.  A finite number is named by the text
`Number.prototype.toString` writes for it (`JsNumber`), so that equal numbers, `0` and `-0`
among them, are equal values; an object is the list of its members.

`stringify` is `JSON.stringify` of a primitive, with its escapes, lone surrogates included,
`jsonText` that of any value, and `canonText` the canonical text of a value: members sorted by
key in code-unit order, array order kept, no white space.  `normal` sorts the members of every object of a value, and two values are
the same up to the order of members when their normal forms are equal. -/

namespace QeReport

/-! ### Numbers -/

/-- The characters a JSON number is written with. -/
def isNumeralUnit (u : CodeUnit) : Bool :=
  (unit '0' ≤ u && u ≤ unit '9') || u == unit '-' || u == unit '+' || u == unit '.' ||
    u == unit 'e' || u == unit 'E'

def isDigit (u : CodeUnit) : Bool := unit '0' ≤ u && u ≤ unit '9'

/-- One or more digits and nothing else. -/
def isDigits (t : Text) : Bool := !t.isEmpty && t.all isDigit

/-- The exponent of a JSON number: nothing, or `e` with an optional sign and digits. -/
def isExponent : Text → Bool
  | [] => true
  | u :: t =>
      (u == unit 'e' || u == unit 'E') &&
        (match t with
          | [] => false
          | s :: ds => if s == unit '+' || s == unit '-' then isDigits ds else isDigits t)

/-- What may follow the integer part of a JSON number: a fraction and an exponent. -/
def isFraction : Text → Bool
  | [] => true
  | u :: t =>
      if u == unit '.' then isDigits (t.takeWhile isDigit) && isExponent (t.dropWhile isDigit)
      else isExponent (u :: t)

/-- A JSON number without its sign. -/
def isUnsignedNumber (t : Text) : Bool :=
  match t with
  | [] => false
  | u :: rest =>
      if u == unit '0' then isFraction rest
      else isDigit u && isFraction (rest.dropWhile isDigit)

/-- The JSON number grammar. -/
def isJsonNumber (t : Text) : Bool :=
  t.all isNumeralUnit &&
    (match t with
      | [] => false
      | u :: rest => if u == unit '-' then isUnsignedNumber rest else isUnsignedNumber t)

/-- A finite number, named by the text it is written as. -/
structure JsNumber where
  text : Text
  isNumber : isJsonNumber text = true
deriving DecidableEq

/-- The digits of a natural number read from left to right. -/
def readDigits (t : Text) : ℕ := t.foldl (fun n u => 10 * n + (u.val - 48)) 0

/-- The integer a number is, when `Number.isSafeInteger` holds of it. -/
def JsNumber.safeInteger? (n : JsNumber) : Option ℤ :=
  let value : ℤ :=
    match n.text with
    | [] => 0
    | u :: rest => if u == unit '-' then -(readDigits rest : ℤ) else readDigits n.text
  if intText value = n.text ∧ value.natAbs ≤ 9007199254740991 then some value else none

/-! ### Writing integers -/

theorem natText_eq (n : ℕ) :
    natText n = if n < 10 then [Fin.ofNat 65536 (48 + n)]
      else natText (n / 10) ++ [Fin.ofNat 65536 (48 + n % 10)] := by
  have hdigit : ∀ d < 10, encodeChar (Nat.digitChar d) = [Fin.ofNat 65536 (48 + d)] := by
    decide
  have htext : ∀ m, natText m = (Nat.toDigits 10 m).flatMap encodeChar := by
    intro m
    rw [natText, txt, Nat.toString_eq_ofList_toDigits, String.toList_ofList]
  rw [htext n]
  split_ifs with h
  · rw [Nat.toDigits_of_lt_base h, List.flatMap_singleton, hdigit n h]
  · rw [Nat.toDigits_of_base_le (by decide) (by omega), List.flatMap_append, List.flatMap_singleton,
      hdigit _ (Nat.mod_lt _ (by decide)), htext]

/-- A number below `10 ^ k` is written with at most `k` digits. -/
theorem length_natText_le {n k : ℕ} (hk : 0 < k) (h : n < 10 ^ k) : (natText n).length ≤ k := by
  induction k generalizing n with
  | zero => omega
  | succ k ih =>
      rw [natText_eq]
      split_ifs with hn
      · simp
      · rw [List.length_append, List.length_singleton]
        have hpow : 10 ^ (k + 1) = 10 * 10 ^ k := Nat.pow_succ'
        have hk0 : 0 < k := by
          apply Nat.pos_of_ne_zero
          rintro rfl
          omega
        have := ih (n := n / 10) hk0 (by omega)
        omega

theorem length_natText_pos (n : ℕ) : 0 < (natText n).length := by
  rw [natText_eq]
  split_ifs <;> simp

/-- A smaller number is not written with more digits. -/
theorem length_natText_mono {m n : ℕ} (h : m ≤ n) : (natText m).length ≤ (natText n).length := by
  induction n using Nat.strong_induction_on generalizing m with
  | _ n ih =>
      rw [natText_eq m]
      split_ifs with hm
      · exact length_natText_pos n
      · rw [natText_eq n, if_neg (by omega)]
        simpa using ih (n / 10) (by omega) (by omega)

theorem readDigits_append (t : Text) (u : CodeUnit) :
    readDigits (t ++ [u]) = 10 * readDigits t + (u.val - 48) := by
  rw [readDigits, List.foldl_append]
  rfl

theorem readDigits_natText (n : ℕ) : readDigits (natText n) = n := by
  induction n using Nat.strong_induction_on with
  | _ n ih =>
      rw [natText_eq]
      split_ifs with h
      · simp only [readDigits, List.foldl_cons, List.foldl_nil, Fin.ofNat]
        omega
      · rw [readDigits_append, ih (n / 10) (by omega)]
        simp only [Fin.ofNat]
        omega

/-- A natural number is written with digits, the first of them not zero. -/
theorem natText_cons (n : ℕ) : ∃ u t, natText n = u :: t ∧ isDigit u = true ∧
    t.all isDigit = true ∧ (u = unit '0' → n = 0 ∧ t = []) := by
  induction n using Nat.strong_induction_on with
  | _ n ih =>
      have hdigit : ∀ d < 10, isDigit (Fin.ofNat 65536 (48 + d)) = true ∧
          (Fin.ofNat 65536 (48 + d) = unit '0' → d = 0) := by
        decide
      rw [natText_eq]
      split_ifs with h
      · exact ⟨_, [], rfl, (hdigit n h).1, rfl, fun h0 => ⟨(hdigit n h).2 h0, rfl⟩⟩
      · obtain ⟨u, t, ht, hu, hall, hzero⟩ := ih (n / 10) (by omega)
        refine ⟨u, t ++ [_], by rw [ht]; rfl, hu, ?_, fun h0 => ?_⟩
        · rw [List.all_append, hall, List.all_cons, List.all_nil,
            (hdigit (n % 10) (Nat.mod_lt _ (by decide))).1]
          rfl
        · have := (hzero h0).1
          omega

theorem natText_injective : Function.Injective natText := fun m n h => by
  rw [← readDigits_natText m, h, readDigits_natText]

theorem isDigit_of_mem_natText {n : ℕ} {u : CodeUnit} (h : u ∈ natText n) : isDigit u = true := by
  obtain ⟨v, t, hn, hv, ht, -⟩ := natText_cons n
  rw [hn, List.mem_cons] at h
  rcases h with rfl | h
  · exact hv
  · exact List.all_eq_true.mp ht u h

/-- A text that ends in a number after a hyphen tells both. -/
theorem numbered_inj {s t : Text} {m n : ℕ}
    (h : s ++ unit '-' :: natText m = t ++ unit '-' :: natText n) : s = t ∧ m = n := by
  have hdigits : ∀ (s : Text) n,
      (s ++ unit '-' :: natText n).reverse.takeWhile isDigit = (natText n).reverse := by
    intro s n
    rw [List.reverse_append, List.reverse_cons, List.append_assoc, List.takeWhile_append_of_pos,
      List.singleton_append, List.takeWhile_cons_of_neg (by decide), List.append_nil]
    exact fun u hu => isDigit_of_mem_natText (List.mem_reverse.mp hu)
  obtain rfl : m = n := by
    apply natText_injective
    apply List.reverse_injective
    rw [← hdigits s m, h, hdigits]
  exact ⟨List.append_cancel_right h, rfl⟩

theorem isDigit_isNumeralUnit {u : CodeUnit} (h : isDigit u = true) : isNumeralUnit u = true := by
  unfold isDigit at h
  unfold isNumeralUnit
  rw [h]
  rfl

theorem isUnsignedNumber_natText (n : ℕ) : isUnsignedNumber (natText n) = true := by
  obtain ⟨u, t, ht, hu, hall, hzero⟩ := natText_cons n
  rw [ht, isUnsignedNumber]
  split_ifs with h0
  · rw [(hzero (by simpa using h0)).2]
    rfl
  · have hrest : t.dropWhile isDigit = [] := by
      rw [List.dropWhile_eq_nil_iff]
      exact List.all_eq_true.mp hall
    rw [hu, hrest]
    rfl

theorem natText_units (n : ℕ) : (natText n).all isNumeralUnit = true := by
  obtain ⟨u, t, ht, hu, hall, -⟩ := natText_cons n
  rw [ht, List.all_cons, isDigit_isNumeralUnit hu, Bool.true_and, List.all_eq_true]
  exact fun v hv => isDigit_isNumeralUnit (List.all_eq_true.mp hall v hv)

theorem intText_natCast (n : ℕ) : intText n = natText n := rfl

theorem intText_negSucc (n : ℕ) : intText (Int.negSucc n) = unit '-' :: natText (n + 1) := by
  have h : toString (Int.negSucc n) = "-" ++ toString (n + 1) := rfl
  rw [intText, h, txt, String.toList_append, List.flatMap_append]
  rfl

/-- Every integer is written as a JSON number. -/
theorem isJsonNumber_intText (i : ℤ) : isJsonNumber (intText i) = true := by
  cases i with
  | ofNat n =>
      have hn := isUnsignedNumber_natText n
      obtain ⟨u, t, ht, hu, -⟩ := natText_cons n
      have hu' : ¬ (u == unit '-') = true := by
        intro h
        rw [beq_iff_eq.mp h] at hu
        revert hu
        decide
      rw [Int.ofNat_eq_natCast, intText_natCast, isJsonNumber.eq_def, natText_units, Bool.true_and]
      rw [ht] at hn ⊢
      simpa only [if_neg hu'] using hn
  | negSucc n =>
      rw [intText_negSucc, isJsonNumber.eq_def, List.all_cons, natText_units]
      have hsign : isNumeralUnit (unit '-') = true := by decide
      simpa [hsign] using isUnsignedNumber_natText (n + 1)

/-- An integer as a JSON number. -/
def JsNumber.ofInt (i : ℤ) : JsNumber := ⟨intText i, isJsonNumber_intText i⟩

/-! ### Values -/

/-- A parsed JSON value. -/
inductive Json where
  | null
  | bool (b : Bool)
  | num (n : JsNumber)
  | str (s : Text)
  | arr (items : List Json)
  | obj (members : List (Text × Json))

/-- `object[key]`: the value of a member. -/
def memberOf (members : List (Text × Json)) (key : Text) : Option Json :=
  (members.find? (fun m => m.1 = key)).map Prod.snd

/-! ### Strings -/

/-- A lower-case hexadecimal digit. -/
def hexDigit (n : ℕ) : CodeUnit := if n < 10 then Fin.ofNat 65536 (48 + n) else Fin.ofNat 65536 (87 + n)

/-- The value of a hexadecimal digit in either case. -/
def hexValue (u : CodeUnit) : Option ℕ :=
  if unit '0' ≤ u && u ≤ unit '9' then some (u.val - 48)
  else if unit 'a' ≤ u && u ≤ unit 'f' then some (u.val - 87)
  else if unit 'A' ≤ u && u ≤ unit 'F' then some (u.val - 55)
  else none

/-- `\uXXXX`. -/
def escapeHex (u : CodeUnit) : Text :=
  [unit '\\', unit 'u', hexDigit (u.val / 4096), hexDigit (u.val / 256 % 16),
    hexDigit (u.val / 16 % 16), hexDigit (u.val % 16)]

/-- One code unit inside a quoted string, a surrogate taken as a lone one. -/
def escapeUnit (u : CodeUnit) : Text :=
  if u == unit '"' then [unit '\\', unit '"']
  else if u == unit '\\' then [unit '\\', unit '\\']
  else if u == 8 then [unit '\\', unit 'b']
  else if u == 12 then [unit '\\', unit 'f']
  else if u == 10 then [unit '\\', unit 'n']
  else if u == 13 then [unit '\\', unit 'r']
  else if u == 9 then [unit '\\', unit 't']
  else if u < 0x20 || isHighSurrogate u || isLowSurrogate u then escapeHex u
  else [u]

/-- The units between the quotes of `JSON.stringify(s)`. -/
def quoteUnits : Text → Text
  | [] => []
  | [u] => escapeUnit u
  | u :: v :: t =>
      if isHighSurrogate u && isLowSurrogate v then u :: v :: quoteUnits t
      else escapeUnit u ++ quoteUnits (v :: t)

/-- `JSON.stringify` of a string. -/
def quote (s : Text) : Text := unit '"' :: (quoteUnits s ++ [unit '"'])

/-- `JSON.stringify` of a value that is neither an array nor an object. -/
def stringify : Json → Text
  | .null => txt "null"
  | .bool true => txt "true"
  | .bool false => txt "false"
  | .num n => n.text
  | .str s => quote s
  | .arr _ => []
  | .obj _ => []

/-- The order of object keys. -/
def compareKeys {α : Type} (a b : Text × α) : Ordering := compare a.1 b.1

/-- Texts separated by commas. -/
def commaSeparated : List Text → Text
  | [] => []
  | [t] => t
  | t :: ts => t ++ unit ',' :: commaSeparated ts

/-- A member with its text. -/
def memberText (m : Text × Text) : Text := quote m.1 ++ unit ':' :: m.2

mutual

/-- The canonical text of a value. -/
def canonText : Json → Text
  | .arr items => unit '[' :: (commaSeparated (canonTexts items) ++ [unit ']'])
  | .obj members =>
      unit '\x7b' :: (commaSeparated ((sortBy compareKeys (canonMembers members)).map memberText) ++
        [unit '\x7d'])
  | .null => stringify .null
  | .bool b => stringify (.bool b)
  | .num n => stringify (.num n)
  | .str s => stringify (.str s)

def canonTexts : List Json → List Text
  | [] => []
  | v :: vs => canonText v :: canonTexts vs

def canonMembers : List (Text × Json) → List (Text × Text)
  | [] => []
  | (k, v) :: ms => (k, canonText v) :: canonMembers ms

end

mutual

/-- `JSON.stringify`: the members of an object in their own order. -/
def jsonText : Json → Text
  | .arr items => unit '[' :: (commaSeparated (jsonTexts items) ++ [unit ']'])
  | .obj members =>
      unit '\x7b' :: (commaSeparated ((jsonMembers members).map memberText) ++ [unit '\x7d'])
  | .null => stringify .null
  | .bool b => stringify (.bool b)
  | .num n => stringify (.num n)
  | .str s => stringify (.str s)

def jsonTexts : List Json → List Text
  | [] => []
  | v :: vs => jsonText v :: jsonTexts vs

def jsonMembers : List (Text × Json) → List (Text × Text)
  | [] => []
  | (k, v) :: ms => (k, jsonText v) :: jsonMembers ms

end

mutual

/-- The value with the members of every object sorted by key. -/
def Json.normal : Json → Json
  | .arr items => .arr (normalItems items)
  | .obj members => .obj (sortBy compareKeys (normalMembers members))
  | v => v

def normalItems : List Json → List Json
  | [] => []
  | v :: vs => v.normal :: normalItems vs

def normalMembers : List (Text × Json) → List (Text × Json)
  | [] => []
  | (k, v) :: ms => (k, v.normal) :: normalMembers ms

end

end QeReport

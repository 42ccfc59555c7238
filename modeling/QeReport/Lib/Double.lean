import Mathlib.Data.Int.Log
import Mathlib.Data.Rat.Floor
import Mathlib.Tactic.Positivity
import QeReport.Lib.Json

/-! # Numbers read as doubles

`JSON.parse` reads every number of a text as the double nearest to the decimal that is written
(`double`), ties to even.  Whole numbers below `2 ^ 53` are read exactly (`double_of_lt`), and no
other whole number is read as one of them (`le_double`).

A number of a text is named by its lexeme, so `JsNumber.value` is the rational the lexeme
denotes, and `asDoubles` turns the tree of a text into what `JSON.parse` returns for it. -/

namespace QeReport

/-! ### Rounding -/

/-- The nearest integer, and the even one of two that are equally near. -/
def roundHalfEven (q : ℚ) : ℤ :=
  if q - ⌊q⌋ < 1 / 2 then ⌊q⌋
  else if 1 / 2 < q - ⌊q⌋ then ⌊q⌋ + 1
  else if ⌊q⌋ % 2 = 0 then ⌊q⌋ else ⌊q⌋ + 1

/-- The exponent of the last bit of a double near `q`. -/
def lastBit (q : ℚ) : ℤ := max (Int.log 2 |q| - 52) (-1074)

/-- The double nearest to `q`, without a largest one: what would be infinite stays large. -/
def double (q : ℚ) : ℚ := roundHalfEven (q / 2 ^ lastBit q) * 2 ^ lastBit q

theorem roundHalfEven_intCast (k : ℤ) : roundHalfEven k = k := by
  simp [roundHalfEven]

theorem roundHalfEven_eq (q : ℚ) : roundHalfEven q = ⌊q⌋ ∨ roundHalfEven q = ⌈q⌉ := by
  have hceil : ¬ q - ⌊q⌋ < 1 / 2 → ⌈q⌉ = ⌊q⌋ + 1 := by
    intro h
    have hlt := Int.lt_floor_add_one q
    rw [Int.ceil_eq_iff]
    push_cast
    constructor
    · linarith
    · linarith
  unfold roundHalfEven
  split_ifs with h h' h''
  · exact .inl rfl
  · exact .inr (hceil h).symm
  · exact .inl rfl
  · exact .inr (hceil h).symm

/-- Rounding does not pass an integer. -/
theorem le_abs_roundHalfEven {q : ℚ} {m : ℤ} (h : (m : ℚ) ≤ |q|) : m ≤ |roundHalfEven q| := by
  rcases le_abs.mp h with h | h
  · have hfloor : m ≤ ⌊q⌋ := Int.le_floor.mpr h
    have hceil : m ≤ ⌈q⌉ := hfloor.trans (Int.floor_le_ceil q)
    rcases roundHalfEven_eq q with he | he
    · exact le_abs.mpr (.inl (he ▸ hfloor))
    · exact le_abs.mpr (.inl (he ▸ hceil))
  · have hceil : ⌈q⌉ ≤ -m := Int.ceil_le.mpr (by push_cast; linarith)
    have hfloor : ⌊q⌋ ≤ -m := (Int.floor_le_ceil q).trans hceil
    rcases roundHalfEven_eq q with he | he
    · exact le_abs.mpr (.inr (by rw [he]; omega))
    · exact le_abs.mpr (.inr (by rw [he]; omega))

theorem double_of_lt {i : ℤ} (h : |i| < 2 ^ 53) : double i = i := by
  have hbit : lastBit i ≤ 0 := by
    rw [lastBit, ← Int.cast_abs, ← Int.natCast_natAbs, Int.cast_natCast, Int.log_natCast]
    have hlog : Nat.log 2 i.natAbs ≤ 52 := by
      have : i.natAbs < 2 ^ 53 := by zify; exact h
      exact Nat.lt_succ_iff.mp (Nat.log_lt_of_lt_pow' (by decide) this)
    omega
  obtain ⟨n, hn⟩ := Int.eq_ofNat_of_zero_le (neg_nonneg.mpr hbit)
  have hexp : lastBit i = -n := by omega
  have hscaled : (i : ℚ) / 2 ^ lastBit i = ((i * 2 ^ n : ℤ) : ℚ) := by
    rw [hexp, zpow_neg, zpow_natCast, div_inv_eq_mul]
    push_cast
    rfl
  rw [double, hscaled, roundHalfEven_intCast, hexp]
  push_cast
  rw [zpow_neg, zpow_natCast, mul_assoc, mul_inv_cancel₀ (by positivity), mul_one]

theorem abs_pos_of_le {i : ℤ} (h : 2 ^ 53 ≤ |i|) : (0 : ℚ) < |(i : ℚ)| := by
  rw [← Int.cast_abs]
  have : (0 : ℤ) < |i| := lt_of_lt_of_le (by norm_num) h
  exact_mod_cast this

theorem le_log {i : ℤ} (h : 2 ^ 53 ≤ |i|) : (53 : ℤ) ≤ Int.log 2 |(i : ℚ)| := by
  refine (Int.zpow_le_iff_le_log (by decide) (abs_pos_of_le h)).mp ?_
  rw [← Int.cast_abs]
  exact_mod_cast h

/-- A whole number from `2 ^ 53` on is not read as a smaller one. -/
theorem le_double {i : ℤ} (h : 2 ^ 53 ≤ |i|) : (2 : ℚ) ^ 53 ≤ |double i| := by
  have hpos := abs_pos_of_le h
  have hlog := le_log h
  have hbit : lastBit i = Int.log 2 |(i : ℚ)| - 52 := by
    rw [lastBit]
    omega
  have hunit : (0 : ℚ) < 2 ^ lastBit i := zpow_pos two_pos _
  have hscaled : ((2 ^ 52 : ℤ) : ℚ) ≤ |(i : ℚ) / 2 ^ lastBit i| := by
    rw [abs_div, abs_of_pos hunit, le_div_iff₀ hunit, hbit]
    have hle : ((2 : ℕ) : ℚ) ^ Int.log 2 |(i : ℚ)| ≤ |(i : ℚ)| :=
      Int.zpow_log_le_self (by decide) hpos
    have hsplit : ((2 ^ 52 : ℤ) : ℚ) * 2 ^ (Int.log 2 |(i : ℚ)| - 52) =
        2 ^ Int.log 2 |(i : ℚ)| := by
      rw [zpow_sub₀ (by norm_num)]
      push_cast
      ring
    rw [hsplit]
    exact_mod_cast hle
  have hround := le_abs_roundHalfEven hscaled
  have hround' : ((2 : ℚ) ^ 52) ≤ |(roundHalfEven ((i : ℚ) / 2 ^ lastBit i) : ℚ)| := by
    rw [← Int.cast_abs]
    exact_mod_cast hround
  have hpow : (2 : ℚ) ^ 1 ≤ 2 ^ lastBit i := by
    rw [← zpow_natCast]
    exact zpow_le_zpow_right₀ (by norm_num) (by rw [hbit]; omega)
  rw [double, abs_mul, abs_of_pos hunit]
  calc (2 : ℚ) ^ 53 = 2 ^ 52 * 2 ^ 1 := by norm_num
    _ ≤ _ := mul_le_mul hround' hpow (by positivity) (abs_nonneg _)

theorem double_nonneg {q : ℚ} (h : 0 ≤ q) : 0 ≤ double q := by
  have hunit : (0 : ℚ) < 2 ^ lastBit q := zpow_pos two_pos _
  have hscaled : 0 ≤ q / 2 ^ lastBit q := div_nonneg h hunit.le
  have hround : 0 ≤ roundHalfEven (q / 2 ^ lastBit q) := by
    rcases roundHalfEven_eq (q / 2 ^ lastBit q) with he | he
    · rw [he]
      exact Int.floor_nonneg.mpr hscaled
    · rw [he]
      exact Int.ceil_nonneg hscaled
  exact mul_nonneg (by exact_mod_cast hround) hunit.le

/-- A negative whole number is read as a negative one. -/
theorem double_neg {i : ℤ} (h : i < 0) : double i < 0 := by
  by_cases hsmall : |i| < 2 ^ 53
  · rw [double_of_lt hsmall]
    exact_mod_cast h
  have hunit : (0 : ℚ) < 2 ^ lastBit i := zpow_pos two_pos _
  have hscaled : (i : ℚ) / 2 ^ lastBit i ≤ 0 :=
    div_nonpos_of_nonpos_of_nonneg (by exact_mod_cast h.le) hunit.le
  have hround : roundHalfEven ((i : ℚ) / 2 ^ lastBit i) ≤ 0 := by
    rcases roundHalfEven_eq ((i : ℚ) / 2 ^ lastBit i) with he | he
    · rw [he]
      exact (Int.floor_le_ceil _).trans (Int.ceil_le.mpr (by exact_mod_cast hscaled))
    · rw [he]
      exact Int.ceil_le.mpr (by exact_mod_cast hscaled)
  have hle : double i ≤ 0 := mul_nonpos_of_nonpos_of_nonneg (by exact_mod_cast hround) hunit.le
  refine lt_of_le_of_ne hle fun hzero => ?_
  have hlarge := le_double (not_lt.mp hsmall)
  rw [hzero, abs_zero] at hlarge
  exact absurd hlarge (by norm_num)

/-- What a whole number is read as is whole. -/
theorem double_whole (i : ℤ) : ∃ j : ℤ, double i = j := by
  by_cases hsmall : |i| < 2 ^ 53
  · exact ⟨i, double_of_lt hsmall⟩
  have hlog := le_log (not_lt.mp hsmall)
  obtain ⟨n, hn⟩ := Int.eq_ofNat_of_zero_le (show 0 ≤ lastBit i by rw [lastBit]; omega)
  refine ⟨roundHalfEven ((i : ℚ) / 2 ^ lastBit i) * 2 ^ n, ?_⟩
  rw [double, hn, zpow_natCast]
  push_cast
  rfl

/-! ### Lexemes -/

/-- The exponent after `e`, with its sign. -/
def exponentValue : Text → ℤ
  | [] => 0
  | _ :: [] => 0
  | _ :: s :: ds =>
      if s == unit '-' then -(readDigits ds : ℤ)
      else if s == unit '+' then readDigits ds
      else readDigits (s :: ds)

/-- The number an unsigned lexeme denotes: its digits, moved by its exponent. -/
def unsignedValue (t : Text) : ℚ :=
  let whole := t.takeWhile isDigit
  match t.dropWhile isDigit with
  | [] => readDigits whole
  | u :: rest =>
      if u == unit '.' then
        let fraction := rest.takeWhile isDigit
        readDigits (whole ++ fraction) *
          10 ^ (exponentValue (rest.dropWhile isDigit) - fraction.length)
      else readDigits whole * 10 ^ exponentValue (u :: rest)

/-- The number a lexeme denotes. -/
def JsNumber.value (n : JsNumber) : ℚ :=
  match n.text with
  | [] => 0
  | u :: rest => if u == unit '-' then -unsignedValue rest else unsignedValue n.text

/-- The lexeme has neither a fraction nor an exponent. -/
def JsNumber.isPlain (n : JsNumber) : Bool :=
  match n.text with
  | [] => false
  | u :: rest => if u == unit '-' then rest.all isDigit else n.text.all isDigit

/-- The integer a plain lexeme denotes. -/
def JsNumber.integer (n : JsNumber) : ℤ :=
  match n.text with
  | [] => 0
  | u :: rest => if u == unit '-' then -(readDigits rest : ℤ) else readDigits n.text

/-- The safe integer `JSON.parse` reads the lexeme as, if it is one. -/
def JsNumber.parsed? (n : JsNumber) : Option ℤ :=
  let d := double n.value
  if d.den = 1 ∧ d.num.natAbs ≤ 9007199254740991 then some d.num else none

theorem unsignedValue_digits {t : Text} (h : t.all isDigit = true) :
    unsignedValue t = readDigits t := by
  have hall : ∀ u ∈ t, isDigit u = true := List.all_eq_true.mp h
  have hdrop : t.dropWhile isDigit = [] := List.dropWhile_eq_nil_iff.mpr hall
  have htake : t.takeWhile isDigit = t := List.takeWhile_eq_self_iff.mpr hall
  rw [unsignedValue, hdrop, htake]

theorem JsNumber.value_of_plain {n : JsNumber} (h : n.isPlain = true) : n.value = n.integer := by
  unfold JsNumber.isPlain at h
  unfold JsNumber.value JsNumber.integer
  cases ht : n.text with
  | nil => rfl
  | cons u rest =>
      rw [ht] at h
      dsimp only at h ⊢
      split_ifs at h ⊢ with hu
      · rw [unsignedValue_digits h]
        push_cast
        rfl
      · rw [unsignedValue_digits h]
        rfl

/-- A plain lexeme is read exactly, or not as a safe integer at all. -/
theorem JsNumber.parsed?_of_plain {n : JsNumber} (h : n.isPlain = true) :
    n.parsed? = if n.integer.natAbs ≤ 9007199254740991 then some n.integer else none := by
  unfold JsNumber.parsed?
  rw [n.value_of_plain h]
  split_ifs with hsafe
  · have hlt : |n.integer| < 2 ^ 53 := by
      rw [← Int.natCast_natAbs]
      omega
    dsimp only
    rw [double_of_lt hlt, Rat.den_intCast, Rat.num_intCast, if_pos ⟨rfl, hsafe⟩]
  · have hle : 2 ^ 53 ≤ |n.integer| := by
      rw [← Int.natCast_natAbs]
      omega
    dsimp only
    rw [if_neg]
    rintro ⟨hden, hnum⟩
    have hbig := le_double hle
    rw [← Rat.coe_int_num_of_den_eq_one hden, ← Int.cast_abs, ← Int.natCast_natAbs] at hbig
    have hbig' : 2 ^ 53 ≤ (double n.integer).num.natAbs := by exact_mod_cast hbig
    omega

/-- The lexeme of an integer is plain and denotes it. -/
theorem JsNumber.plain_ofInt (i : ℤ) :
    (JsNumber.ofInt i).isPlain = true ∧ (JsNumber.ofInt i).integer = i := by
  have hsign : ∀ u : CodeUnit, isDigit u = true → (u == unit '-') = false := by
    intro u hu
    by_contra hc
    rw [Bool.not_eq_false, beq_iff_eq] at hc
    rw [hc] at hu
    revert hu
    decide
  unfold JsNumber.isPlain JsNumber.integer
  cases i with
  | ofNat n =>
      have htext : (JsNumber.ofInt (Int.ofNat n)).text = natText n := intText_natCast n
      obtain ⟨u, t, ht, hu, hall, -⟩ := natText_cons n
      have hdigits := readDigits_natText n
      rw [htext]
      rw [ht] at hdigits ⊢
      simp only [hsign u hu, Bool.false_eq_true, if_false, hdigits, List.all_cons, hu, hall]
      exact ⟨rfl, rfl⟩
  | negSucc n =>
      have htext : (JsNumber.ofInt (Int.negSucc n)).text = unit '-' :: natText (n + 1) :=
        intText_negSucc n
      obtain ⟨u, t, ht, hu, hall, -⟩ := natText_cons (n + 1)
      have hall' : (natText (n + 1)).all isDigit = true := by simp [ht, hu, hall]
      rw [htext]
      simp only [beq_self_eq_true, if_true, readDigits_natText, hall']
      exact ⟨trivial, rfl⟩

theorem JsNumber.parsed?_ofInt (i : ℤ) :
    (JsNumber.ofInt i).parsed? = if i.natAbs ≤ 9007199254740991 then some i else none := by
  rw [JsNumber.parsed?_of_plain (JsNumber.plain_ofInt i).1, (JsNumber.plain_ofInt i).2]

theorem JsNumber.parsed?_safe {n : JsNumber} {i : ℤ} (h : n.parsed? = some i) :
    i.natAbs ≤ 9007199254740991 := by
  unfold JsNumber.parsed? at h
  dsimp only at h
  split_ifs at h with hd
  rw [← Option.some.inj h]
  exact hd.2

/-! ### Trees -/

/-- The integers a JSON number is read back as. -/
def isSafe (i : ℤ) : Prop := i.natAbs ≤ 9007199254740991

instance (i : ℤ) : Decidable (isSafe i) := Nat.decLe ..

theorem safeInteger?_ofInt (i : ℤ) :
    (JsNumber.ofInt i).safeInteger? = if isSafe i then some i else none := by
  have hif : ∀ value : ℤ, value = i →
      (if intText value = (JsNumber.ofInt i).text ∧ value.natAbs ≤ 9007199254740991 then some value
        else none) = if isSafe i then some i else none := by
    rintro value rfl
    have htext : intText value = (JsNumber.ofInt value).text := rfl
    simp only [htext, true_and]
    rfl
  exact hif _ (JsNumber.plain_ofInt i).2

/-- The number `JSON.parse` returns; one that is no safe integer keeps its lexeme. -/
def JsNumber.asDouble (n : JsNumber) : JsNumber := (n.parsed?.map JsNumber.ofInt).getD n

theorem JsNumber.safeInteger?_asDouble (n : JsNumber) : n.asDouble.safeInteger? = n.parsed? := by
  cases hp : n.parsed? with
  | some i =>
      rw [JsNumber.asDouble, hp, Option.map_some, Option.getD_some, safeInteger?_ofInt,
        if_pos (show isSafe i from JsNumber.parsed?_safe hp)]
  | none =>
      rw [JsNumber.asDouble, hp, Option.map_none, Option.getD_none]
      cases hs : n.safeInteger? with
      | none => rfl
      | some i =>
          have htext : intText i = n.text ∧ i.natAbs ≤ 9007199254740991 := by
            unfold JsNumber.safeInteger? at hs
            dsimp only at hs
            split_ifs at hs with h
            rw [← Option.some.inj hs]
            exact h
          obtain rfl : JsNumber.ofInt i = n := by
            cases n
            simp only [JsNumber.ofInt, JsNumber.mk.injEq]
            exact htext.1
          rw [JsNumber.parsed?_ofInt, if_pos htext.2] at hp
          cases hp

mutual

/-- What `JSON.parse` returns for the tree of a text. -/
def asDoubles : Json → Json
  | .num n => .num n.asDouble
  | .arr items => .arr (asDoublesItems items)
  | .obj members => .obj (asDoublesMembers members)
  | v => v

def asDoublesItems : List Json → List Json
  | [] => []
  | v :: vs => asDoubles v :: asDoublesItems vs

def asDoublesMembers : List (Text × Json) → List (Text × Json)
  | [] => []
  | (k, v) :: ms => (k, asDoubles v) :: asDoublesMembers ms

end

end QeReport

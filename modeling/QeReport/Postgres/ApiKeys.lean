import QeReport.Lib.Utf8
import Mathlib.Data.Nat.Digits.Lemmas
import Mathlib.Tactic.LinearCombination

/-! # API key tokens

The secret and the public id of a key are written in base32.  Writing collects the bits of the
bytes in a 32-bit integer that is never cleared, reading in one of which twelve bits are kept; the
bits that are still needed are the lowest `bits` ones, and both loops keep them.  The two are read
as numbers in base 256 and base 32: a text spells the number of the bytes, followed by as many zero
bits as fill its last character. -/

namespace QeReport.Postgres

/-- A byte of a `Buffer`. -/
abbrev Byte := Fin 256

/-! ### Writing -/

/-- `ALPHABET`. -/
def alphabet : Text := txt "abcdefghijklmnopqrstuvwxyz234567"

/-- `ALPHABET[n]`. -/
def letter (n : BitVec 32) : CodeUnit := alphabet.getD n.toNat 0

/-- The inner loop: the digits of the complete groups of five bits, and how many bits are left. -/
def emit (value : BitVec 32) : ℕ → List (BitVec 32) × ℕ
  | bits + 5 =>
      let (digits, left) := emit value bits
      (((value >>> bits) &&& 31) :: digits, left)
  | bits => ([], bits)

/-- The digits of the bytes, with `bits` bits of `value` still to write. -/
def base32Digits : List Byte → ℕ → BitVec 32 → List (BitVec 32)
  | [], bits, value => if 0 < bits then [(value <<< (5 - bits)) &&& 31] else []
  | byte :: bytes, bits, value =>
      let value := (value <<< 8) ||| BitVec.ofNat 32 byte.val
      let (digits, bits) := emit value (bits + 8)
      digits ++ base32Digits bytes bits value

/-- `base32(bytes)`. -/
def base32 (bytes : List Byte) : Text := (base32Digits bytes 0 0).map letter

/-! ### Reading -/

/-- `ALPHABET.indexOf(char)`, nothing for -1. -/
def digit? (char : ℕ) : Option ℕ := alphabet.findIdx? (fun u => u.val = char)

/-- The loop over the characters: the buffer, and the value and the number of the leftover bits. -/
def readDigits : List ℕ → List Byte → (index bits : ℕ) → BitVec 32 →
    Option (List Byte × ℕ × BitVec 32)
  | [], out, _, bits, value => some (out, bits, value)
  | char :: chars, out, index, bits, value =>
      match digit? char with
      | none => none
      | some digit =>
          let value := ((value <<< 5) ||| BitVec.ofNat 32 digit) &&& 0xfff
          if 8 ≤ bits + 5 then
            let byte := (value >>> (bits + 5 - 8)) &&& 0xff
            readDigits chars (out.set index (Fin.ofNat 256 byte.toNat)) (index + 1) (bits + 5 - 8) value
          else readDigits chars out index (bits + 5) value

/-- `unbase32(text, length)`. -/
def unbase32 (text : Text) (length : ℕ) : Option (List Byte) :=
  if text.length ≠ (length * 8 + 4) / 5 then none
  else
    match readDigits (points text) (List.replicate length 0) 0 0 0 with
    | none => none
    | some (out, bits, value) => if value &&& (((1 : BitVec 32) <<< bits) - 1) ≠ 0 then none else some out

/-! ### Tokens -/

/-- `[a-z2-7]`. -/
def isBase32 (u : CodeUnit) : Bool :=
  (unit 'a' ≤ u && u ≤ unit 'z') || (unit '2' ≤ u && u ≤ unit '7')

/-- `TOKEN.exec(token)`: the public id and the secret. -/
def tokenParts (token : Text) : Option (Text × Text) :=
  let publicId := (token.drop 7).take 16
  let secret := token.drop 24
  if token.take 7 = txt "qer_k1_" ∧ publicId.length = 16 ∧ publicId.all isBase32 = true ∧
      (token.drop 23).take 1 = txt "_" ∧ secret.length = 52 ∧ secret.all isBase32 = true then
    some (publicId, secret)
  else none

/-- `parseApiKeyToken(token)`: the public id and the bytes of the secret. -/
def parseApiKeyToken (token : Text) : Option (Text × List Byte) :=
  match tokenParts token with
  | none => none
  | some (publicId, text) =>
      match unbase32 text 32, unbase32 publicId 10 with
      | some secret, some _ => some (publicId, secret)
      | _, _ => none

/-! ### Numbers -/

/-- The number that digits spell, the highest first. -/
def number (b : ℕ) (digits : List ℕ) : ℕ := Nat.ofDigits b digits.reverse

@[simp] theorem number_nil (b : ℕ) : number b [] = 0 := rfl

theorem number_cons (b d : ℕ) (digits : List ℕ) :
    number b (d :: digits) = d * b ^ digits.length + number b digits := by
  rw [number, List.reverse_cons, Nat.ofDigits_append, List.length_reverse, Nat.ofDigits_singleton,
    number]
  ring

theorem number_append (b : ℕ) (xs ys : List ℕ) :
    number b (xs ++ ys) = number b xs * b ^ ys.length + number b ys := by
  rw [number, List.reverse_append, Nat.ofDigits_append, List.length_reverse, number, number]
  ring

theorem number_injective {b : ℕ} (hb : 1 < b) {xs ys : List ℕ} (hlength : xs.length = ys.length)
    (hxs : ∀ d ∈ xs, d < b) (hys : ∀ d ∈ ys, d < b) (h : number b xs = number b ys) : xs = ys := by
  apply List.reverse_injective
  apply Nat.ofDigits_inj_of_len_eq hb _ _ _ h
  · rw [List.length_reverse, List.length_reverse, hlength]
  · intro d hd
    exact hxs d (List.mem_reverse.mp hd)
  · intro d hd
    exact hys d (List.mem_reverse.mp hd)

/-! ### Bits -/

theorem toNat_and_mask (value : BitVec 32) {k : ℕ} {mask : BitVec 32}
    (hmask : mask.toNat = 2 ^ k - 1) : (value &&& mask).toNat = value.toNat % 2 ^ k := by
  rw [BitVec.toNat_and, hmask, Nat.and_two_pow_sub_one_eq_mod]

/-- A byte behind the bits of a value. -/
theorem toNat_push (value : BitVec 32) {k d : ℕ} (hk : k ≤ 32) (hd : d < 2 ^ k) :
    ((value <<< k) ||| BitVec.ofNat 32 d).toNat = value.toNat * 2 ^ k % 2 ^ 32 + d := by
  have hd' : d < 2 ^ 32 := Nat.lt_of_lt_of_le hd (Nat.pow_le_pow_right (by decide) hk)
  have hmul : value.toNat * 2 ^ k % 2 ^ 32 = 2 ^ k * (value.toNat % 2 ^ (32 - k)) := by
    have hsplit : 2 ^ 32 = 2 ^ k * 2 ^ (32 - k) := by
      rw [← Nat.pow_add, Nat.add_sub_cancel' hk]
    rw [hsplit, Nat.mul_comm value.toNat, Nat.mul_mod_mul_left]
  rw [BitVec.toNat_or, BitVec.toNat_shiftLeft, BitVec.toNat_ofNat, Nat.mod_eq_of_lt hd',
    Nat.shiftLeft_eq, hmul, Nat.two_pow_add_eq_or_of_lt hd]

/-- The lowest bits of a value and of what is pushed behind it. -/
theorem push_mod (value : BitVec 32) {k d bits : ℕ} (hd : d < 2 ^ k) (hbits : bits + k ≤ 32) :
    ((value <<< k) ||| BitVec.ofNat 32 d).toNat % 2 ^ (bits + k) =
      value.toNat % 2 ^ bits * 2 ^ k + d := by
  have hk : k ≤ 32 := by omega
  have hdvd : 2 ^ (bits + k) ∣ 2 ^ 32 := Nat.pow_dvd_pow 2 hbits
  have hlow : (value.toNat * 2 ^ k + d) % 2 ^ k = d := by
    rw [Nat.add_comm, Nat.add_mul_mod_self_right, Nat.mod_eq_of_lt hd]
  have hhigh : (value.toNat * 2 ^ k + d) / 2 ^ k = value.toNat := by
    rw [Nat.add_comm, Nat.add_mul_div_right _ _ (Nat.two_pow_pos k), Nat.div_eq_of_lt hd,
      Nat.zero_add]
  rw [toNat_push value hk hd, Nat.add_mod, Nat.mod_mod_of_dvd _ hdvd, ← Nat.add_mod, Nat.pow_add,
    Nat.mul_comm (2 ^ bits), Nat.mod_mul, hlow, hhigh]
  ring

/-- The digits of a list of values. -/
def numbers (digits : List (BitVec 32)) : List ℕ := digits.map BitVec.toNat

/-- The complete groups hold all but the lowest bits. -/
theorem emit_spec (value : BitVec 32) (bits : ℕ) :
    (emit value bits).2 = bits % 5 ∧ (emit value bits).1.length = bits / 5 ∧
      (∀ d ∈ (emit value bits).1, d.toNat < 32) ∧
      number 32 (numbers (emit value bits).1) * 2 ^ (bits % 5) + value.toNat % 2 ^ (bits % 5) =
        value.toNat % 2 ^ bits := by
  induction bits using Nat.strongRecOn with
  | _ bits ih =>
      rcases Nat.lt_or_ge bits 5 with hlt | hge
      · have hemit : emit value bits = ([], bits) := by
          rcases bits with _ | _ | _ | _ | _ | n
          · rfl
          · rfl
          · rfl
          · rfl
          · rfl
          · omega
        rw [hemit, Nat.mod_eq_of_lt hlt, Nat.div_eq_of_lt hlt]
        simp [numbers]
      · obtain ⟨n, rfl⟩ : ∃ n, bits = n + 5 := ⟨bits - 5, by omega⟩
        obtain ⟨hleft, hlength, hdigits, hnumber⟩ := ih n (by omega)
        have hdigit : ((value >>> n) &&& 31).toNat = value.toNat / 2 ^ n % 32 := by
          have hmask : ((value >>> n) &&& 31).toNat = (value >>> n).toNat % 32 :=
            toNat_and_mask (k := 5) _ rfl
          rw [hmask, BitVec.toNat_ushiftRight, Nat.shiftRight_eq_div_pow]
        have hemit : emit value (n + 5) =
            (((value >>> n) &&& 31) :: (emit value n).1, (emit value n).2) := rfl
        have hmod : (n + 5) % 5 = n % 5 := Nat.add_mod_right n 5
        rw [hemit, hmod]
        refine ⟨hleft, ?_, ?_, ?_⟩
        · rw [List.length_cons, hlength]
          omega
        · intro d hd
          rcases List.mem_cons.mp hd with rfl | hd
          · rw [hdigit]
            exact Nat.mod_lt _ (by decide)
          · exact hdigits d hd
        · have hpow : 32 ^ (n / 5) * 2 ^ (n % 5) = 2 ^ n := by
            rw [show 32 = 2 ^ 5 from rfl, ← Nat.pow_mul, ← Nat.pow_add, Nat.div_add_mod]
          rw [numbers, List.map_cons, number_cons, List.length_map, hlength, hdigit, Nat.add_mul,
            Nat.mul_assoc, hpow, Nat.add_assoc]
          rw [numbers] at hnumber
          rw [hnumber, Nat.pow_add, Nat.mod_mul]
          ring

/-- The bytes of a buffer as numbers. -/
def octets (bytes : List Byte) : List ℕ := bytes.map Fin.val

/-- What is written spells the lowest bits of the value and the bytes, filled up with zeros. -/
theorem base32Digits_spec (bytes : List Byte) (bits : ℕ) (value : BitVec 32) (hbits : bits < 5) :
    (base32Digits bytes bits value).length = (8 * bytes.length + bits + 4) / 5 ∧
      (∀ d ∈ base32Digits bytes bits value, d.toNat < 32) ∧
      number 32 (numbers (base32Digits bytes bits value)) =
        (value.toNat % 2 ^ bits * 256 ^ bytes.length + number 256 (octets bytes)) *
          2 ^ (5 * ((8 * bytes.length + bits + 4) / 5) - (8 * bytes.length + bits)) := by
  induction bytes generalizing bits value with
  | nil =>
      have hplace : 5 * ((8 * ([] : List Byte).length + bits + 4) / 5) -
          (8 * ([] : List Byte).length + bits) = if 0 < bits then 5 - bits else 0 := by
        rw [List.length_nil]
        split_ifs <;> omega
      rw [base32Digits, hplace]
      split_ifs with hpos
      · -- the last digit is filled up with zeros
        have hmask : ((value <<< (5 - bits)) &&& 31).toNat = (value <<< (5 - bits)).toNat % 32 :=
          toNat_and_mask (k := 5) _ rfl
        have hfill : ∀ v : ℕ, v * 2 ^ (5 - bits) % 32 = v % 2 ^ bits * 2 ^ (5 - bits) := by
          intro v
          have hsplit : 32 = 2 ^ bits * 2 ^ (5 - bits) := by
            rw [← Nat.pow_add, Nat.add_sub_cancel' (Nat.le_of_lt hbits)]
          rw [hsplit, Nat.mul_mod_mul_right]
        have hdigit : ((value <<< (5 - bits)) &&& 31).toNat =
            value.toNat % 2 ^ bits * 2 ^ (5 - bits) := by
          have hdvd : 32 ∣ 2 ^ 32 := ⟨2 ^ 27, rfl⟩
          rw [hmask, BitVec.toNat_shiftLeft, Nat.shiftLeft_eq, Nat.mod_mod_of_dvd _ hdvd, hfill]
        refine ⟨?_, ?_, ?_⟩
        · rw [List.length_singleton, List.length_nil]
          omega
        · intro d hd
          rw [List.mem_singleton.mp hd, hmask]
          exact Nat.mod_lt _ (by decide)
        · rw [numbers, List.map_singleton, number_cons, hdigit]
          simp [octets]
      · obtain rfl : bits = 0 := by omega
        simp [numbers, octets, Nat.mod_one]
  | cons byte bytes ih =>
      have hpush := push_mod value (k := 8) byte.isLt (show bits + 8 ≤ 32 by omega)
      obtain ⟨hleft, hlength, hdigits, hnumber⟩ :=
        emit_spec ((value <<< 8) ||| BitVec.ofNat 32 byte.val) (bits + 8)
      rw [hpush] at hnumber
      have hdef : base32Digits (byte :: bytes) bits value =
          (emit ((value <<< 8) ||| BitVec.ofNat 32 byte.val) (bits + 8)).1 ++
            base32Digits bytes (emit ((value <<< 8) ||| BitVec.ofNat 32 byte.val) (bits + 8)).2
              ((value <<< 8) ||| BitVec.ofNat 32 byte.val) := rfl
      rw [hdef, hleft]
      generalize (emit ((value <<< 8) ||| BitVec.ofNat 32 byte.val) (bits + 8)).1 = digits at *
      generalize (value <<< 8) ||| BitVec.ofNat 32 byte.val = pushed at *
      obtain ⟨hrest, hrestDigits, hrestNumber⟩ := ih ((bits + 8) % 5) pushed (Nat.mod_lt _ (by decide))
      generalize base32Digits bytes ((bits + 8) % 5) pushed = rest at *
      have hsum : (bits + 8) / 5 + (8 * bytes.length + (bits + 8) % 5 + 4) / 5 =
          (8 * (byte :: bytes).length + bits + 4) / 5 := by
        rw [List.length_cons]
        omega
      refine ⟨?_, ?_, ?_⟩
      · rw [List.length_append, hlength, hrest, hsum]
      · intro d hd
        rcases List.mem_append.mp hd with hd | hd
        · exact hdigits d hd
        · exact hrestDigits d hd
      · have hplace : 5 * ((8 * (byte :: bytes).length + bits + 4) / 5) -
            (8 * (byte :: bytes).length + bits) =
            5 * ((8 * bytes.length + (bits + 8) % 5 + 4) / 5) -
              (8 * bytes.length + (bits + 8) % 5) := by
          rw [List.length_cons]
          omega
        have hpow : 32 ^ rest.length = 2 ^ ((bits + 8) % 5) * 256 ^ bytes.length *
            2 ^ (5 * ((8 * bytes.length + (bits + 8) % 5 + 4) / 5) -
              (8 * bytes.length + (bits + 8) % 5)) := by
          have h32 : (32 : ℕ) = 2 ^ 5 := rfl
          have h256 : (256 : ℕ) = 2 ^ 8 := rfl
          rw [hrest, h32, h256, ← Nat.pow_mul, ← Nat.pow_mul, ← Nat.pow_add, ← Nat.pow_add]
          congr 1
          omega
        rw [numbers] at hnumber hrestNumber
        rw [numbers, List.map_append, number_append, List.length_map, hrestNumber, hplace, hpow]
        simp only [octets, List.map_cons, number_cons, List.length_map, List.length_cons,
          Nat.pow_succ]
        generalize 2 ^ (5 * ((8 * bytes.length + (bits + 8) % 5 + 4) / 5) -
          (8 * bytes.length + (bits + 8) % 5)) = fill
        generalize 256 ^ bytes.length = scale
        have hscaled := congrArg (· * scale * fill) hnumber
        linear_combination hscaled

/-! ### What is read -/

/-- A byte that is written behind the first ones of a buffer. -/
theorem take_set_succ {out : List Byte} {index : ℕ} (h : index < out.length) (byte : Byte) :
    (out.set index byte).take (index + 1) = out.take index ++ [byte] := by
  rw [List.set_eq_take_append_cons_drop, if_pos h, List.take_append, List.take_take,
    List.length_take, Nat.min_eq_right (Nat.le_succ index), Nat.min_eq_left (Nat.le_of_lt h)]
  simp

theorem digit?_lt {char d : ℕ} (h : digit? char = some d) :
    d < 32 ∧ (letter (BitVec.ofNat 32 d)).val = char := by
  obtain ⟨hlt, heq, -⟩ := List.findIdx?_eq_some_iff_getElem.mp h
  have hlength : alphabet.length = 32 := by decide
  rw [hlength] at hlt
  refine ⟨hlt, ?_⟩
  rw [letter, BitVec.toNat_ofNat, Nat.mod_eq_of_lt (Nat.lt_trans hlt (by decide)),
    List.getD_eq_getElem?_getD, List.getElem?_eq_getElem (by omega), Option.getD_some]
  exact of_decide_eq_true heq

theorem digit?_letter {d : BitVec 32} (h : d.toNat < 32) :
    digit? (letter d).val = some d.toNat := by
  have hall : ∀ n < 32, digit? (alphabet.getD n 0).val = some n := by decide
  exact hall d.toNat h

/-- A digit behind the bits of which twelve are kept. -/
theorem toNat_keep (value : BitVec 32) {d bits : ℕ} (hd : d < 32) (hbits : bits < 8) :
    (((value <<< 5) ||| BitVec.ofNat 32 d) &&& 0xfff).toNat % 2 ^ (bits + 5) =
      value.toNat % 2 ^ bits * 32 + d := by
  have hmask : (((value <<< 5) ||| BitVec.ofNat 32 d) &&& 0xfff).toNat =
      ((value <<< 5) ||| BitVec.ofNat 32 d).toNat % 2 ^ 12 := toNat_and_mask (k := 12) _ rfl
  have hdvd : 2 ^ (bits + 5) ∣ 2 ^ 12 := Nat.pow_dvd_pow 2 (by omega)
  rw [hmask, Nat.mod_mod_of_dvd _ hdvd]
  exact push_mod value (k := 5) hd (by omega)

/-- The characters that are read spell the bytes that are written and the bits left over. -/
theorem readDigits_spec (chars : List ℕ) {digits : List ℕ} (hdigits : chars.mapM digit? = some digits)
    (out : List Byte) (index bits : ℕ) (value : BitVec 32) (hbits : bits < 8)
    (hroom : index + (5 * digits.length + bits) / 8 ≤ out.length) :
    ∃ bytes left, readDigits chars out index bits value =
        some (out.take index ++ bytes ++ out.drop (index + bytes.length),
          (5 * digits.length + bits) % 8, left) ∧
      bytes.length = (5 * digits.length + bits) / 8 ∧
      value.toNat % 2 ^ bits * 32 ^ digits.length + number 32 digits =
        number 256 (octets bytes) * 2 ^ ((5 * digits.length + bits) % 8) +
          left.toNat % 2 ^ ((5 * digits.length + bits) % 8) := by
  induction chars generalizing digits out index bits value with
  | nil =>
      obtain rfl : digits = [] := by simpa using hdigits.symm
      refine ⟨[], value, ?_, ?_, ?_⟩
      · simp [readDigits, Nat.mod_eq_of_lt hbits]
      · simp [Nat.div_eq_of_lt hbits]
      · simp [octets, Nat.mod_eq_of_lt hbits]
  | cons char chars ih =>
      rw [List.mapM_cons] at hdigits
      obtain ⟨d, hd, hdigits⟩ := Option.bind_eq_some_iff.mp hdigits
      obtain ⟨ds, hds, hdigits⟩ := Option.bind_eq_some_iff.mp hdigits
      obtain rfl := Option.some.inj hdigits
      have hkeep := toNat_keep value (digit?_lt hd).1 hbits
      rw [readDigits, hd]
      dsimp only
      generalize ((value <<< 5) ||| BitVec.ofNat 32 d) &&& 0xfff = kept at hkeep ⊢
      rw [List.length_cons] at hroom ⊢
      split_ifs with hfull
      · -- a byte is complete
        obtain ⟨left, rfl⟩ : ∃ left, bits = left + 3 := ⟨bits - 3, by omega⟩
        have hleft : left + 3 + 5 - 8 = left := by omega
        have hbyte : ((kept >>> left) &&& 0xff).toNat = kept.toNat / 2 ^ left % 256 := by
          have hmask : ((kept >>> left) &&& 0xff).toNat = (kept >>> left).toNat % 256 :=
            toNat_and_mask (k := 8) _ rfl
          rw [hmask, BitVec.toNat_ushiftRight, Nat.shiftRight_eq_div_pow]
        obtain ⟨bytes, rest, hread, hlength, hnumber⟩ := ih hds
          (out.set index (Fin.ofNat 256 ((kept >>> left) &&& 0xff).toNat)) (index + 1) left kept
          (by omega) (by rw [List.length_set]; omega)
        have hindex : index < out.length := by omega
        have hmod : (5 * (ds.length + 1) + (left + 3)) % 8 = (5 * ds.length + left) % 8 := by omega
        rw [hleft, hread, take_set_succ hindex, hmod]
        refine ⟨Fin.ofNat 256 ((kept >>> left) &&& 0xff).toNat :: bytes, rest, ?_, ?_, ?_⟩
        · rw [List.drop_set_of_lt (by omega), List.length_cons, List.append_assoc]
          simp [Nat.add_assoc, Nat.add_comm 1]
        · rw [List.length_cons, hlength]
          omega
        · have hvalue : (Fin.ofNat 256 ((kept >>> left) &&& 0xff).toNat).val =
              kept.toNat / 2 ^ left % 256 := by
            rw [Fin.val_ofNat, hbyte, Nat.mod_mod]
          have hsplit : kept.toNat % 2 ^ (left + 3 + 5) =
              kept.toNat % 2 ^ left + 2 ^ left * (kept.toNat / 2 ^ left % 256) := by
            rw [Nat.add_assoc, Nat.pow_add, Nat.mod_mul]
          have hpow : 256 ^ bytes.length * 2 ^ ((5 * ds.length + left) % 8) =
              2 ^ left * 32 ^ ds.length := by
            have h32 : (32 : ℕ) = 2 ^ 5 := rfl
            have h256 : (256 : ℕ) = 2 ^ 8 := rfl
            rw [hlength, h32, h256, ← Nat.pow_mul, ← Nat.pow_mul, ← Nat.pow_add, ← Nat.pow_add]
            congr 1
            omega
          rw [hsplit] at hkeep
          simp only [octets, List.map_cons, number_cons, List.length_map, hvalue]
          rw [octets] at hnumber
          generalize value.toNat % 2 ^ (left + 3) = low at hkeep ⊢
          have hscaled := congrArg (· * 32 ^ ds.length) hkeep
          have hbytes := congrArg (kept.toNat / 2 ^ left % 256 * ·) hpow
          linear_combination hnumber - hscaled - hbytes
      · -- the bits go on to the next character
        obtain ⟨bytes, rest, hread, hlength, hnumber⟩ := ih hds out index (bits + 5) kept
          (by omega) (by omega)
        have hsum : 5 * (ds.length + 1) + bits = 5 * ds.length + (bits + 5) := by omega
        rw [hread, hsum]
        refine ⟨bytes, rest, rfl, hlength, ?_⟩
        rw [← hnumber, number_cons, hkeep, Nat.pow_succ]
        ring

theorem mapM_of_readDigits {chars : List ℕ} {out : List Byte} {index bits : ℕ} {value : BitVec 32}
    {result : List Byte × ℕ × BitVec 32}
    (h : readDigits chars out index bits value = some result) :
    ∃ digits, chars.mapM digit? = some digits := by
  induction chars generalizing out index bits value with
  | nil => exact ⟨[], rfl⟩
  | cons char chars ih =>
      rw [readDigits] at h
      cases hd : digit? char with
      | none => simp [hd] at h
      | some d =>
          simp only [hd] at h
          split_ifs at h
          · obtain ⟨digits, hdigits⟩ := ih h
            exact ⟨d :: digits, by rw [List.mapM_cons, hd, hdigits]; rfl⟩
          · obtain ⟨digits, hdigits⟩ := ih h
            exact ⟨d :: digits, by rw [List.mapM_cons, hd, hdigits]; rfl⟩

/-! ### Texts of the alphabet -/

theorem letter_bounds (d : BitVec 32) : letter d < 0xD800 := by
  have hall : alphabet.all (fun u => u < 0xD800) = true := by decide
  rw [letter, List.getD_eq_getElem?_getD]
  cases h : alphabet[d.toNat]? with
  | none =>
      rw [Option.getD_none]
      decide
  | some u => exact of_decide_eq_true (List.all_eq_true.mp hall u (List.mem_of_getElem? h))

/-- Characters of one unit are read as they stand. -/
theorem points_units {t : Text} (h : ∀ u ∈ t, u < 0xD800) : points t = t.map Fin.val := by
  induction t with
  | nil => rfl
  | cons u t ih =>
      obtain ⟨hu, ht⟩ := List.forall_mem_cons.mp h
      cases t with
      | nil => rfl
      | cons v t =>
          have hhigh : isHighSurrogate u = false := by
            rw [isHighSurrogate, Bool.and_eq_false_iff, decide_eq_false_iff_not]
            exact .inl (Nat.not_le.mpr hu)
          rw [points, hhigh, Bool.false_and, if_neg Bool.false_ne_true, ih ht]
          rfl

theorem encodePoint_digits {chars digits : List ℕ} (h : chars.mapM digit? = some digits) :
    (∀ d ∈ digits, d < 32) ∧
      chars.flatMap encodePoint = digits.map (fun d => letter (BitVec.ofNat 32 d)) := by
  induction chars generalizing digits with
  | nil =>
      obtain rfl : digits = [] := by simpa using h.symm
      exact ⟨fun d hd => absurd hd List.not_mem_nil, rfl⟩
  | cons char chars ih =>
      rw [List.mapM_cons] at h
      obtain ⟨d, hd, h⟩ := Option.bind_eq_some_iff.mp h
      obtain ⟨ds, hds, h⟩ := Option.bind_eq_some_iff.mp h
      obtain rfl := Option.some.inj h
      obtain ⟨hlt, hchar⟩ := digit?_lt hd
      obtain ⟨hdigits, htext⟩ := ih hds
      refine ⟨List.forall_mem_cons.mpr ⟨hlt, hdigits⟩, ?_⟩
      rw [List.flatMap_cons, htext, ← hchar, encodePoint_unit]
      rfl

theorem mapM_letters {digits : List (BitVec 32)} (h : ∀ d ∈ digits, d.toNat < 32) :
    ((digits.map letter).map Fin.val).mapM digit? = some (numbers digits) := by
  induction digits with
  | nil => rfl
  | cons d digits ih =>
      obtain ⟨hd, hdigits⟩ := List.forall_mem_cons.mp h
      rw [List.map_cons, List.map_cons, List.mapM_cons, digit?_letter hd, ih hdigits]
      rfl

/-! ### The two are inverse -/

/-- A text that is long enough for `n` bytes has less than a character too much. -/
theorem leftover (n : ℕ) : 5 * ((8 * n + 4) / 5) / 8 = n ∧
    5 * ((8 * n + 4) / 5) % 8 = 5 * ((8 * n + 4) / 5) - 8 * n := by omega

theorem and_leftover {value : BitVec 32} {bits : ℕ} (h : bits < 8) :
    value &&& (((1 : BitVec 32) <<< bits) - 1) = 0 ↔ value.toNat % 2 ^ bits = 0 := by
  have hmask : ∀ bits < 8, ((1 : BitVec 32) <<< bits - 1).toNat = 2 ^ bits - 1 := by decide
  rw [← toNat_and_mask value (hmask bits h)]
  constructor
  · intro hzero
    rw [hzero]
    rfl
  · intro hzero
    exact BitVec.eq_of_toNat_eq hzero

/-- The number a text of bytes spells; no bit of it is lost. -/
theorem base32_number (bytes : List Byte) : number 32 (numbers (base32Digits bytes 0 0)) =
    number 256 (octets bytes) * 2 ^ (5 * ((8 * bytes.length + 4) / 5) - 8 * bytes.length) := by
  have h := (base32Digits_spec bytes 0 0 (by decide)).2.2
  rw [Nat.add_zero] at h
  rw [h]
  simp

theorem length_base32Digits (bytes : List Byte) :
    (base32Digits bytes 0 0).length = (8 * bytes.length + 4) / 5 :=
  (base32Digits_spec bytes 0 0 (by decide)).1

theorem base32Digits_lt (bytes : List Byte) : ∀ d ∈ base32Digits bytes 0 0, d.toNat < 32 :=
  (base32Digits_spec bytes 0 0 (by decide)).2.1

theorem octets_lt (bytes : List Byte) : ∀ d ∈ octets bytes, d < 256 := by
  intro d hd
  obtain ⟨byte, -, rfl⟩ := List.mem_map.mp hd
  exact byte.isLt

theorem octets_injective {xs ys : List Byte} (h : octets xs = octets ys) : xs = ys :=
  List.map_injective_iff.mpr Fin.val_injective h

/-- What is made of as many characters as `n` bytes need. -/
theorem readDigits_all {chars digits : List ℕ} {n : ℕ} (hdigits : chars.mapM digit? = some digits)
    (hlength : digits.length = (8 * n + 4) / 5) :
    ∃ bytes left, readDigits chars (List.replicate n 0) 0 0 0 =
        some (bytes, 5 * ((8 * n + 4) / 5) % 8, left) ∧ bytes.length = n ∧
      number 32 digits = number 256 (octets bytes) * 2 ^ (5 * ((8 * n + 4) / 5) % 8) +
        left.toNat % 2 ^ (5 * ((8 * n + 4) / 5) % 8) := by
  obtain ⟨hfull, -⟩ := leftover n
  obtain ⟨bytes, left, hread, hbytes, hnumber⟩ := readDigits_spec chars hdigits
    (List.replicate n 0) 0 0 0 (by decide) (by rw [List.length_replicate, hlength]; omega)
  simp only [hlength, Nat.add_zero] at hread hbytes hnumber
  rw [hfull] at hbytes
  refine ⟨bytes, left, ?_, hbytes, ?_⟩
  · rw [hread, Nat.zero_add, hbytes, List.drop_of_length_le (by rw [List.length_replicate])]
    simp
  · rw [← hnumber]
    simp

theorem unbase32_base32 (bytes : List Byte) :
    unbase32 (base32 bytes) bytes.length = some bytes := by
  have hpoints : points (base32 bytes) = (base32 bytes).map Fin.val := by
    apply points_units
    intro u hu
    obtain ⟨d, -, rfl⟩ := List.mem_map.mp hu
    exact letter_bounds d
  have hdigits := mapM_letters (base32Digits_lt bytes)
  have hlength := length_base32Digits bytes
  obtain ⟨read, left, hread, hreadLength, hnumber⟩ := readDigits_all (n := bytes.length) hdigits
    (by rw [numbers, List.length_map, hlength])
  obtain ⟨-, hfill⟩ := leftover bytes.length
  rw [base32_number, ← hfill] at hnumber
  -- both numbers are less than the filling apart, so nothing is left over
  have hleft : left.toNat % 2 ^ (5 * ((8 * bytes.length + 4) / 5) % 8) = 0 := by
    have hmod := congrArg (· % 2 ^ (5 * ((8 * bytes.length + 4) / 5) % 8)) hnumber
    rw [Nat.mul_mod_left, Nat.add_comm, Nat.add_mul_mod_self_right, Nat.mod_mod] at hmod
    exact hmod.symm
  rw [hleft, Nat.add_zero] at hnumber
  have hsame : read = bytes := by
    apply octets_injective
    apply number_injective (b := 256) (by decide) _ (octets_lt read) (octets_lt bytes)
    · exact (Nat.eq_of_mul_eq_mul_right (Nat.two_pow_pos _) hnumber).symm
    · rw [octets, octets, List.length_map, List.length_map, hreadLength]
  have hsize : (base32 bytes).length = (bytes.length * 8 + 4) / 5 := by
    rw [base32, List.length_map, hlength, Nat.mul_comm]
  have hbits := Nat.mod_lt (5 * ((8 * bytes.length + 4) / 5)) (y := 8) (by decide)
  rw [unbase32, if_neg (not_not.mpr hsize), hpoints, base32, hread, hsame]
  dsimp only
  rw [if_neg (not_not.mpr ((and_leftover hbits).mpr hleft))]

theorem base32_of_unbase32 {t : Text} {n : ℕ} {bytes : List Byte}
    (h : unbase32 t n = some bytes) : t = base32 bytes ∧ bytes.length = n := by
  rw [unbase32] at h
  split_ifs at h with hsize
  rw [not_not, Nat.mul_comm] at hsize
  cases hread : readDigits (points t) (List.replicate n 0) 0 0 0 with
  | none =>
      rw [hread] at h
      cases h
  | some result =>
      obtain ⟨digits, hdigits⟩ := mapM_of_readDigits hread
      obtain ⟨hlt, htext⟩ := encodePoint_digits hdigits
      rw [points_encode] at htext
      have hcount : digits.length = (8 * n + 4) / 5 := by
        rw [← hsize, htext, List.length_map]
      obtain ⟨read, left, hall, hlength, hnumber⟩ := readDigits_all hdigits hcount
      obtain rfl := Option.some.inj (hread.symm.trans hall)
      rw [hread] at h
      dsimp only at h
      split_ifs at h with hleft
      obtain rfl := Option.some.inj h
      have hbits := Nat.mod_lt (5 * ((8 * n + 4) / 5)) (y := 8) (by decide)
      rw [not_not, and_leftover hbits] at hleft
      rw [hleft, Nat.add_zero, (leftover n).2] at hnumber
      have hsame : numbers (base32Digits read 0 0) = digits := by
        apply number_injective (b := 32) (by decide) _ _ hlt
        · rw [base32_number, hnumber, hlength]
        · rw [numbers, List.length_map, length_base32Digits, hcount, hlength]
        · intro d hd
          obtain ⟨digit, hdigit, rfl⟩ := List.mem_map.mp hd
          exact base32Digits_lt read digit hdigit
      refine ⟨?_, hlength⟩
      rw [htext, ← hsame, base32, numbers, List.map_map]
      apply List.map_congr_left
      intro d _
      rw [Function.comp_apply, BitVec.ofNat_toNat, BitVec.setWidth_eq]

theorem unbase32_eq_some_iff {t : Text} {n : ℕ} {bytes : List Byte} :
    unbase32 t n = some bytes ↔ t = base32 bytes ∧ bytes.length = n := by
  constructor
  · exact base32_of_unbase32
  · rintro ⟨rfl, rfl⟩
    exact unbase32_base32 bytes

example : base32 [0xff, 0, 0x5a] = txt "74afu" := by decide

example : unbase32 (txt "74afu") 3 = some [0xff, 0, 0x5a] := by decide

example : unbase32 (txt "74afv") 3 = none := by decide

/-! ### Tokens have one spelling -/

theorem isBase32_letter (bytes : List Byte) : (base32 bytes).all isBase32 = true := by
  have hall : ∀ n < 32, isBase32 (alphabet.getD n 0) = true := by decide
  apply List.all_eq_true.mpr
  intro u hu
  obtain ⟨d, hd, rfl⟩ := List.mem_map.mp hu
  exact hall d.toNat (base32Digits_lt bytes d hd)

/-- A token of a public id and a secret. -/
def tokenOf (publicId secret : Text) : Text := txt "qer_k1_" ++ publicId ++ txt "_" ++ secret

theorem tokenParts_eq_some_iff {token publicId secret : Text} :
    tokenParts token = some (publicId, secret) ↔
      publicId.length = 16 ∧ publicId.all isBase32 = true ∧ secret.length = 52 ∧
        secret.all isBase32 = true ∧ token = tokenOf publicId secret := by
  have hprefix : (txt "qer_k1_").length = 7 := by decide
  have hunderscore : (txt "_").length = 1 := by decide
  constructor
  · intro h
    rw [tokenParts] at h
    split_ifs at h with hparts
    obtain ⟨rfl, rfl⟩ := Prod.mk.inj (Option.some.inj h)
    obtain ⟨hstart, hid, hidAll, hmark, hsecret, hsecretAll⟩ := hparts
    refine ⟨hid, hidAll, hsecret, hsecretAll, ?_⟩
    rw [tokenOf, ← hstart, ← hmark, ← List.take_add, ← List.take_add, List.take_append_drop]
  · rintro ⟨hid, hidAll, hsecret, hsecretAll, rfl⟩
    have hdrop7 : (tokenOf publicId secret).drop 7 = publicId ++ (txt "_" ++ secret) := by
      rw [tokenOf, List.append_assoc, List.append_assoc, ← hprefix, List.drop_left]
    have hdrop23 : (tokenOf publicId secret).drop 23 = txt "_" ++ secret := by
      rw [← List.drop_drop (i := 16) (j := 7), hdrop7, ← hid, List.drop_left]
    have hdrop24 : (tokenOf publicId secret).drop 24 = secret := by
      rw [← List.drop_drop (i := 1) (j := 23), hdrop23, ← hunderscore, List.drop_left]
    have htake7 : (tokenOf publicId secret).take 7 = txt "qer_k1_" := by
      rw [tokenOf, List.append_assoc, List.append_assoc, ← hprefix, List.take_left]
    have htake16 : ((tokenOf publicId secret).drop 7).take 16 = publicId := by
      rw [hdrop7, ← hid, List.take_left]
    have htake1 : ((tokenOf publicId secret).drop 23).take 1 = txt "_" := by
      rw [hdrop23, ← hunderscore, List.take_left]
    rw [tokenParts, htake16, hdrop24, htake7, htake1, if_pos ⟨rfl, hid, hidAll, rfl, hsecret, hsecretAll⟩]

/-- Reading is exactly inverse to writing, and so a token is the one spelling of its key. -/
theorem base32_exact :
    (∀ bytes : List Byte, unbase32 (base32 bytes) bytes.length = some bytes) ∧
      (∀ t n bytes, unbase32 t n = some bytes ↔ t = base32 bytes ∧ bytes.length = n) ∧
      (∀ t n, (unbase32 t n).isSome = true ↔ ∃ bytes, t = base32 bytes ∧ bytes.length = n) ∧
      (∀ token publicId secret, parseApiKeyToken token = some (publicId, secret) ↔
        (∃ id : List Byte, publicId = base32 id ∧ id.length = 10) ∧ secret.length = 32 ∧
          token = tokenOf publicId (base32 secret)) ∧
      ∀ bytes, number 32 (numbers (base32Digits bytes 0 0)) = number 256 (octets bytes) *
        2 ^ (5 * ((8 * bytes.length + 4) / 5) - 8 * bytes.length) := by
  refine ⟨unbase32_base32, fun t n bytes => unbase32_eq_some_iff, ?_, ?_, base32_number⟩
  · intro t n
    rw [Option.isSome_iff_exists]
    exact exists_congr (fun bytes => unbase32_eq_some_iff)
  · intro token publicId secret
    constructor
    · intro h
      rw [parseApiKeyToken] at h
      cases hparts : tokenParts token with
      | none =>
          rw [hparts] at h
          cases h
      | some parts =>
          obtain ⟨id, text⟩ := parts
          rw [hparts] at h
          dsimp only at h
          cases hsecret : unbase32 text 32 with
          | none => simp [hsecret] at h
          | some bytes =>
              cases hid : unbase32 id 10 with
              | none => simp [hsecret, hid] at h
              | some idBytes =>
                  simp only [hsecret, hid, Option.some.injEq, Prod.mk.injEq] at h
                  obtain ⟨rfl, rfl⟩ := h
                  obtain ⟨-, -, -, -, htoken⟩ := tokenParts_eq_some_iff.mp hparts
                  obtain ⟨rfl, hlength⟩ := unbase32_eq_some_iff.mp hsecret
                  exact ⟨⟨idBytes, unbase32_eq_some_iff.mp hid⟩, hlength, htoken⟩
    · rintro ⟨⟨id, rfl, hid⟩, hsecret, rfl⟩
      have hlength : ∀ bytes : List Byte, (base32 bytes).length = (8 * bytes.length + 4) / 5 := by
        intro bytes
        rw [base32, List.length_map, length_base32Digits]
      have hparts := tokenParts_eq_some_iff.mpr ⟨by rw [hlength, hid], isBase32_letter id,
        by rw [hlength, hsecret], isBase32_letter secret, rfl⟩
      rw [parseApiKeyToken, hparts]
      dsimp only
      rw [unbase32_eq_some_iff.mpr ⟨rfl, hsecret⟩, unbase32_eq_some_iff.mpr ⟨rfl, hid⟩]

end QeReport.Postgres

import QeReport.Lib.Text

/-! # base64url

Bytes as unpadded base64url: `Buffer.toString('base64url')` and, for texts of the alphabet,
`Buffer.from(text, 'base64url')`.  Four characters stand for three bytes, and a last group of two
or three characters for one or two; a last character that stands alone is dropped. -/

namespace QeReport.Base64

def alphabet : Text := txt "ABCDEFGHIJKLMNOPQRSTUVWXYZabcdefghijklmnopqrstuvwxyz0123456789-_"

def letter (n : ℕ) : CodeUnit := alphabet.getD n 0

def digit (u : CodeUnit) : ℕ := alphabet.idxOf u

/-- `[A-Za-z0-9_-]`. -/
def isLetter (u : CodeUnit) : Bool :=
  (unit 'A' ≤ u && u ≤ unit 'Z') || (unit 'a' ≤ u && u ≤ unit 'z') ||
    (unit '0' ≤ u && u ≤ unit '9') || u == unit '_' || u == unit '-'

def encode : List ℕ → Text
  | a :: b :: c :: rest =>
      letter (a / 4) :: letter (a % 4 * 16 + b / 16) :: letter (b % 16 * 4 + c / 64) ::
        letter (c % 64) :: encode rest
  | [a, b] => [letter (a / 4), letter (a % 4 * 16 + b / 16), letter (b % 16 * 4)]
  | [a] => [letter (a / 4), letter (a % 4 * 16)]
  | [] => []

def decode : Text → List ℕ
  | w :: x :: y :: z :: rest =>
      (digit w * 4 + digit x / 16) :: (digit x % 16 * 16 + digit y / 4) ::
        (digit y % 4 * 64 + digit z) :: decode rest
  | [w, x, y] => [digit w * 4 + digit x / 16, digit x % 16 * 16 + digit y / 4]
  | [w, x] => [digit w * 4 + digit x / 16]
  | _ => []

theorem digit_letter {n : ℕ} (h : n < 64) : digit (letter n) = n := by
  have hall : ∀ n < 64, digit (letter n) = n := by decide +kernel
  exact hall n h

theorem isLetter_letter {n : ℕ} (h : n < 64) : isLetter (letter n) = true := by
  have hall : ∀ n < 64, isLetter (letter n) = true := by decide +kernel
  exact hall n h

theorem decode_encode {bytes : List ℕ} (h : ∀ b ∈ bytes, b < 256) :
    decode (encode bytes) = bytes := by
  induction bytes using encode.induct with
  | case1 a b c rest ih =>
    have ha := h a (by simp)
    have hb := h b (by simp)
    have hc := h c (by simp)
    rw [encode, decode, ih fun b hb => h b (by simp [hb])]
    simp only [digit_letter (show a / 4 < 64 by omega),
      digit_letter (show a % 4 * 16 + b / 16 < 64 by omega),
      digit_letter (show b % 16 * 4 + c / 64 < 64 by omega),
      digit_letter (show c % 64 < 64 by omega), List.cons.injEq, and_true]
    omega
  | case2 a b =>
    have ha := h a (by simp)
    have hb := h b (by simp)
    rw [encode, decode]
    simp only [digit_letter (show a / 4 < 64 by omega),
      digit_letter (show a % 4 * 16 + b / 16 < 64 by omega),
      digit_letter (show b % 16 * 4 < 64 by omega), List.cons.injEq, and_true]
    omega
  | case3 a =>
    have ha := h a (by simp)
    rw [encode, decode]
    simp only [digit_letter (show a / 4 < 64 by omega),
      digit_letter (show a % 4 * 16 < 64 by omega), List.cons.injEq, and_true]
    omega
  | case4 => rfl

theorem encode_injective {s t : List ℕ} (hs : ∀ b ∈ s, b < 256) (ht : ∀ b ∈ t, b < 256)
    (h : encode s = encode t) : s = t := by
  rw [← decode_encode hs, h, decode_encode ht]

theorem isLetter_encode {bytes : List ℕ} (h : ∀ b ∈ bytes, b < 256) :
    ∀ u ∈ encode bytes, isLetter u = true := by
  induction bytes using encode.induct with
  | case1 a b c rest ih =>
    have ha := h a (by simp)
    have hb := h b (by simp)
    have hc := h c (by simp)
    intro u hu
    simp only [encode, List.mem_cons] at hu
    rcases hu with rfl | rfl | rfl | rfl | hu
    · exact isLetter_letter (by omega)
    · exact isLetter_letter (by omega)
    · exact isLetter_letter (by omega)
    · exact isLetter_letter (by omega)
    · exact ih (fun b hb => h b (by simp [hb])) u hu
  | case2 a b =>
    have ha := h a (by simp)
    have hb := h b (by simp)
    intro u hu
    simp only [encode, List.mem_cons, List.not_mem_nil, or_false] at hu
    rcases hu with rfl | rfl | rfl
    · exact isLetter_letter (by omega)
    · exact isLetter_letter (by omega)
    · exact isLetter_letter (by omega)
  | case3 a =>
    have ha := h a (by simp)
    intro u hu
    simp only [encode, List.mem_cons, List.not_mem_nil, or_false] at hu
    rcases hu with rfl | rfl
    · exact isLetter_letter (by omega)
    · exact isLetter_letter (by omega)
  | case4 => exact nofun

theorem length_encode_le (bytes : List ℕ) : 3 * (encode bytes).length ≤ 4 * bytes.length + 2 := by
  induction bytes using encode.induct with
  | case1 a b c rest ih =>
    simp only [encode, List.length_cons]
    omega
  | case2 a b => simp [encode]
  | case3 a => simp [encode]
  | case4 => simp [encode]

theorem encode_ne_nil {bytes : List ℕ} (h : bytes ≠ []) : encode bytes ≠ [] := by
  unfold encode
  split
  · exact List.cons_ne_nil _ _
  · exact List.cons_ne_nil _ _
  · exact List.cons_ne_nil _ _
  · exact absurd rfl h

end QeReport.Base64

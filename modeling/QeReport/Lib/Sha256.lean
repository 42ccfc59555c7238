import QeReport.Lib.Json

/-! # SHA-256

SHA-256 of a sequence of bytes, written in lower-case hexadecimal: the digest that
`createHash('sha256').update(bytes).digest('hex')` gives.  Words are natural numbers below
`2 ^ 32`. -/

namespace QeReport

/-! ### The compression function -/

namespace Sha256

def word (n : ℕ) : ℕ := n % 4294967296

/-- Rotation of a word to the right. -/
def rotr (n x : ℕ) : ℕ := word (x >>> n ||| x <<< (32 - n))

def complement (x : ℕ) : ℕ := 4294967295 - x

def bigSigma0 (x : ℕ) : ℕ := rotr 2 x ^^^ rotr 13 x ^^^ rotr 22 x

def bigSigma1 (x : ℕ) : ℕ := rotr 6 x ^^^ rotr 11 x ^^^ rotr 25 x

def smallSigma0 (x : ℕ) : ℕ := rotr 7 x ^^^ rotr 18 x ^^^ x >>> 3

def smallSigma1 (x : ℕ) : ℕ := rotr 17 x ^^^ rotr 19 x ^^^ x >>> 10

def choose (x y z : ℕ) : ℕ := (x &&& y) ^^^ (complement x &&& z)

def majority (x y z : ℕ) : ℕ := (x &&& y) ^^^ (x &&& z) ^^^ (y &&& z)

def roundConstants : List ℕ :=
  [0x428a2f98, 0x71374491, 0xb5c0fbcf, 0xe9b5dba5, 0x3956c25b, 0x59f111f1, 0x923f82a4,
    0xab1c5ed5, 0xd807aa98, 0x12835b01, 0x243185be, 0x550c7dc3, 0x72be5d74, 0x80deb1fe,
    0x9bdc06a7, 0xc19bf174, 0xe49b69c1, 0xefbe4786, 0x0fc19dc6, 0x240ca1cc, 0x2de92c6f,
    0x4a7484aa, 0x5cb0a9dc, 0x76f988da, 0x983e5152, 0xa831c66d, 0xb00327c8, 0xbf597fc7,
    0xc6e00bf3, 0xd5a79147, 0x06ca6351, 0x14292967, 0x27b70a85, 0x2e1b2138, 0x4d2c6dfc,
    0x53380d13, 0x650a7354, 0x766a0abb, 0x81c2c92e, 0x92722c85, 0xa2bfe8a1, 0xa81a664b,
    0xc24b8b70, 0xc76c51a3, 0xd192e819, 0xd6990624, 0xf40e3585, 0x106aa070, 0x19a4c116,
    0x1e376c08, 0x2748774c, 0x34b0bcb5, 0x391c0cb3, 0x4ed8aa4a, 0x5b9cca4f, 0x682e6ff3,
    0x748f82ee, 0x78a5636f, 0x84c87814, 0x8cc70208, 0x90befffa, 0xa4506ceb, 0xbef9a3f7,
    0xc67178f2]

/-- The eight words of a chaining value. -/
structure State where
  a : ℕ
  b : ℕ
  c : ℕ
  d : ℕ
  e : ℕ
  f : ℕ
  g : ℕ
  h : ℕ

def initial : State where
  a := 0x6a09e667
  b := 0xbb67ae85
  c := 0x3c6ef372
  d := 0xa54ff53a
  e := 0x510e527f
  f := 0x9b05688c
  g := 0x1f83d9ab
  h := 0x5be0cd19

/-- The message schedule from its last sixteen words, the oldest first. -/
def schedule : ℕ → List ℕ → List ℕ
  | 0, _ => []
  | n + 1, window =>
      let next := word (smallSigma1 (window.getD 14 0) + window.getD 9 0 +
        smallSigma0 (window.getD 1 0) + window.getD 0 0)
      window.getD 0 0 :: schedule n (window.tail ++ [next])

def round (s : State) (k w : ℕ) : State :=
  let t1 := s.h + bigSigma1 s.e + choose s.e s.f s.g + k + w
  let t2 := bigSigma0 s.a + majority s.a s.b s.c
  ⟨word (t1 + t2), s.a, s.b, s.c, word (s.d + t1), s.e, s.f, s.g⟩

def rounds : State → List ℕ → List ℕ → State
  | s, k :: ks, w :: ws => rounds (round s k w) ks ws
  | s, _, _ => s

def compress (s : State) (block : List ℕ) : State :=
  let r := rounds s roundConstants (schedule 64 block)
  ⟨word (s.a + r.a), word (s.b + r.b), word (s.c + r.c), word (s.d + r.d),
    word (s.e + r.e), word (s.f + r.f), word (s.g + r.g), word (s.h + r.h)⟩

/-- Four bytes as a word. -/
def wordsOf : List ℕ → List ℕ
  | a :: b :: c :: d :: rest => (((a * 256 + b) * 256 + c) * 256 + d) :: wordsOf rest
  | _ => []

/-- The padded message: a one bit, zeros, and the length in bits as eight bytes. -/
def pad (bytes : List ℕ) : List ℕ :=
  let bits := 8 * bytes.length
  bytes ++ 0x80 :: List.replicate ((119 - bytes.length % 64) % 64) 0 ++
    [bits / 2 ^ 56 % 256, bits / 2 ^ 48 % 256, bits / 2 ^ 40 % 256, bits / 2 ^ 32 % 256,
      bits / 2 ^ 24 % 256, bits / 2 ^ 16 % 256, bits / 2 ^ 8 % 256, bits % 256]

def blocks : ℕ → State → List ℕ → State
  | 0, s, _ => s
  | n + 1, s, words => blocks n (compress s (words.take 16)) (words.drop 16)

/-- Eight hexadecimal digits. -/
def hexWord (w : ℕ) : Text :=
  [hexDigit (w / 2 ^ 28 % 16), hexDigit (w / 2 ^ 24 % 16), hexDigit (w / 2 ^ 20 % 16),
    hexDigit (w / 2 ^ 16 % 16), hexDigit (w / 2 ^ 12 % 16), hexDigit (w / 2 ^ 8 % 16),
    hexDigit (w / 2 ^ 4 % 16), hexDigit (w % 16)]

def digest (bytes : List ℕ) : Text :=
  let words := wordsOf (pad bytes)
  let s := blocks (words.length / 16) initial words
  [s.a, s.b, s.c, s.d, s.e, s.f, s.g, s.h].flatMap hexWord

/-- The digest as the bytes of a `Buffer`. -/
def digestBytes (bytes : List ℕ) : List ℕ :=
  let words := wordsOf (pad bytes)
  let s := blocks (words.length / 16) initial words
  [s.a, s.b, s.c, s.d, s.e, s.f, s.g, s.h].flatMap
    (fun w => [w / 2 ^ 24 % 256, w / 2 ^ 16 % 256, w / 2 ^ 8 % 256, w % 256])

/-! ### The digest -/

theorem mem_hexWord {w : ℕ} {u : CodeUnit} (h : u ∈ hexWord w) : ∃ n < 16, u = hexDigit n := by
  simp only [hexWord, List.mem_cons, List.not_mem_nil, or_false] at h
  rcases h with rfl | rfl | rfl | rfl | rfl | rfl | rfl | rfl <;>
    exact ⟨_, Nat.mod_lt _ (by decide), rfl⟩

/-- A digest is written in hexadecimal digits. -/
theorem mem_digest {bytes : List ℕ} {u : CodeUnit} (h : u ∈ digest bytes) :
    ∃ n < 16, u = hexDigit n := by
  obtain ⟨w, -, hu⟩ := List.mem_flatMap.mp h
  exact mem_hexWord hu

theorem length_digest (bytes : List ℕ) : (digest bytes).length = 64 := rfl

theorem length_digestBytes (bytes : List ℕ) : (digestBytes bytes).length = 32 := rfl

theorem lt_of_mem_digestBytes {bytes : List ℕ} {b : ℕ} (h : b ∈ digestBytes bytes) : b < 256 := by
  obtain ⟨w, -, hb⟩ := List.mem_flatMap.mp h
  simp only [List.mem_cons, List.not_mem_nil, or_false] at hb
  rcases hb with rfl | rfl | rfl | rfl
  · exact Nat.mod_lt _ (by decide)
  · exact Nat.mod_lt _ (by decide)
  · exact Nat.mod_lt _ (by decide)
  · exact Nat.mod_lt _ (by decide)

end Sha256

example : Sha256.digest (utf8 (txt "abc")) =
    txt "ba7816bf8f01cfea414140de5dae2223b00361a396177a9cb410ff61f20015ad" := by
  decide

end QeReport

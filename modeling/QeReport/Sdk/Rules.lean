import QeReport.Lib.Regex
import QeReport.Lib.Utf8

/-! # The built-in redaction rules

Both bindings write the same patterns; each reads them over its own alphabet.  A regular
expression of JavaScript without the `u` flag reads code units, one of Java code points, and `\s`
is white space of all of Unicode there and of ASCII only here.  Ignoring case compares letters of
ASCII: beyond ASCII neither language folds a character to one that stands in a pattern. -/

namespace QeReport.Sdk.Redactor

open Regex (concat anyOf replaceAll Match)

/-- The characters a language reads. -/
structure Alphabet (α : Type) where
  code : α → ℕ
  /-- `\s`. -/
  isSpace : α → Bool
  ofUnit : CodeUnit → α

/-- JavaScript. -/
def codeUnits : Alphabet CodeUnit := ⟨Fin.val, isWhiteSpace, id⟩

/-- Java: `[ \t\n\x0B\f\r]`. -/
def codePoints : Alphabet ℕ := ⟨id, fun c => c = 0x20 || (0x09 ≤ c && c ≤ 0x0D), Fin.val⟩

/-! ### Classes -/

/-- A class of characters by their codes. -/
abbrev Chars := ℕ → Bool

def range (lo hi : Char) : Chars := fun c => lo.toNat ≤ c && c ≤ hi.toNat

def oneOf (s : String) : Chars := fun c => s.toList.any (fun ch => ch.toNat = c)

/-- `[A-Za-z0-9]` and some more. -/
def alphaNumericOr (s : String) : Chars := fun c =>
  range 'A' 'Z' c || range 'a' 'z' c || range '0' '9' c || oneOf s c

/-- The letter of the other case. -/
def swapCase (c : ℕ) : ℕ :=
  if range 'A' 'Z' c then c + 32 else if range 'a' 'z' c then c - 32 else c

/-- A class under the `i` flag. -/
def ignoringCase (p : Chars) : Chars := fun c => p c || p (swapCase c)

theorem ignoringCase_mono {p q : Chars} (h : ∀ c, p c = true → q c = true) {c : ℕ}
    (hc : ignoringCase p c = true) : ignoringCase q c = true := by
  rcases (Bool.or_eq_true _ _).mp hc with hc | hc
  · exact (Bool.or_eq_true _ _).mpr (.inl (h _ hc))
  · exact (Bool.or_eq_true _ _).mpr (.inr (h _ hc))

/-- A class of ASCII characters. -/
def IsAscii (p : Chars) : Prop := ∀ c, p c = true → c < 128

theorem isAscii_range {lo hi : Char} (h : hi.toNat < 128) : IsAscii (range lo hi) := by
  intro c hc
  rw [range, Bool.and_eq_true, decide_eq_true_eq, decide_eq_true_eq] at hc
  omega

theorem isAscii_oneOf {s : String} (h : s.toList.all (fun ch => ch.toNat < 128) = true) :
    IsAscii (oneOf s) := by
  intro c hc
  obtain ⟨ch, hch, heq⟩ := List.any_eq_true.mp hc
  have hlt := List.all_eq_true.mp h ch hch
  rw [decide_eq_true_eq] at heq hlt
  omega

theorem IsAscii.or {p q : Chars} (hp : IsAscii p) (hq : IsAscii q) :
    IsAscii (fun c => p c || q c) := by
  intro c hc
  rcases (Bool.or_eq_true _ _).mp hc with h | h
  · exact hp c h
  · exact hq c h

theorem isAscii_alphaNumericOr {s : String}
    (h : s.toList.all (fun ch => ch.toNat < 128) = true) : IsAscii (alphaNumericOr s) :=
  (((isAscii_range (by decide)).or (isAscii_range (by decide))).or
    (isAscii_range (by decide))).or (isAscii_oneOf h)

theorem IsAscii.ignoringCase {p : Chars} (hp : IsAscii p) : IsAscii (ignoringCase p) := by
  intro c hc
  rcases (Bool.or_eq_true _ _).mp hc with h | h
  · exact hp c h
  · have hlt := hp _ h
    rw [swapCase] at hlt
    split_ifs at hlt with hupper hlower
    · omega
    · have := isAscii_range (show 'z'.toNat < 128 by decide) c hlower
      omega
    · exact hlt

/-- What holds of the characters of a class is checked on ASCII. -/
theorem IsAscii.forall {p : Chars} (hp : IsAscii p) {q : ℕ → Prop}
    (h : ∀ c < 128, p c = true → q c) {c : ℕ} (hc : p c = true) : q c :=
  h c (hp c hc) hc

section patterns
variable {α : Type} (A : Alphabet α)

/-- A class of a pattern. -/
def isIn (p : Chars) (x : α) : Bool := p (A.code x)

/-- A class of a pattern with the `i` flag. -/
def isInI (p : Chars) (x : α) : Bool := ignoringCase p (A.code x)

/-- `[^...]`, under the `i` flag. -/
def isNotIn (p : Chars) (x : α) : Bool := !isInI A p x

/-- A text as it is written in a pattern. -/
def lit (s : String) : Regex α := concat (s.toList.map (fun ch => .one (isIn A (· = ch.toNat))))

/-- The same under the `i` flag. -/
def litI (s : String) : Regex α := concat (s.toList.map (fun ch => .one (isInI A (· = ch.toNat))))

/-- `p*`. -/
def star (p : α → Bool) : Regex α := .many p 0 none true

/-! ### Patterns -/

/-- `[A-Z ]*PRIVATE KEY-----`. -/
def markerEnd : Regex α :=
  concat [star (isIn A (fun c => range 'A' 'Z' c || oneOf " " c)), lit A "PRIVATE KEY-----"]

/-- `PRIVATE_KEY_BLOCK`. -/
def privateKeyBlock : Regex α :=
  concat [lit A "-----BEGIN ", markerEnd A, .many (fun _ => true) 0 none false,
    lit A "-----END ", markerEnd A]

/-- `[ \t]`. -/
def isBlank (x : α) : Bool := isInI A (oneOf " \t") x

/-- `([ \t]*[:=][ \t]*)`. -/
def separator : Regex α :=
  concat [star (isBlank A), .one (isInI A (oneOf ":=")), star (isBlank A)]

/-- A value between quotes. -/
def quoted (quote : String) (n : ℕ) : Regex α :=
  concat [litI A quote, .group n (star (isNotIn A (oneOf (quote ++ "\r\n")))), litI A quote]

/-- The names with a separator and a value; an unquoted value ends at the stops. -/
def namedValue (names : List String) (stops : String) : Regex α :=
  concat [.notAfter (isInI A (alphaNumericOr "_-")),
    .group 1 (.many (isInI A (oneOf "\"'")) 0 (some 1) true),
    .group 2 (anyOf (names.map (litI A))),
    .backref 1,
    .group 3 (separator A),
    anyOf [quoted A "\"" 4, quoted A "'" 5, .group 6 (star (isNotIn A (oneOf stops)))]]

/-- `SENSITIVE_HEADERS`. -/
def sensitiveHeaders : List String :=
  ["authorization", "proxy-authorization", "cookie", "set-cookie", "x-api-key", "api-key",
    "x-auth-token", "x-access-token", "x-amz-security-token", "x-session-token"]

/-- `SENSITIVE_KEYS`. -/
def sensitiveKeys : List String :=
  ["apikey", "api_key", "password", "passwd", "pwd", "secret", "client_secret", "client-secret",
    "clientsecret", "token", "access_token", "access-token", "accesstoken", "refresh_token",
    "refresh-token", "private_key", "private-key"]

/-- `headerValue`. -/
def headerValue : Regex α := namedValue A sensitiveHeaders "\r\n"

/-- `keyValue`. -/
def keyValue : Regex α := namedValue A sensitiveKeys "\r\n,;&"

/-- `[a-z0-9+.-]`. -/
def isSchemeChar (x : α) : Bool :=
  isInI A (fun c => range 'a' 'z' c || range '0' '9' c || oneOf "+.-" c) x

/-- `[^/\s:@]` and `[^/\s@]`. -/
def isUrlChar (stops : String) (x : α) : Bool := isNotIn A (oneOf stops) x && !A.isSpace x

/-- `URL_USERINFO`. -/
def urlUserinfo : Regex α :=
  concat [.notAfter (isSchemeChar A),
    .group 1 (concat [.one (isInI A (range 'a' 'z')), .many (isSchemeChar A) 0 (some 30) true,
      litI A "://"]),
    .many (isUrlChar A "/:@") 1 (some 256) true, litI A ":",
    .many (isUrlChar A "/@") 1 (some 256) true, litI A "@"]

/-- `BEARER`. -/
def bearer : Regex α :=
  concat [.notAfter (isInI A (alphaNumericOr "_")), litI A "bearer", .many (isBlank A) 1 none true,
    .many (isInI A (alphaNumericOr "-._~+/")) 1 none true, star (isInI A (oneOf "="))]

/-- `[A-Za-z0-9_-]{8,4096}`. -/
def jwtPart : Regex α := .many (isIn A (alphaNumericOr "_-")) 8 (some 4096) true

/-- `JWT`. -/
def jwt : Regex α :=
  concat [.notAfter (isIn A (alphaNumericOr "_-")), lit A "eyJ", jwtPart A, lit A ".", jwtPart A,
    lit A ".", jwtPart A]

/-- A token that stands between characters that are no `[A-Za-z0-9_]`. -/
def token (parts : List (Regex α)) : Regex α :=
  concat (.notAfter (isIn A (alphaNumericOr "_")) ::
    (parts ++ [.notBefore (isIn A (alphaNumericOr "_"))]))

/-- `WELL_KNOWN_TOKENS`. -/
def wellKnownTokens : List (Regex α) :=
  [token A [anyOf [lit A "AKIA", lit A "ASIA"],
      .many (isIn A (fun c => range '0' '9' c || range 'A' 'Z' c)) 16 (some 16) true],
    token A [lit A "gh", .one (isIn A (oneOf "pousr")), lit A "_",
      .many (isIn A (alphaNumericOr "")) 36 none true],
    token A [lit A "xox", .one (isIn A (oneOf "abprs")), lit A "-",
      .many (isIn A (alphaNumericOr "-")) 10 none true],
    token A [lit A "AIza", .many (isIn A (alphaNumericOr "_-")) 35 (some 35) true]]

/-! ### Replacements -/

/-- A text of the program. -/
def written (s : String) : List α := (txt s).map A.ofUnit

/-- `REDACTED`. -/
def redacted : List α := written A "[REDACTED]"

/-- What a group captured; a group that took no part gives nothing. -/
def captured (m : Match α) (n : ℕ) : List α := (m.group? n).getD []

/-- `replaceValue`, and the loop of `redactKeyValues`. -/
def replaceValue (m : Match α) : List α :=
  let value :=
    if (m.group? 4).isSome then written A "\"" ++ redacted A ++ written A "\""
    else if (m.group? 5).isSome then written A "'" ++ redacted A ++ written A "'"
    else redacted A
  captured m 1 ++ captured m 2 ++ captured m 1 ++ captured m 3 ++ value

/-- A pattern and what its matches are replaced by. -/
structure Rule (α : Type) where
  pattern : Regex α
  replacement : Match α → List α

/-- The rules that look for names. -/
def nameRules : List (Rule α) :=
  [⟨privateKeyBlock A, fun _ => redacted A⟩, ⟨headerValue A, replaceValue A⟩,
    ⟨keyValue A, replaceValue A⟩]

/-- `$1[REDACTED]@`. -/
def urlRule : Rule α := ⟨urlUserinfo A, fun m => captured m 1 ++ redacted A ++ written A "@"⟩

/-- The rules that look for tokens. -/
def tokenRules : List (Rule α) :=
  [⟨bearer A, fun _ => written A "Bearer " ++ redacted A⟩, ⟨jwt A, fun _ => redacted A⟩] ++
    (wellKnownTokens A).map (fun p => ⟨p, fun _ => redacted A⟩)

/-- The built-in rules in their order. -/
def rules : List (Rule α) := nameRules A ++ urlRule A :: tokenRules A

variable [DecidableEq α]

/-- One rule after the other. -/
def applyRules (rules : List (Rule α)) (text : List α) : List α :=
  rules.foldl (fun out rule => replaceAll rule.pattern rule.replacement out) text

end patterns

/-- `Redactor.defaults().redactText(text)`. -/
def redactText (text : Text) : Text := applyRules (rules codeUnits) text

end QeReport.Sdk.Redactor

namespace QeReport.Sdk.Java.Redactor

open Sdk.Redactor (applyRules rules codePoints)

/-- `Redactor.defaults().redactText(text)` of the Java binding. -/
def redactText (text : Text) : Text :=
  (applyRules (rules codePoints) (points text)).flatMap encodePoint

end QeReport.Sdk.Java.Redactor

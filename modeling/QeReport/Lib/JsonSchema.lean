import QeReport.Lib.Double
import QeReport.Lib.Utf8

/-! # JSON Schema

The keywords of JSON Schema 2020-12 as predicates on JSON values.  A schema is the conjunction of
its keywords (`schema`), and a `$ref` is the schema it names.  A keyword about one type of value
accepts every value of another type; strings are measured in code points, and a number is the
double it is read as, so that `1.0` is an integer.

`type_eq_true`, `properties_member` and the lemmas beside them say what an accepted value is. -/

namespace QeReport

/-- A schema, as the values it accepts. -/
abbrev Schema := Json → Bool

/-- The types of the keyword `type`. -/
inductive JsonType where
  | object | array | string | integer | boolean
deriving DecidableEq

namespace Schema

/-- The keywords of one schema object. -/
def schema (keywords : List Schema) : Schema := fun v => keywords.all (fun s => s v)

/-! ### Keywords for every value -/

def type (t : JsonType) : Schema
  | .obj _ => t = .object
  | .arr _ => t = .array
  | .str _ => t = .string
  | .num n => t = .integer && (double n.value).den == 1
  | .bool _ => t = .boolean
  | .null => false

/-- `enum` of strings. -/
def enum (values : List Text) : Schema
  | .str s => values.contains s
  | _ => false

/-- `const` of a string. -/
def const (value : Text) : Schema := enum [value]

/-- The schema `false`. -/
def never : Schema := fun _ => false

def not (s : Schema) : Schema := fun v => !s v

/-- `if`, `then` and `else`. -/
def ifThenElse (condition yes no : Schema) : Schema := fun v => if condition v then yes v else no v

/-- `if` and `then`. -/
def ifThen (condition yes : Schema) : Schema := fun v => !condition v || yes v

/-! ### Strings -/

def minLength (n : ℕ) : Schema
  | .str s => n ≤ (points s).length
  | _ => true

def maxLength (n : ℕ) : Schema
  | .str s => (points s).length ≤ n
  | _ => true

/-- `pattern`, with the texts the regular expression matches. -/
def pattern (regex : Text → Bool) : Schema
  | .str s => regex s
  | _ => true

/-- `format`, with the texts that have it; an annotation has every text. -/
def format (check : Text → Bool) : Schema := pattern check

/-! ### Numbers -/

def minimum (bound : ℤ) : Schema
  | .num n => (bound : ℚ) ≤ double n.value
  | _ => true

def maximum (bound : ℤ) : Schema
  | .num n => double n.value ≤ bound
  | _ => true

/-! ### Arrays -/

def items (s : Schema) : Schema
  | .arr vs => vs.all s
  | _ => true

def minItems (n : ℕ) : Schema
  | .arr vs => n ≤ vs.length
  | _ => true

def maxItems (n : ℕ) : Schema
  | .arr vs => vs.length ≤ n
  | _ => true

/-! ### Objects -/

def required (names : List Text) : Schema
  | .obj ms => names.all (fun k => (memberOf ms k).isSome)
  | _ => true

def properties (ps : List (Text × Schema)) : Schema
  | .obj ms => ps.all (fun p => ((memberOf ms p.1).map p.2).getD true)
  | _ => true

/-- `additionalProperties` without `properties` beside it. -/
def additionalProperties (s : Schema) : Schema
  | .obj ms => ms.all (fun m => s m.2)
  | _ => true

def propertyNames (s : Schema) : Schema
  | .obj ms => ms.all (fun m => s (.str m.1))
  | _ => true

def maxProperties (n : ℕ) : Schema
  | .obj ms => ms.length ≤ n
  | _ => true

def dependentRequired (ps : List (Text × List Text)) : Schema
  | .obj ms => ps.all (fun p => (memberOf ms p.1).isNone ||
      p.2.all (fun k => (memberOf ms k).isSome))
  | _ => true

/-! ### What an accepted value is -/

variable {v : Json}

@[simp] theorem schema_eq_true {keywords : List Schema} :
    schema keywords v = true ↔ ∀ s ∈ keywords, s v = true := List.all_eq_true

theorem type_object : type .object v = true ↔ ∃ ms, v = .obj ms := by
  cases v <;> simp [type]

theorem type_array : type .array v = true ↔ ∃ vs, v = .arr vs := by
  cases v <;> simp [type]

theorem type_string : type .string v = true ↔ ∃ s, v = .str s := by
  cases v <;> simp [type]

theorem type_boolean : type .boolean v = true ↔ ∃ b, v = .bool b := by
  cases v <;> simp [type]

theorem type_integer : type .integer v = true ↔ ∃ n, v = .num n ∧ (double n.value).den = 1 := by
  cases v <;> simp [type]

theorem enum_eq_true {values : List Text} :
    enum values v = true ↔ ∃ s ∈ values, v = .str s := by
  cases v <;> simp [enum]

theorem required_member {names : List Text} {ms : List (Text × Json)} {k : Text}
    (h : required names (.obj ms) = true) (hk : k ∈ names) : ∃ w, memberOf ms k = some w :=
  Option.isSome_iff_exists.mp (List.all_eq_true.mp h k hk)

theorem properties_member {ps : List (Text × Schema)} {ms : List (Text × Json)} {k : Text}
    {s : Schema} (h : properties ps (.obj ms) = true) (hk : (k, s) ∈ ps) {w : Json}
    (hw : memberOf ms k = some w) : s w = true := by
  have hp := List.all_eq_true.mp h (k, s) hk
  rwa [hw] at hp

/-- An integer within bounds is the integer it is read as. -/
theorem integer_within {n : JsNumber} {low high : ℤ} (htype : type .integer (.num n) = true)
    (hlow : minimum low (.num n) = true) (hhigh : maximum high (.num n) = true)
    (hsafe : -9007199254740991 ≤ low ∧ high ≤ 9007199254740991) :
    ∃ i, n.parsed? = some i ∧ low ≤ i ∧ i ≤ high := by
  have hden : (double n.value).den = 1 := by simpa [type] using htype
  have hvalue := Rat.coe_int_num_of_den_eq_one hden
  have hle : (low : ℚ) ≤ double n.value := of_decide_eq_true hlow
  have hge : double n.value ≤ (high : ℚ) := of_decide_eq_true hhigh
  rw [← hvalue] at hle hge
  have hle' : low ≤ (double n.value).num := by exact_mod_cast hle
  have hge' : (double n.value).num ≤ high := by exact_mod_cast hge
  refine ⟨(double n.value).num, ?_, hle', hge'⟩
  unfold JsNumber.parsed?
  exact if_pos ⟨hden, by omega⟩

end Schema

end QeReport

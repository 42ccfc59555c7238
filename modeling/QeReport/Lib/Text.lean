import Mathlib.Algebra.Ring.Nat
import Mathlib.Data.List.Lex
import Mathlib.Data.List.Sort
import Mathlib.Order.Fin.Basic

/-! # JavaScript texts

A JavaScript string is a sequence of UTF-16 code units, and that is what `Text` is: a list of
numbers below `65536`.  Lone surrogates are therefore ordinary values, and the order of lists
over the order of the units is the `<` of JavaScript strings.  `txt` writes a Lean literal as
a text.

The operations below are the ones of the standard library that the modelled code uses:
`blank` (`raw.trim() === ''`), `byteLength` (`Buffer.byteLength(raw, 'utf8')`, where a lone
surrogate is written as the three bytes of U+FFFD), `utf8` (those bytes), `lines` (`text.split('\n')`) and
`sortBy`, the stable `Array.prototype.sort` with a comparator. -/

namespace QeReport

/-- A UTF-16 code unit. -/
abbrev CodeUnit := Fin 65536

instance lawfulBEq_unit : LawfulBEq CodeUnit := inferInstance

instance neZero_units : NeZero 65536 := ⟨by decide⟩

/-- A JavaScript string. -/
abbrev Text := List CodeUnit

instance lawfulBEq_text : LawfulBEq Text := inferInstance

/-- The code units of one Unicode scalar value. -/
def encodeChar (c : Char) : Text :=
  if c.toNat < 65536 then [Fin.ofNat 65536 c.toNat]
  else [Fin.ofNat 65536 (0xD800 + (c.toNat - 0x10000) / 0x400),
    Fin.ofNat 65536 (0xDC00 + (c.toNat - 0x10000) % 0x400)]

/-- A literal as a text. -/
def txt (s : String) : Text := s.toList.flatMap encodeChar

/-- The code unit of an ASCII character. -/
def unit (c : Char) : CodeUnit := Fin.ofNat 65536 c.toNat

/-- A natural number as `String(n)` writes it. -/
def natText (n : ℕ) : Text := txt (toString n)

/-- An integer as `String(n)` writes it. -/
def intText (n : ℤ) : Text := txt (toString n)

/-- White space and line terminators of ECMAScript, the characters `trim` removes. -/
def isWhiteSpace (u : CodeUnit) : Bool :=
  (9 ≤ u && u ≤ 13) || u == 0x20 || u == 0xA0 || u == 0x1680 || (0x2000 ≤ u && u ≤ 0x200A) ||
    u == 0x2028 || u == 0x2029 || u == 0x202F || u == 0x205F || u == 0x3000 || u == 0xFEFF

/-- `raw.trim() === ''`. -/
def blank (t : Text) : Bool := t.all isWhiteSpace

def isHighSurrogate (u : CodeUnit) : Bool := 0xD800 ≤ u && u ≤ 0xDBFF

def isLowSurrogate (u : CodeUnit) : Bool := 0xDC00 ≤ u && u ≤ 0xDFFF

/-- `Buffer.byteLength(t, 'utf8')`. -/
def byteLength : Text → ℕ
  | [] => 0
  | [u] => if u < 0x80 then 1 else if u < 0x800 then 2 else 3
  | u :: v :: t =>
      if isHighSurrogate u && isLowSurrogate v then 4 + byteLength t
      else (if u < 0x80 then 1 else if u < 0x800 then 2 else 3) + byteLength (v :: t)

/-- The bytes of one code point. -/
def utf8Bytes (c : ℕ) : List ℕ :=
  if c < 0x80 then [c]
  else if c < 0x800 then [0xC0 + c / 64, 0x80 + c % 64]
  else if c < 0x10000 then [0xE0 + c / 4096, 0x80 + c / 64 % 64, 0x80 + c % 64]
  else [0xF0 + c / 262144, 0x80 + c / 4096 % 64, 0x80 + c / 64 % 64, 0x80 + c % 64]

/-- The bytes of a code unit that is no part of a surrogate pair. -/
def utf8Unit (u : CodeUnit) : List ℕ :=
  if isHighSurrogate u || isLowSurrogate u then utf8Bytes 0xFFFD else utf8Bytes u.val

/-- `Buffer.from(t, 'utf8')`. -/
def utf8 : Text → List ℕ
  | [] => []
  | [u] => utf8Unit u
  | u :: v :: t =>
      if isHighSurrogate u && isLowSurrogate v then
        utf8Bytes (0x10000 + (u.val - 0xD800) * 0x400 + (v.val - 0xDC00)) ++ utf8 t
      else utf8Unit u ++ utf8 (v :: t)

/-- `text.split('\n')`. -/
def lines (t : Text) : List Text := t.splitOn (unit '\n')

/-- `text.endsWith(suffix)`. -/
def endsWith (t suffix : Text) : Bool := suffix.isSuffixOf t

/-! ### Sorting by a comparator -/

section sortBy
variable {α : Type}

/-- `list.sort(cmp)`: the stable sort, an element moving before another only when the
comparator says it is smaller. -/
def sortBy (cmp : α → α → Ordering) (l : List α) : List α :=
  l.insertionSort (fun a b => cmp a b ≠ .gt)

variable {cmp : α → α → Ordering}

theorem sortBy_perm (l : List α) : (sortBy cmp l).Perm l := List.perm_insertionSort _ l

theorem mem_sortBy {l : List α} {a : α} : a ∈ sortBy cmp l ↔ a ∈ l := (sortBy_perm l).mem_iff

theorem length_sortBy (l : List α) : (sortBy cmp l).length = l.length := (sortBy_perm l).length_eq

theorem sortBy_pairwise [Std.TransCmp cmp] (l : List α) :
    (sortBy cmp l).Pairwise (fun a b => cmp a b ≠ .gt) := by
  have : Std.Total (fun a b => cmp a b ≠ .gt) := ⟨fun a b => by
    by_cases h : cmp a b = .gt
    · exact Or.inr (by rw [Std.OrientedCmp.lt_of_gt h]; decide)
    · exact Or.inl h⟩
  have : IsTrans α (fun a b => cmp a b ≠ .gt) := ⟨fun a b c hab hbc =>
    Ordering.isLE_iff_ne_gt.mp (Std.TransCmp.isLE_trans
      (Ordering.isLE_iff_ne_gt.mpr hab) (Ordering.isLE_iff_ne_gt.mpr hbc))⟩
  exact List.pairwise_insertionSort _ l

/-- A list already in order is left as it is. -/
theorem sortBy_eq_self {l : List α} (h : l.Pairwise (fun a b => cmp a b ≠ .gt)) :
    sortBy cmp l = l := h.insertionSort_eq

/-- A map that keeps the comparisons commutes with sorting. -/
theorem map_sortBy {β : Type} {cmp' : β → β → Ordering} (f : α → β)
    (h : ∀ a b, cmp' (f a) (f b) = cmp a b) (l : List α) :
    (sortBy cmp l).map f = sortBy cmp' (l.map f) :=
  List.map_insertionSort _ _ f l (fun a _ b _ => by rw [h])

/-- The sort is stable: elements the comparator does not put out of order keep their order. -/
theorem filter_sortBy {p : α → Bool} {l : List α}
    (h : (l.filter p).Pairwise (fun a b => cmp a b ≠ .gt)) :
    (sortBy cmp l).filter p = l.filter p := by
  have hsub : (l.filter p).Sublist (sortBy cmp l) :=
    List.sublist_insertionSort h List.filter_sublist
  have hsub' : (l.filter p).Sublist ((sortBy cmp l).filter p) := by
    have := hsub.filter p
    rwa [List.filter_filter, show (fun a => p a && p a) = p from funext fun a => Bool.and_self _]
      at this
  exact (hsub'.eq_of_length ((sortBy_perm l).filter p).length_eq.symm).symm

/-- Two orderings of one multiset agree when elements the comparator does not separate are
equal. -/
theorem sortBy_eq_of_perm [Std.TransCmp cmp] {l l' : List α} (hp : l.Perm l')
    (hanti : ∀ a ∈ l, ∀ b ∈ l, cmp a b = .eq → a = b) : sortBy cmp l = sortBy cmp l' := by
  refine List.Perm.eq_of_pairwise ?_ (sortBy_pairwise l) (sortBy_pairwise l')
    ((sortBy_perm l).trans (hp.trans (sortBy_perm l').symm))
  intro a b ha hb hab hba
  refine hanti a (mem_sortBy.mp ha) b (hp.mem_iff.mpr (mem_sortBy.mp hb)) ?_
  cases h : cmp a b with
  | eq => rfl
  | gt => exact absurd h hab
  | lt => exact absurd (Std.OrientedCmp.gt_of_lt h) hba

end sortBy

end QeReport

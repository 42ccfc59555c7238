import QeReport.Lib.Json

/-! # Reading JSON texts

`readValue` is a recursive-descent reader of JSON texts, with the numbers left to a parameter
(`JSON.parse` rounds them to doubles).  It inverts `canonText` up to `normal`
(`readValue_canonText`), hence the canonical text determines a value up to the order of object
members (`canonText_injective`). -/

namespace QeReport

/-! ### The reader -/

/-- The white space JSON allows between tokens. -/
def isJsonSpace (u : CodeUnit) : Bool := u == 0x20 || u == 0x09 || u == 0x0A || u == 0x0D

def skipSpace (t : Text) : Text := t.dropWhile isJsonSpace

/-- The unit a two-character escape stands for. -/
def readEscape (u : CodeUnit) : Option CodeUnit :=
  if u == unit '"' then some (unit '"')
  else if u == unit '\\' then some (unit '\\')
  else if u == unit '/' then some (unit '/')
  else if u == unit 'b' then some 8
  else if u == unit 'f' then some 12
  else if u == unit 'n' then some 10
  else if u == unit 'r' then some 13
  else if u == unit 't' then some 9
  else none

/-- The unit four hexadecimal digits stand for. -/
def readHex (a b c d : CodeUnit) : Option CodeUnit := do
  let a ← hexValue a
  let b ← hexValue b
  let c ← hexValue c
  let d ← hexValue d
  return Fin.ofNat 65536 (4096 * a + 256 * b + 16 * c + d)

/-- The rest of a string after its opening quote: the string and what follows it. -/
def readString : Text → Option (Text × Text)
  | [] => none
  | [u] => if u == unit '"' then some ([], []) else none
  | u :: v :: t =>
      if u == unit '"' then some ([], v :: t)
      else if u == unit '\\' then
        if v == unit 'u' then
          match t with
          | a :: b :: c :: d :: t' =>
              (readHex a b c d).bind (fun w => (readString t').map (fun p => (w :: p.1, p.2)))
          | _ => none
        else (readEscape v).bind (fun w => (readString t).map (fun p => (w :: p.1, p.2)))
      else if u < 0x20 then none
      else (readString (v :: t)).map (fun p => (u :: p.1, p.2))

section read
variable (number : Text → Option JsNumber)

mutual

/-- One value and what follows it; `number` reads the numbers. -/
def readValue : ℕ → Text → Option (Json × Text)
  | 0, _ => none
  | n + 1, t =>
      match skipSpace t with
      | [] => none
      | u :: rest =>
          if u == unit '[' then
            match skipSpace rest with
            | [] => none
            | w :: rest' =>
                if w == unit ']' then some (.arr [], rest')
                else (readItems n (w :: rest')).map (fun p => (.arr p.1, p.2))
          else if u == unit '\x7b' then
            match skipSpace rest with
            | [] => none
            | w :: rest' =>
                if w == unit '\x7d' then some (.obj [], rest')
                else (readMembers n (w :: rest')).map (fun p => (.obj p.1, p.2))
          else if u == unit '"' then (readString rest).map (fun p => (.str p.1, p.2))
          else if (txt "null").isPrefixOf (u :: rest) then some (.null, rest.drop 3)
          else if (txt "true").isPrefixOf (u :: rest) then some (.bool true, rest.drop 3)
          else if (txt "false").isPrefixOf (u :: rest) then some (.bool false, rest.drop 4)
          else (number ((u :: rest).takeWhile isNumeralUnit)).map
            (fun x => (.num x, (u :: rest).dropWhile isNumeralUnit))

/-- The items of a non-empty array, up to its closing bracket. -/
def readItems : ℕ → Text → Option (List Json × Text)
  | 0, _ => none
  | n + 1, t =>
      (readValue n t).bind (fun p =>
        match skipSpace p.2 with
        | [] => none
        | w :: rest =>
            if w == unit ',' then (readItems n rest).map (fun q => (p.1 :: q.1, q.2))
            else if w == unit ']' then some ([p.1], rest)
            else none)

/-- The members of a non-empty object, up to its closing brace. -/
def readMembers : ℕ → Text → Option (List (Text × Json) × Text)
  | 0, _ => none
  | n + 1, t =>
      match skipSpace t with
      | [] => none
      | u :: rest =>
          if u == unit '"' then
            (readString rest).bind (fun k =>
              match skipSpace k.2 with
              | [] => none
              | w :: rest' =>
                  if w == unit ':' then
                    (readValue n rest').bind (fun p =>
                      match skipSpace p.2 with
                      | [] => none
                      | w' :: rest'' =>
                          if w' == unit ',' then
                            (readMembers n rest'').map (fun q => ((k.1, p.1) :: q.1, q.2))
                          else if w' == unit '\x7d' then some ([(k.1, p.1)], rest'')
                          else none)
                  else none)
          else none

end

end read

/-! ### Strings read back -/

theorem hexValue_hexDigit : ∀ n < 16, hexValue (hexDigit n) = some n := by decide

theorem readHex_escape (u : CodeUnit) :
    readHex (hexDigit (u.val / 4096)) (hexDigit (u.val / 256 % 16)) (hexDigit (u.val / 16 % 16))
      (hexDigit (u.val % 16)) = some u := by
  have hu := u.isLt
  have e : 4096 * (u.val / 4096) + 256 * (u.val / 256 % 16) + 16 * (u.val / 16 % 16) + u.val % 16 =
      u.val := by omega
  simp only [readHex, hexValue_hexDigit _ (show u.val / 4096 < 16 by omega),
    hexValue_hexDigit _ (show u.val / 256 % 16 < 16 by omega),
    hexValue_hexDigit _ (show u.val / 16 % 16 < 16 by omega),
    hexValue_hexDigit _ (show u.val % 16 < 16 by omega), Option.bind_eq_bind, Option.bind_some, e,
    Option.pure_def, Option.some.injEq]
  exact Fin.ext (Nat.mod_eq_of_lt hu)

theorem readString_nil : readString [] = none := rfl

theorem readString_quote (r : Text) : readString (unit '"' :: r) = some ([], r) := by
  rw [readString.eq_def]
  cases r <;> simp only [beq_self_eq_true, if_true]

theorem readString_escape {w u : CodeUnit} (t : Text) (hw : readEscape w = some u)
    (hu : (w == unit 'u') = false) :
    readString (unit '\\' :: w :: t) = (readString t).map (fun p => (u :: p.1, p.2)) := by
  rw [readString.eq_def]
  simp only [show (unit '\\' == unit '"') = false by decide, hu, hw, Bool.false_eq_true, if_false,
    beq_self_eq_true, if_true, Option.bind_some]

theorem readString_hex {a b c d u : CodeUnit} (t : Text) (h : readHex a b c d = some u) :
    readString (unit '\\' :: unit 'u' :: a :: b :: c :: d :: t) =
      (readString t).map (fun p => (u :: p.1, p.2)) := by
  rw [readString.eq_def]
  simp only [show (unit '\\' == unit '"') = false by decide, h, Bool.false_eq_true, if_false,
    beq_self_eq_true, if_true, Option.bind_some]

theorem readString_literal {u : CodeUnit} (t : Text) (hq : (u == unit '"') = false)
    (hb : (u == unit '\\') = false) (hc : ¬ u < 0x20) :
    readString (u :: t) = (readString t).map (fun p => (u :: p.1, p.2)) := by
  rw [readString.eq_def]
  cases t with
  | nil => simp only [hq, readString_nil, Bool.false_eq_true, if_false, Option.map_none]
  | cons v t => simp only [hq, hb, hc, Bool.false_eq_true, if_false]

theorem readString_escapeUnit (u : CodeUnit) (t : Text) :
    readString (escapeUnit u ++ t) = (readString t).map (fun p => (u :: p.1, p.2)) := by
  unfold escapeUnit
  split_ifs with h1 h2 h3 h4 h5 h6 h7 h8
  · exact readString_escape t (by rw [beq_iff_eq.mp h1]; decide) (by decide)
  · exact readString_escape t (by rw [beq_iff_eq.mp h2]; decide) (by decide)
  · exact readString_escape t (by rw [beq_iff_eq.mp h3]; decide) (by decide)
  · exact readString_escape t (by rw [beq_iff_eq.mp h4]; decide) (by decide)
  · exact readString_escape t (by rw [beq_iff_eq.mp h5]; decide) (by decide)
  · exact readString_escape t (by rw [beq_iff_eq.mp h6]; decide) (by decide)
  · exact readString_escape t (by rw [beq_iff_eq.mp h7]; decide) (by decide)
  · exact readString_hex t (readHex_escape u)
  · simp only [Bool.or_eq_true, decide_eq_true_eq, not_or] at h8
    exact readString_literal t (by simpa using h1) (by simpa using h2) h8.1.1

theorem not_special_of_surrogate {u : CodeUnit} (h : (0xD800 : CodeUnit) ≤ u) :
    (u == unit '"') = false ∧ (u == unit '\\') = false ∧ ¬ u < 0x20 := by
  refine ⟨?_, ?_, not_lt.mpr (le_trans (by decide) h)⟩
  · exact beq_eq_false_iff_ne.mpr (fun e => absurd (e ▸ h) (by decide))
  · exact beq_eq_false_iff_ne.mpr (fun e => absurd (e ▸ h) (by decide))

theorem readString_quoteUnits (s r : Text) :
    readString (quoteUnits s ++ unit '"' :: r) = some (s, r) := by
  induction s using quoteUnits.induct with
  | case1 => simpa [quoteUnits] using readString_quote r
  | case2 u =>
      rw [quoteUnits, readString_escapeUnit, readString_quote]
      rfl
  | case3 u v t h ih =>
      rw [quoteUnits, if_pos h]
      simp only [isHighSurrogate, isLowSurrogate, Bool.and_eq_true, decide_eq_true_eq] at h
      obtain ⟨hu1, hu2, hu3⟩ := not_special_of_surrogate h.1.1
      obtain ⟨hv1, hv2, hv3⟩ := not_special_of_surrogate (le_trans (by decide) h.2.1)
      rw [List.cons_append, List.cons_append, readString_literal _ hu1 hu2 hu3,
        readString_literal _ hv1 hv2 hv3, ih]
      rfl
  | case4 u v t h ih =>
      rw [quoteUnits, if_neg h, List.append_assoc, readString_escapeUnit, ih]
      rfl

/-! ### Values read back -/

theorem canonMembers_eq (ms : List (Text × Json)) :
    canonMembers ms = ms.map (fun m => (m.1, canonText m.2)) := by
  induction ms with
  | nil => rfl
  | cons m ms ih => rw [canonMembers, ih, List.map_cons]

theorem sortBy_canonMembers (ms : List (Text × Json)) :
    sortBy compareKeys (canonMembers ms) = canonMembers (sortBy compareKeys ms) := by
  rw [canonMembers_eq, canonMembers_eq]
  exact (map_sortBy _ (fun _ _ => rfl) ms).symm

theorem jsonMembers_eq (ms : List (Text × Json)) :
    jsonMembers ms = ms.map (fun m => (m.1, jsonText m.2)) := by
  induction ms with
  | nil => rfl
  | cons m ms ih => rw [jsonMembers, ih, List.map_cons]

theorem sortBy_jsonMembers (ms : List (Text × Json)) :
    sortBy compareKeys (jsonMembers ms) = jsonMembers (sortBy compareKeys ms) := by
  rw [jsonMembers_eq, jsonMembers_eq]
  exact (map_sortBy _ (fun _ _ => rfl) ms).symm

mutual

/-- The canonical text is the text of the normal form. -/
theorem jsonText_normal : ∀ v : Json, jsonText v.normal = canonText v
  | .null => rfl
  | .bool _ => rfl
  | .num _ => rfl
  | .str _ => rfl
  | .arr items => by rw [Json.normal, jsonText, jsonTexts_normal items, canonText]
  | .obj members => by
      rw [Json.normal, jsonText, ← sortBy_jsonMembers, jsonMembers_normal members, canonText]

theorem jsonTexts_normal : ∀ vs : List Json, jsonTexts (normalItems vs) = canonTexts vs
  | [] => rfl
  | v :: vs => by rw [normalItems, jsonTexts, jsonText_normal v, jsonTexts_normal vs, canonTexts]

theorem jsonMembers_normal : ∀ ms : List (Text × Json),
    jsonMembers (normalMembers ms) = canonMembers ms
  | [] => rfl
  | (k, v) :: ms => by
      rw [normalMembers, jsonMembers, jsonText_normal v, jsonMembers_normal ms, canonMembers]

end

mutual

/-- Fuel that is enough to read a value back. -/
def cost : Json → ℕ
  | .arr items => 1 + costItems items
  | .obj members => 1 + costMembers members
  | _ => 1

def costItems : List Json → ℕ
  | [] => 0
  | v :: vs => 1 + cost v + costItems vs

def costMembers : List (Text × Json) → ℕ
  | [] => 0
  | (_, v) :: ms => 1 + cost v + costMembers ms

end

theorem costMembers_eq (ms : List (Text × Json)) :
    costMembers ms = (ms.map (fun m => 1 + cost m.2)).sum := by
  induction ms with
  | nil => rfl
  | cons m ms ih => rw [costMembers, ih, List.map_cons, List.sum_cons]

mutual

theorem cost_normal : ∀ v : Json, cost v.normal = cost v
  | .null => rfl
  | .bool _ => rfl
  | .num _ => rfl
  | .str _ => rfl
  | .arr items => by rw [Json.normal, cost, costItems_normal items, cost]
  | .obj members => by
      have hsort : costMembers (sortBy compareKeys (normalMembers members)) =
          costMembers (normalMembers members) := by
        rw [costMembers_eq, costMembers_eq]
        exact ((sortBy_perm _).map _).sum_nat
      rw [Json.normal, cost, hsort, costMembers_normal members, cost]

theorem costItems_normal : ∀ vs : List Json, costItems (normalItems vs) = costItems vs
  | [] => rfl
  | v :: vs => by rw [normalItems, costItems, cost_normal v, costItems_normal vs, costItems]

theorem costMembers_normal : ∀ ms : List (Text × Json),
    costMembers (normalMembers ms) = costMembers ms
  | [] => rfl
  | (k, v) :: ms => by
      rw [normalMembers, costMembers, cost_normal v, costMembers_normal ms, costMembers]

end

/-- The rest of a text does not continue a number. -/
def NoNumeral (r : Text) : Prop := ∀ u t, r = u :: t → isNumeralUnit u = false

theorem noNumeral_cons {u : CodeUnit} (r : Text) (h : isNumeralUnit u = false) :
    NoNumeral (u :: r) := by
  rintro v t he
  rw [← (List.cons.inj he).1]
  exact h

theorem skipSpace_cons {u : CodeUnit} (t : Text) (h : isJsonSpace u = false) :
    skipSpace (u :: t) = u :: t := by
  simp [skipSpace, h]

theorem takeWhile_numeral {t r : Text} (ht : ∀ u ∈ t, isNumeralUnit u = true) (hr : NoNumeral r) :
    (t ++ r).takeWhile isNumeralUnit = t ∧ (t ++ r).dropWhile isNumeralUnit = r := by
  induction t with
  | nil =>
      cases r with
      | nil => simp
      | cons u r => simp [hr u r rfl]
  | cons u t ih =>
      obtain ⟨h1, h2⟩ := ih (fun w hw => ht w (List.mem_cons_of_mem _ hw))
      simp [ht u List.mem_cons_self, h1, h2]

theorem commaSeparated_cons (t : Text) (ts : List Text) (r : Text) :
    commaSeparated (t :: ts) ++ r =
      t ++ (match ts with | [] => r | _ => unit ',' :: (commaSeparated ts ++ r)) := by
  cases ts with
  | nil => rfl
  | cons t' ts => simp [commaSeparated]

section readBack
variable {number : Text → Option JsNumber} (hn : ∀ x : JsNumber, number x.text = some x)
include hn

theorem readValue_number (n : ℕ) (x : JsNumber) {r : Text} (hr : NoNumeral r) :
    readValue number (n + 1) (x.text ++ r) = some (.num x, r) := by
  obtain ⟨hall, hshape⟩ := Bool.and_eq_true_iff.mp x.isNumber
  have hx := List.all_eq_true.mp hall
  obtain ⟨ht, hd⟩ := takeWhile_numeral hx hr
  obtain ⟨u, t, hut⟩ : ∃ u t, x.text = u :: t := by
    cases h : x.text with
    | nil => rw [h] at hshape; cases hshape
    | cons u t => exact ⟨u, t, rfl⟩
  have hu : isNumeralUnit u = true := hx u (by rw [hut]; exact List.mem_cons_self)
  have hne : ∀ w : CodeUnit, isNumeralUnit w = false → (u == w) = false := by
    intro w hw
    refine beq_eq_false_iff_ne.mpr (fun e => ?_)
    rw [e, hw] at hu
    cases hu
  have hlit : ∀ (w : CodeUnit) (ws : Text), isNumeralUnit w = false →
      (w :: ws).isPrefixOf (u :: (t ++ r)) = false := by
    intro w ws hw
    have : (w == u) = false := by
      rw [Bool.beq_comm]
      exact hne w hw
    simp [List.isPrefixOf, this]
  have hs : skipSpace (u :: (t ++ r)) = u :: (t ++ r) := by
    apply skipSpace_cons
    simp only [isJsonSpace, Bool.or_eq_false_iff]
    exact ⟨⟨⟨hne _ (by decide), hne _ (by decide)⟩, hne _ (by decide)⟩, hne _ (by decide)⟩
  rw [hut, List.cons_append] at ht hd ⊢
  rw [readValue, hs]
  simp only [hne _ (show isNumeralUnit (unit '[') = false by decide),
    hne _ (show isNumeralUnit (unit '\x7b') = false by decide),
    hne _ (show isNumeralUnit (unit '"') = false by decide),
    hlit (unit 'n') (txt "ull") (by decide), hlit (unit 't') (txt "rue") (by decide),
    hlit (unit 'f') (txt "alse") (by decide), Bool.false_eq_true, if_false, ht, hd,
    show txt "null" = unit 'n' :: txt "ull" by decide,
    show txt "true" = unit 't' :: txt "rue" by decide,
    show txt "false" = unit 'f' :: txt "alse" by decide]
  rw [← hut, hn x]
  rfl

omit hn in
theorem readValue_literal (n : ℕ) {u : CodeUnit} (t r : Text)
    (hs : isJsonSpace u = false ∧ (u == unit '[') = false ∧ (u == unit '\x7b') = false ∧
      (u == unit '"') = false) :
    readValue number (n + 1) (u :: t ++ r) =
      (if (txt "null").isPrefixOf (u :: (t ++ r)) then some (.null, (t ++ r).drop 3)
      else if (txt "true").isPrefixOf (u :: (t ++ r)) then some (.bool true, (t ++ r).drop 3)
      else if (txt "false").isPrefixOf (u :: (t ++ r)) then some (.bool false, (t ++ r).drop 4)
      else (number ((u :: (t ++ r)).takeWhile isNumeralUnit)).map
        (fun x => (.num x, (u :: (t ++ r)).dropWhile isNumeralUnit))) := by
  rw [List.cons_append, readValue, skipSpace_cons _ hs.1]
  simp only [hs.2.1, hs.2.2.1, hs.2.2.2, Bool.false_eq_true, if_false]

omit hn in
theorem readValue_null (n : ℕ) (r : Text) :
    readValue number (n + 1) (txt "null" ++ r) = some (.null, r) := by
  rw [show txt "null" = unit 'n' :: txt "ull" by decide, readValue_literal n _ r (by decide)]
  exact if_pos (List.isPrefixOf_iff_prefix.mpr ⟨r, rfl⟩)

omit hn in
theorem readValue_bool (n : ℕ) (b : Bool) (r : Text) :
    readValue number (n + 1) (stringify (.bool b) ++ r) = some (.bool b, r) := by
  cases b with
  | false =>
      rw [stringify, show txt "false" = unit 'f' :: txt "alse" by decide,
        readValue_literal n _ r (by decide), if_neg (by simp [txt, encodeChar, unit, Fin.ext_iff]),
        if_neg (by simp [txt, encodeChar, unit, Fin.ext_iff])]
      exact if_pos (List.isPrefixOf_iff_prefix.mpr ⟨r, rfl⟩)
  | true =>
      rw [stringify, show txt "true" = unit 't' :: txt "rue" by decide,
        readValue_literal n _ r (by decide), if_neg (by simp [txt, encodeChar, unit, Fin.ext_iff])]
      exact if_pos (List.isPrefixOf_iff_prefix.mpr ⟨r, rfl⟩)

omit hn in
theorem readValue_string (n : ℕ) (s r : Text) :
    readValue number (n + 1) (quote s ++ r) = some (.str s, r) := by
  rw [quote, List.cons_append, readValue, skipSpace_cons _ (by decide)]
  simp only [show (unit '"' == unit '[') = false by decide,
    show (unit '"' == unit '\x7b') = false by decide, Bool.false_eq_true, if_false,
    beq_self_eq_true, if_true, List.append_assoc, List.singleton_append, readString_quoteUnits,
    Option.map_some]

omit hn in
/-- The text of a value starts with neither white space nor a closing bracket. -/
theorem jsonText_head (v : Json) :
    ∃ u t, jsonText v = u :: t ∧ isJsonSpace u = false ∧ (u == unit ']') = false := by
  cases v with
  | null => exact ⟨unit 'n', txt "ull", by decide, by decide, by decide⟩
  | bool b =>
      cases b
      · exact ⟨unit 'f', txt "alse", by decide, by decide, by decide⟩
      · exact ⟨unit 't', txt "rue", by decide, by decide, by decide⟩
  | num x =>
      obtain ⟨hall, hshape⟩ := Bool.and_eq_true_iff.mp x.isNumber
      cases h : x.text with
      | nil =>
          rw [h] at hshape
          cases hshape
      | cons u t =>
          have hu := List.all_eq_true.mp hall u (by rw [h]; exact List.mem_cons_self)
          have hne : ∀ w : CodeUnit, isNumeralUnit w = false → (u == w) = false := by
            intro w hw
            refine beq_eq_false_iff_ne.mpr (fun e => ?_)
            rw [e, hw] at hu
            cases hu
          refine ⟨u, t, by rw [jsonText, stringify, h], ?_, hne _ (by decide)⟩
          simp only [isJsonSpace, Bool.or_eq_false_iff]
          exact ⟨⟨⟨hne _ (by decide), hne _ (by decide)⟩, hne _ (by decide)⟩, hne _ (by decide)⟩
  | str s => exact ⟨unit '"', _, by rw [jsonText, stringify, quote], by decide, by decide⟩
  | arr items => exact ⟨unit '[', _, by rw [jsonText], by decide, by decide⟩
  | obj members => exact ⟨unit '\x7b', _, by rw [jsonText], by decide, by decide⟩

/-- Reading back a value, the items of an array and the members of an object. -/
theorem read_json (n : ℕ) :
    (∀ v r, cost v ≤ n → NoNumeral r → readValue number n (jsonText v ++ r) = some (v, r)) ∧
    (∀ v vs r, costItems (v :: vs) ≤ n →
      readItems number n (commaSeparated (jsonTexts (v :: vs)) ++ unit ']' :: r) =
        some (v :: vs, r)) ∧
    (∀ m ms r, costMembers (m :: ms) ≤ n →
      readMembers number n (commaSeparated ((jsonMembers (m :: ms)).map memberText) ++
        unit '\x7d' :: r) = some (m :: ms, r)) := by
  induction n with
  | zero =>
      refine ⟨fun v r h => ?_, fun v vs r h => ?_, fun m ms r h => ?_⟩
      · cases v <;> simp [cost] at h
      · simp [costItems] at h
      · obtain ⟨k, v⟩ := m
        simp [costMembers] at h
  | succ n ih =>
      obtain ⟨ihv, ihi, ihm⟩ := ih
      refine ⟨fun v r h hr => ?_, fun v vs r h => ?_, fun m ms r h => ?_⟩
      · cases v with
        | null => exact readValue_null n r
        | bool b => exact readValue_bool n b r
        | num x => exact readValue_number hn n x hr
        | str s => exact readValue_string n s r
        | arr items =>
            rw [jsonText, List.cons_append, readValue, skipSpace_cons _ (by decide)]
            simp only [beq_self_eq_true, if_true, List.append_assoc, List.singleton_append]
            cases items with
            | nil => simp [jsonTexts, commaSeparated, skipSpace_cons r (u := unit ']') (by decide)]
            | cons v vs =>
                obtain ⟨u, t, hut, hu, hu'⟩ := jsonText_head v
                obtain ⟨t', ht'⟩ : ∃ t', commaSeparated (jsonTexts (v :: vs)) ++ unit ']' :: r =
                    u :: t' := by
                  rw [jsonTexts, commaSeparated_cons, hut]
                  exact ⟨_, rfl⟩
                have hread := ihi v vs r (by simp only [cost] at h; omega)
                rw [ht'] at hread ⊢
                rw [skipSpace_cons _ hu]
                simp only [hu', Bool.false_eq_true, if_false, hread, Option.map_some]
        | obj members =>
            rw [jsonText, List.cons_append, readValue, skipSpace_cons _ (by decide)]
            simp only [show (unit '\x7b' == unit '[') = false by decide, Bool.false_eq_true, if_false,
              beq_self_eq_true, if_true, List.append_assoc, List.singleton_append]
            cases members with
            | nil => simp [jsonMembers, commaSeparated,
                skipSpace_cons r (u := unit '\x7d') (by decide)]
            | cons m ms =>
                obtain ⟨t', ht'⟩ : ∃ t', commaSeparated ((jsonMembers (m :: ms)).map memberText) ++
                    unit '\x7d' :: r = unit '"' :: t' := by
                  rw [jsonMembers, List.map_cons, commaSeparated_cons, memberText, quote]
                  exact ⟨_, rfl⟩
                have hread := ihm m ms r (by simp only [cost] at h; omega)
                rw [ht'] at hread ⊢
                rw [skipSpace_cons _ (by decide)]
                simp only [show (unit '"' == unit '\x7d') = false by decide, Bool.false_eq_true,
                  if_false, hread, Option.map_some]
      · rw [jsonTexts, commaSeparated_cons, readItems]
        simp only [costItems] at h
        cases vs with
        | nil =>
            rw [jsonTexts, ihv v _ (by omega) (noNumeral_cons _ (by decide))]
            simp only [Option.bind_some, skipSpace_cons r (show isJsonSpace (unit ']') = false by decide),
              show (unit ']' == unit ',') = false by decide, Bool.false_eq_true, if_false,
              beq_self_eq_true, if_true]
        | cons w vs =>
            have hread := ihi w vs r (by simp only [costItems] at h ⊢; omega)
            rw [jsonTexts] at hread ⊢
            rw [ihv v _ (by omega) (noNumeral_cons _ (by decide))]
            simp only [Option.bind_some, skipSpace_cons _ (show isJsonSpace (unit ',') = false by decide),
              beq_self_eq_true, if_true, hread, Option.map_some]
      · obtain ⟨k, v⟩ := m
        rw [jsonMembers, List.map_cons, commaSeparated_cons, readMembers, memberText, quote]
        simp only [costMembers] at h
        simp only [List.cons_append, List.append_assoc, List.nil_append,
          skipSpace_cons _ (show isJsonSpace (unit '"') = false by decide), beq_self_eq_true, if_true,
          readString_quoteUnits, Option.bind_some,
          skipSpace_cons _ (show isJsonSpace (unit ':') = false by decide)]
        cases ms with
        | nil =>
            simp only [jsonMembers, List.map_nil]
            rw [ihv v _ (by omega) (noNumeral_cons _ (by decide))]
            simp only [Option.bind_some, skipSpace_cons r (show isJsonSpace (unit '\x7d') = false by decide),
              show (unit '\x7d' == unit ',') = false by decide, Bool.false_eq_true, if_false,
              beq_self_eq_true, if_true]
        | cons m ms =>
            have hread := ihm m ms r (by simp only [costMembers] at h ⊢; omega)
            rw [jsonMembers, List.map_cons] at hread ⊢
            rw [ihv v _ (by omega) (noNumeral_cons _ (by decide))]
            simp only [Option.bind_some, skipSpace_cons _ (show isJsonSpace (unit ',') = false by decide),
              beq_self_eq_true, if_true, hread, Option.map_some]

end readBack

/-- Reads the texts of the number grammar as they stand. -/
def readNumeral (t : Text) : Option JsNumber :=
  if h : isJsonNumber t = true then some ⟨t, h⟩ else none

theorem readNumeral_text (x : JsNumber) : readNumeral x.text = some x := dif_pos x.isNumber

theorem readValue_jsonText {v : Json} {n : ℕ} (h : cost v ≤ n) :
    readValue readNumeral n (jsonText v) = some (v, []) := by
  have h' := (read_json readNumeral_text n).1 v [] h (by rintro u t ⟨⟩)
  rwa [List.append_nil] at h'

/-- A canonical text reads back as the value in normal form. -/
theorem readValue_canonText {v : Json} {n : ℕ} (h : cost v ≤ n) :
    readValue readNumeral n (canonText v) = some (v.normal, []) := by
  rw [← jsonText_normal]
  exact readValue_jsonText (cost_normal v ▸ h)

/-- The canonical text determines a value up to the order of object members. -/
theorem canonText_injective {u v : Json} (h : canonText u = canonText v) : u.normal = v.normal := by
  have hu := readValue_canonText (le_max_left (cost u) (cost v))
  have hv := readValue_canonText (le_max_right (cost u) (cost v))
  rw [h, hv] at hu
  exact (congrArg Prod.fst (Option.some.inj hu)).symm

/-- A text that is one JSON value. -/
def parseJson (t : Text) : Option Json :=
  match readValue readNumeral t.length t with
  | some (v, rest) => if (skipSpace rest).isEmpty then some v else none
  | none => none

mutual

theorem cost_le_length : ∀ v : Json, cost v ≤ (jsonText v).length
  | .null => by decide
  | .bool b => by cases b <;> decide
  | .num x => by
      obtain ⟨u, t, ht, -, -⟩ := jsonText_head (.num x)
      rw [ht]
      simp [cost]
  | .str s => by simp [cost, jsonText, stringify, quote]
  | .arr items => by
      have h := costItems_le_length items
      simp only [cost, jsonText, List.length_cons, List.length_append, List.length_nil]
      omega
  | .obj members => by
      have h := costMembers_le_length members
      simp only [cost, jsonText, List.length_cons, List.length_append, List.length_nil]
      omega

theorem costItems_le_length : ∀ vs : List Json,
    costItems vs ≤ (commaSeparated (jsonTexts vs)).length + 1
  | [] => Nat.zero_le _
  | v :: vs => by
      have h := cost_le_length v
      have hs := costItems_le_length vs
      cases vs with
      | nil =>
          simp only [costItems, jsonTexts, commaSeparated]
          omega
      | cons w vs =>
          simp only [costItems, jsonTexts, commaSeparated, List.length_append, List.length_cons] at hs ⊢
          omega

theorem costMembers_le_length : ∀ ms : List (Text × Json),
    costMembers ms ≤ (commaSeparated ((jsonMembers ms).map memberText)).length + 1
  | [] => Nat.zero_le _
  | (k, v) :: ms => by
      have h := cost_le_length v
      have hs := costMembers_le_length ms
      cases ms with
      | nil =>
          simp only [costMembers, jsonMembers, List.map_cons, List.map_nil, commaSeparated,
            memberText, List.length_append, List.length_cons]
          omega
      | cons m ms =>
          simp only [costMembers, jsonMembers, List.map_cons, commaSeparated, memberText,
            List.length_append, List.length_cons] at hs ⊢
          omega

end

/-- What was written as JSON is parsed as the value it was written from. -/
theorem parseJson_jsonText (v : Json) : parseJson (jsonText v) = some v := by
  rw [parseJson, readValue_jsonText (cost_le_length v)]
  rfl

/-! ### Members of a normal form -/

theorem memberOf_normalMembers (ms : List (Text × Json)) (k : Text) :
    memberOf (normalMembers ms) k = (memberOf ms k).map Json.normal := by
  induction ms with
  | nil => rfl
  | cons m ms ih =>
      obtain ⟨k', v⟩ := m
      rw [normalMembers]
      simp only [memberOf, List.find?_cons] at ih ⊢
      by_cases h : k' = k <;> simp [h, ih]

theorem memberOf_sortBy (ms : List (Text × Json)) (k : Text) :
    memberOf (sortBy compareKeys ms) k = memberOf ms k := by
  simp only [memberOf, ← List.head?_filter]
  rw [filter_sortBy]
  refine List.pairwise_of_forall_mem_list (fun a ha b hb => ?_)
  simp only [List.mem_filter, decide_eq_true_eq] at ha hb
  rw [compareKeys, ha.2, hb.2, Std.ReflOrd.compare_self]
  decide

/-- The value of a member of an object in normal form. -/
theorem normal_obj (ms : List (Text × Json)) :
    ∃ ns, (Json.obj ms).normal = .obj ns ∧
      ∀ k, memberOf ns k = (memberOf ms k).map Json.normal := by
  refine ⟨_, Json.normal.eq_2 ms, fun k => ?_⟩
  rw [memberOf_sortBy, memberOf_normalMembers]

end QeReport

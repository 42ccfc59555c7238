import QeReport.Sdk.Entries
import QeReport.Sdk.Session

/-! # Redaction does not depend on a secret

Two texts that differ in the value behind a sensitive name only stay so (`Alike`) up to the rule for
the name, which makes them one text. -/

namespace QeReport.Sdk.Redactor

open Regex (EndsOutside FoundAlike Match endsOutside_append lastOf
  lastOf_length_append lastOf_pos lastOf_zero matchAt minLength minLength_concat_pos replaceAll
  replaceFrom replaceFrom_alike replaceFrom_append_of_none replaceFrom_none replaceFrom_some
  startsWith)

section
variable (e : Entry codeUnits) (v v' : Value codeUnits)

/-- The same text, or two that differ in the value of an entry. -/
inductive Alike : Text → Text → Prop
  | same (t : Text) : Alike t t
  | apart (w : Text) (z : Behind codeUnits) (h : EndsOutside (isWord codeUnits) none w) :
      Alike (w ++ e.text v ++ z.text) (w ++ e.text v' ++ z.text)

/-- A rule that sees no difference from before an entry, and nothing in what ends its value. -/
structure Rule.Steady (rule : Rule CodeUnit) : Prop where
  pos : 0 < minLength rule.pattern
  outside : ∀ m prev, EndsOutside (isWord codeUnits) prev (rule.replacement m)
  find : ∀ z prev y, y ≠ [] → EndsOutside (isWord codeUnits) prev y →
    FoundAlike rule.pattern rule.replacement y (e.text v) (e.text v') z prev
  behind : ∀ (z : Behind codeUnits) prev x t, z.text = x :: t →
    matchAt rule.pattern prev (x :: t) = none

variable {e v v'} {rule : Rule CodeUnit} {t t' : Text}

/-- What ends a value is left, whatever stands before it. -/
theorem Rule.Steady.behind_text (h : rule.Steady e v v') (z : Behind codeUnits) :
    ∃ z' : Behind codeUnits, ∀ p,
      replaceFrom rule.pattern rule.replacement 0 p z.text = z'.text := by
  cases hz : z.text with
  | nil => exact ⟨⟨[], rfl⟩, fun _ => rfl⟩
  | cons x t =>
      have hhead := z.head
      rw [hz] at hhead
      exact ⟨⟨x :: replaceFrom rule.pattern rule.replacement 0 (some x) t, hhead⟩, fun p =>
        replaceFrom_none (h.behind z p x t hz)⟩

/-- The scan up to an entry. -/
theorem Rule.Steady.scan (h : rule.Steady e v v') {w : Text} (z : Behind codeUnits)
    (hw : EndsOutside (isWord codeUnits) none w) :
    replaceAll rule.pattern rule.replacement (w ++ e.text v ++ z.text) =
        replaceAll rule.pattern rule.replacement (w ++ e.text v' ++ z.text) ∨
      ∃ w' p, EndsOutside (isWord codeUnits) none w' ∧ p.any (isWord codeUnits) = false ∧
        replaceAll rule.pattern rule.replacement (w ++ e.text v ++ z.text) =
          w' ++ replaceFrom rule.pattern rule.replacement 0 p (e.text v ++ z.text) ∧
        replaceAll rule.pattern rule.replacement (w ++ e.text v' ++ z.text) =
          w' ++ replaceFrom rule.pattern rule.replacement 0 p (e.text v' ++ z.text) := by
  obtain ⟨z', hz'⟩ := h.behind_text z
  rcases replaceFrom_alike h.pos h.outside (fun prev y => h.find z.text prev y)
    (fun p p' => by rw [hz', hz']) none w hw with heq | ⟨w', p, hends, hp, heq, heq'⟩
  · exact .inl heq
  · exact .inr ⟨w', p, hends none (fun _ => rfl), hp, heq, heq'⟩

/-- A rule that finds nothing in an entry leaves two texts alike. -/
theorem Rule.Steady.alike (h : rule.Steady e v v')
    (hnone : ∀ v (z : Behind codeUnits) p u m, p.any (isWord codeUnits) = false → m ≠ [] →
      u ++ m = e.text v →
      matchAt rule.pattern (lastOf p (e.text v) u.length) (m ++ z.text) = none)
    (ht : Alike e v v' t t') :
    Alike e v v' (replaceAll rule.pattern rule.replacement t)
      (replaceAll rule.pattern rule.replacement t') := by
  cases ht with
  | same => exact .same _
  | apart w z hw =>
      rcases h.scan z hw with heq | ⟨w', p, hw', hp, heq, heq'⟩
      · rw [heq]
        exact .same _
      · obtain ⟨z', hz'⟩ := h.behind_text z
        have hentry : ∀ v, replaceFrom rule.pattern rule.replacement 0 p (e.text v ++ z.text) =
            e.text v ++ z'.text := by
          intro v
          rw [replaceFrom_append_of_none, hz']
          intro m hne _ u hu
          exact hnone v z p u m hp hne hu
        rw [heq, heq', hentry, hentry, ← List.append_assoc, ← List.append_assoc]
        exact .apart w' z' hw'

/-- A rule that replaces an entry makes them one. -/
theorem Rule.Steady.merge (h : rule.Steady e v v')
    (heq : ∀ (z : Behind codeUnits) p, p.any (isWord codeUnits) = false →
      replaceFrom rule.pattern rule.replacement 0 p (e.text v ++ z.text) =
        replaceFrom rule.pattern rule.replacement 0 p (e.text v' ++ z.text))
    (ht : Alike e v v' t t') :
    replaceAll rule.pattern rule.replacement t = replaceAll rule.pattern rule.replacement t' := by
  cases ht with
  | same => rfl
  | apart w z hw =>
      rcases h.scan z hw with hsame | ⟨w', p, -, hp, hleft, hright⟩
      · exact hsame
      · rw [hleft, hright, heq z p hp]

/-! ### The rules for names -/

theorem endsOutside_concat {p : CodeUnit → Bool} {prev : Option CodeUnit} (s : Text) {u : CodeUnit}
    (hu : p u = false) : EndsOutside p prev (s ++ [u]) := by
  rw [endsOutside_append]
  exact hu

theorem endsOutside_redacted (prev : Option CodeUnit) (s : Text) :
    EndsOutside (isWord codeUnits) prev (s ++ redacted codeUnits) := by
  have h : redacted codeUnits = txt "[REDACTED" ++ [unit ']'] := by decide
  rw [h, ← List.append_assoc]
  exact endsOutside_concat _ (by decide)

theorem endsOutside_quote (prev : Option CodeUnit) (s : Text) {q : String}
    (hq : q = "\"" ∨ q = "'") :
    EndsOutside (isWord codeUnits) prev (s ++ written codeUnits q) := by
  rcases hq with rfl | rfl
  · exact endsOutside_concat s (u := unit '"') (by decide)
  · exact endsOutside_concat s (u := unit '\'') (by decide)

theorem endsOutside_replaceValue (m : Match CodeUnit) (prev : Option CodeUnit) :
    EndsOutside (isWord codeUnits) prev (replaceValue codeUnits m) := by
  rw [replaceValue]
  split_ifs
  · rw [← List.append_assoc]
    exact endsOutside_quote prev _ (.inl rfl)
  · rw [← List.append_assoc]
    exact endsOutside_quote prev _ (.inr rfl)
  · exact endsOutside_redacted prev _

theorem steady_privateKeyBlock :
    (⟨privateKeyBlock codeUnits, fun _ => redacted codeUnits⟩ : Rule CodeUnit).Steady e v v' where
  pos := by decide
  outside _ prev := endsOutside_redacted prev []
  find z prev y _ _ := e.foundAlike_privateKeyBlock v v' z y _ prev
  behind z prev _ _ hz := z.matchAt_privateKeyBlock prev hz

theorem minLength_namedValue (names : List String) (stops : String) :
    0 < minLength (namedValue codeUnits names stops) := by
  apply minLength_concat_pos (r := .group 3 (separator codeUnits)) (by simp)
  exact minLength_concat_pos (r := .one (isSeparator codeUnits)) (.tail _ (.head _)) Nat.zero_lt_one

/-- What stands behind an entry, and how much of it goes with the value. -/
theorem Rule.Steady.behind_entry (h : rule.Steady e v v') (z : Behind codeUnits)
    (p : Option CodeUnit) (v : Value codeUnits) (l : ℕ) :
    replaceFrom rule.pattern rule.replacement 0 (lastOf p (e.text v ++ z.text)
        ((e.text v).length + l)) ((e.text v ++ z.text).drop ((e.text v).length + l)) =
      replaceFrom rule.pattern rule.replacement 0 (lastOf none z.text l) (z.text.drop l) := by
  rw [← List.drop_drop, List.drop_left, lastOf_length_append]
  cases l with
  | zero =>
      obtain ⟨z', hz'⟩ := h.behind_text z
      rw [List.drop_zero, hz', hz']
  | succ l =>
      cases hz : z.text with
      | nil => rfl
      | cons x t => rw [lastOf_pos _ none (Nat.succ_pos l) (List.cons_ne_nil x t)]

section names
variable {names : List String} (hnames : AreWords names) {stops : String}
  (hstops : stops.toList ⊆ specials.toList)
include hnames hstops

theorem steady_namedValue :
    (⟨namedValue codeUnits names stops, replaceValue codeUnits⟩ : Rule CodeUnit).Steady e v v' where
  pos := minLength_namedValue names stops
  outside := endsOutside_replaceValue
  find z _ _ hy hends := e.foundAlike_namedValue hnames hstops v v' z hy hends
  behind z prev _ _ hz := z.matchAt_namedValue hnames stops prev hz

/-- An entry with another name is left. -/
theorem alike_namedValue (he : names.any e.Is = false) (ht : Alike e v v' t t') :
    Alike e v v' (replaceAll (namedValue codeUnits names stops) (replaceValue codeUnits) t)
      (replaceAll (namedValue codeUnits names stops) (replaceValue codeUnits) t') := by
  apply (steady_namedValue hnames hstops).alike _ ht
  intro v z p u m hp hne hum
  dsimp only
  cases u with
  | nil =>
      rw [List.nil_append] at hum
      rw [List.length_nil, lastOf_zero, hum, e.matchAt_namedValue hnames hstops v z.text hp, he]
      rfl
  | cons x u =>
      rw [matchAt_namedValue, e.namedAt_within hnames stops v z (List.cons_ne_nil x u) hne hum]
      rfl

/-- An entry with one of the names is replaced, whatever its value. -/
theorem merge_namedValue (he : names.any e.Is = true) (ht : Alike e v v' t t') :
    replaceAll (namedValue codeUnits names stops) (replaceValue codeUnits) t =
      replaceAll (namedValue codeUnits names stops) (replaceValue codeUnits) t' := by
  have hsteady : (⟨namedValue codeUnits names stops, replaceValue codeUnits⟩ :
    Rule CodeUnit).Steady e v v' := steady_namedValue hnames hstops
  apply hsteady.merge _ ht
  intro z p hp
  have hmatch := fun v => e.matchAt_namedValue hnames hstops v z.text hp
  have hsubst : ∀ (v : Value codeUnits) n, replacementOf codeUnits (e.text v ++ z.text) e.head n =
      replacementOf codeUnits (e.key ++ (e.before ++ e.sign :: e.after)) e.head n := by
    intro v n
    have htext : e.text v ++ z.text =
        e.key ++ (e.before ++ e.sign :: e.after) ++ (v.text ++ z.text) := by
      simp [Entry.text, Entry.separator]
    rw [htext, replacementOf_append]
    simp only [Head.length, Entry.head, List.length_append, List.length_cons]
    omega
  simp only [he, if_true] at hmatch
  have hreplaced : ∀ v, replaceFrom (namedValue codeUnits names stops) (replaceValue codeUnits) 0 p
      (e.text v ++ z.text) =
      replacementOf codeUnits (e.key ++ (e.before ++ e.sign :: e.after)) e.head .bare ++
        replaceFrom (namedValue codeUnits names stops) (replaceValue codeUnits) 0
          (lastOf none z.text (z.text.takeWhile (isNotIn codeUnits (oneOf stops))).length)
          (z.text.drop (z.text.takeWhile (isNotIn codeUnits (oneOf stops))).length) := by
    intro v
    rw [replaceFrom_some hsteady.pos (hmatch v), replaceValue_captures, hsubst]
    dsimp only
    rw [hsteady.behind_entry z p v]
  rw [hreplaced v, hreplaced v']

end names

/-- The private keys hold no entry. -/
theorem alike_privateKeyBlock (ht : Alike e v v' t t') :
    Alike e v v' (replaceAll (privateKeyBlock codeUnits) (fun _ => redacted codeUnits) t)
      (replaceAll (privateKeyBlock codeUnits) (fun _ => redacted codeUnits) t') :=
  steady_privateKeyBlock.alike
    (fun v z _ _ _ _ hne hum => e.matchAt_privateKeyBlock v z.text _ hne ⟨_, hum⟩) ht

/-- The rules for names leave one text when the name is one of theirs. -/
theorem applyRules_nameRules (he : (sensitiveHeaders ++ sensitiveKeys).any e.Is = true)
    (ht : Alike e v v' t t') :
    applyRules (nameRules codeUnits) t = applyRules (nameRules codeUnits) t' := by
  have hblock := alike_privateKeyBlock ht
  have hstops : "\r\n".toList ⊆ specials.toList := by decide
  have hstops' : "\r\n,;&".toList ⊆ specials.toList := by decide
  simp only [applyRules, nameRules, List.foldl_cons, List.foldl_nil, headerValue, keyValue]
  cases hheader : sensitiveHeaders.any e.Is with
  | true => rw [merge_namedValue areWords_sensitiveHeaders hstops hheader hblock]
  | false =>
      have hkey : sensitiveKeys.any e.Is = true := by
        rw [List.any_append, hheader, Bool.false_or] at he
        exact he
      exact merge_namedValue areWords_sensitiveKeys hstops' hkey
        (alike_namedValue areWords_sensitiveHeaders hstops hheader hblock)

end

/-! ### Texts -/

/-- A class under the `i` flag holds both cases of a letter. -/
theorem isInI_toLowerUnit (p : Chars) (u : CodeUnit) :
    isInI codeUnits p (toLowerUnit u) = isInI codeUnits p u := by
  have hupper : ∀ c : CodeUnit, (unit 'A' ≤ c && c ≤ unit 'Z') = range 'A' 'Z' c.val := fun _ => rfl
  rw [toLowerUnit, hupper]
  cases h : range 'A' 'Z' u.val with
  | false => rfl
  | true =>
      have hrange := h
      rw [range, Bool.and_eq_true, decide_eq_true_eq, decide_eq_true_eq] at hrange
      have hA : 'A'.toNat = 65 := rfl
      have hZ : 'Z'.toNat = 90 := rfl
      have hval : (u + 32).val = u.val + 32 := by
        have hthirtytwo : (32 : CodeUnit).val = 32 := rfl
        rw [Fin.val_add, hthirtytwo]
        omega
      have hlower : range 'a' 'z' (u.val + 32) = true := by
        have ha : 'a'.toNat = 97 := rfl
        have hz : 'z'.toNat = 122 := rfl
        rw [range, Bool.and_eq_true, decide_eq_true_eq, decide_eq_true_eq]
        omega
      have hnot : range 'A' 'Z' (u.val + 32) = false := by
        rw [range, Bool.and_eq_false_iff, decide_eq_false_iff_not, decide_eq_false_iff_not]
        omega
      have hcode : ∀ c : CodeUnit, codeUnits.code c = c.val := fun _ => rfl
      rw [if_pos rfl, isInI, isInI, hcode, hcode, hval, ignoringCase, ignoringCase, swapCase,
        swapCase, hnot, hlower, h, if_neg Bool.false_ne_true, if_pos rfl, if_pos rfl,
        Nat.add_sub_cancel, Bool.or_comm]

theorem isDash_toLowerUnit (u : CodeUnit) :
    isDash codeUnits (toLowerUnit u) = isDash codeUnits u := by
  have hascii : IsAscii (· = '-'.toNat) := by
    intro c hc
    rw [of_decide_eq_true hc]
    decide
  have hpoint : ∀ c : CodeUnit, isDash codeUnits c = isInI codeUnits (· = '-'.toNat) c := by
    intro c
    apply Bool.eq_iff_iff.mpr
    constructor
    · intro h
      exact (Bool.or_eq_true _ _).mpr (.inl h)
    · intro h
      exact hascii.ignoringCase.forall (q := fun c => decide (c = '-'.toNat) = true)
        (by decide) h
  rw [hpoint, hpoint, isInI_toLowerUnit]

/-- The names of both rules. -/
def sensitiveNames : List String := sensitiveHeaders ++ sensitiveKeys

/-- A name in whatever letter case. -/
def Spells (k : Text) (name : String) : Prop := k.map toLowerUnit = txt name

/-- How the sensitive names are written. -/
theorem sensitiveNames_written : ∀ name ∈ sensitiveNames,
    txt name ≠ [] ∧ (∀ u ∈ txt name, isWord codeUnits u = true) ∧
      (txt name).head?.any (isDash codeUnits) = false ∧
      dashesApart codeUnits (txt name) = true ∧ name.toList.length = (txt name).length ∧
      startsWith (letters codeUnits name) (txt name) = true := by
  have hall : sensitiveNames.all (fun name => !(txt name).isEmpty &&
      (txt name).all (isWord codeUnits) && !(txt name).head?.any (isDash codeUnits) &&
      dashesApart codeUnits (txt name) && name.toList.length == (txt name).length &&
      startsWith (letters codeUnits name) (txt name)) = true := by
    decide
  intro name hname
  have h := List.all_eq_true.mp hall name hname
  simp only [Bool.and_eq_true, Bool.not_eq_true', beq_iff_eq, List.all_eq_true,
    List.isEmpty_eq_false_iff] at h
  obtain ⟨⟨⟨⟨⟨hne, hword⟩, hhead⟩, hapart⟩, hlength⟩, hstart⟩ := h
  exact ⟨hne, hword, hhead, hapart, hlength, hstart⟩

section spells
variable {k : Text} {name : String} (h : Spells k name)
include h

theorem Spells.isWord (hname : name ∈ sensitiveNames) : ∀ u ∈ k, isWord codeUnits u = true := by
  intro u hu
  rw [Redactor.isWord, ← isInI_toLowerUnit]
  apply (sensitiveNames_written name hname).2.1
  rw [← h]
  exact List.mem_map_of_mem hu

omit h in
theorem dashesApart_toLower (t : Text) :
    dashesApart codeUnits (t.map toLowerUnit) = dashesApart codeUnits t := by
  induction t with
  | nil => rfl
  | cons x t ih =>
      cases t with
      | nil => rfl
      | cons y t =>
          simp only [List.map_cons] at ih ⊢
          rw [dashesApart, dashesApart, ih, isDash_toLowerUnit, isDash_toLowerUnit]

omit h in
theorem startsWith_toLower (s : String) (t : Text) :
    startsWith (letters codeUnits s) (t.map toLowerUnit) = startsWith (letters codeUnits s) t := by
  have hclasses : ∀ (l : List Char) (t : Text),
      startsWith (l.map (fun ch => isInI codeUnits (· = ch.toNat))) (t.map toLowerUnit) =
        startsWith (l.map (fun ch => isInI codeUnits (· = ch.toNat))) t := by
    intro l
    induction l with
    | nil => intro t; rfl
    | cons ch l ih =>
        intro t
        cases t with
        | nil => rfl
        | cons x t =>
            rw [List.map_cons, List.map_cons, startsWith, startsWith, isInI_toLowerUnit, ih]
  exact hclasses s.toList t

end spells

/-- A sensitive name before a separator. -/
def Spells.entry {k : Text} {name : String} (h : Spells k name) (hname : name ∈ sensitiveNames)
    {before after : Text} {sign : CodeUnit}
    (hbefore : ∀ u ∈ before, isBlank codeUnits u = true)
    (hsign : isSeparator codeUnits sign = true)
    (hafter : ∀ u ∈ after, isBlank codeUnits u = true) : Entry codeUnits where
  key := k
  before := before
  sign := sign
  after := after
  key_ne := by
    rintro rfl
    exact (sensitiveNames_written name hname).1 h.symm
  key_word := h.isWord hname
  before_blank := hbefore
  sign_separator := hsign
  after_blank := hafter
  key_head := by
    have hhead := (sensitiveNames_written name hname).2.2.1
    rw [← h] at hhead
    cases k with
    | nil => rfl
    | cons x k =>
        rw [List.map_cons, List.head?_cons, Option.any_some, isDash_toLowerUnit] at hhead
        exact hhead
  key_apart := by
    have hapart := (sensitiveNames_written name hname).2.2.2.1
    rwa [← h, dashesApart_toLower] at hapart

theorem Spells.entry_is {k : Text} {name : String} (h : Spells k name)
    (hname : name ∈ sensitiveNames) {before after : Text} {sign : CodeUnit}
    (hbefore : ∀ u ∈ before, isBlank codeUnits u = true)
    (hsign : isSeparator codeUnits sign = true)
    (hafter : ∀ u ∈ after, isBlank codeUnits u = true) :
    sensitiveNames.any (h.entry hname hbefore hsign hafter).Is = true := by
  obtain ⟨-, -, -, -, hlength, hstart⟩ := sensitiveNames_written name hname
  refine List.any_eq_true.mpr ⟨name, hname, ?_⟩
  rw [← h, startsWith_toLower] at hstart
  rw [← h, List.length_map] at hlength
  rw [Entry.Is, Bool.and_eq_true, decide_eq_true_eq]
  exact ⟨hlength, hstart⟩

/-- `[A-Za-z0-9_-]` -/
def isWordUnit (u : CodeUnit) : Bool := isAlphaNumeric u || u == unit '_' || u == unit '-'

theorem isWordUnit_of_isWord {u : CodeUnit} (h : isWord codeUnits u = true) :
    isWordUnit u = true := by
  have hcode := isAscii_word.forall (q := fun c => isWordUnit (Fin.ofNat 65536 c) = true)
    (by decide) h
  rwa [show codeUnits.code u = u.val from rfl, Fin.ofNat_val_eq_self] at hcode

theorem isIn_of_isAlphaNumeric {u : CodeUnit} (h : isAlphaNumeric u = true) :
    isIn codeUnits (alphaNumericOr "") u = true := by
  have hrange : ∀ lo hi : Char, (unit lo ≤ u && u ≤ unit hi) = true → lo.toNat < 65536 →
      hi.toNat < 65536 → range lo hi u.val = true := by
    intro lo hi h hlo hhi
    rw [Bool.and_eq_true, decide_eq_true_eq, decide_eq_true_eq, Fin.le_def, Fin.le_def, unit, unit,
      Fin.val_ofNat, Fin.val_ofNat, Nat.mod_eq_of_lt hlo, Nat.mod_eq_of_lt hhi] at h
    rw [range, Bool.and_eq_true, decide_eq_true_eq, decide_eq_true_eq]
    exact h
  have hcode : codeUnits.code u = u.val := rfl
  rw [isAlphaNumeric, isLower, isDigit, Bool.or_eq_true, Bool.or_eq_true] at h
  rw [isIn, hcode, alphaNumericOr]
  rcases h with (h | h) | h
  · rw [hrange 'a' 'z' h (by decide) (by decide), Bool.or_true, Bool.true_or, Bool.true_or]
  · rw [hrange 'A' 'Z' h (by decide) (by decide), Bool.true_or, Bool.true_or, Bool.true_or]
  · rw [hrange '0' '9' h (by decide) (by decide), Bool.or_true, Bool.true_or]

/-! ### The result -/

/-- A space or a tab. -/
def isBlankUnit (u : CodeUnit) : Bool := u == unit ' ' || u == unit '\t'

/-- A sensitive name in whatever letter case, and a text that may end its value. -/
def Named (k post : Text) : Prop :=
  ((∃ name ∈ sensitiveKeys, Spells k name) ∧ post.head?.all (· ∈ txt "\r\n,;&") = true) ∨
    ((∃ name ∈ sensitiveHeaders, Spells k name) ∧ post.head?.all (· ∈ txt "\r\n") = true)

/-- The value behind a sensitive name does not influence what a text is redacted to. -/
theorem redactText_secret {k before after pre post v v' : Text} {sign : CodeUnit}
    (hnamed : Named k post) (hpre : pre.getLast?.any isWordUnit = false)
    (hbefore : before.all isBlankUnit = true) (hsign : sign = unit ':' ∨ sign = unit '=')
    (hafter : after.all isBlankUnit = true) (hv : v ≠ []) (hv' : v' ≠ [])
    (halpha : v.all isAlphaNumeric = true) (halpha' : v'.all isAlphaNumeric = true) :
    redactText (pre ++ k ++ (before ++ sign :: after) ++ v ++ post) =
      redactText (pre ++ k ++ (before ++ sign :: after) ++ v' ++ post) := by
  have hspells : ∃ name ∈ sensitiveNames, Spells k name := by
    rcases hnamed with ⟨⟨name, hname, h⟩, -⟩ | ⟨⟨name, hname, h⟩, -⟩
    · exact ⟨name, List.mem_append_right _ hname, h⟩
    · exact ⟨name, List.mem_append_left _ hname, h⟩
  have hpost : post.head?.all (isInI codeUnits (oneOf "\r\n,;&")) = true := by
    have hstop : ∀ s : String, (txt s).all (isInI codeUnits (oneOf "\r\n,;&")) = true →
        post.head?.all (· ∈ txt s) = true →
        post.head?.all (isInI codeUnits (oneOf "\r\n,;&")) = true := by
      intro s hs hpost
      cases hhead : post.head? with
      | none => rfl
      | some u =>
          rw [hhead, Option.all_some, decide_eq_true_eq] at hpost
          exact List.all_eq_true.mp hs u hpost
    rcases hnamed with ⟨-, hpost⟩ | ⟨-, hpost⟩
    · exact hstop _ (by decide) hpost
    · exact hstop _ (by decide) hpost
  have hblank : ∀ t : Text, t.all isBlankUnit = true → ∀ u ∈ t, isBlank codeUnits u = true := by
    intro t ht u hu
    have h := List.all_eq_true.mp ht u hu
    rw [isBlankUnit, Bool.or_eq_true, beq_iff_eq, beq_iff_eq] at h
    rcases h with rfl | rfl <;> decide
  have hseparator : isSeparator codeUnits sign = true := by
    rcases hsign with rfl | rfl <;> decide
  have hvalue : ∀ t : Text, t.all isAlphaNumeric = true →
      ∀ u ∈ t, isIn codeUnits (alphaNumericOr "") u = true := fun t ht u hu =>
    isIn_of_isAlphaNumeric (List.all_eq_true.mp ht u hu)
  have hends : EndsOutside (isWord codeUnits) none pre := by
    rw [EndsOutside, lastOf, List.take_length, Option.or_none]
    cases hlast : pre.getLast? with
    | none => rfl
    | some u =>
        rw [hlast, Option.any_some] at hpre
        rw [Option.any_some]
        exact Bool.eq_false_iff.mpr (fun h =>
          absurd (hpre.symm.trans (isWordUnit_of_isWord h)) (by decide))
  obtain ⟨name, hname, h⟩ := hspells
  have halike : Alike (h.entry hname (hblank before hbefore) hseparator (hblank after hafter))
      ⟨v, hv, hvalue v halpha⟩ ⟨v', hv', hvalue v' halpha'⟩ _ _ :=
    .apart pre ⟨post, hpost⟩ hends
  have htext : ∀ v : Text, pre ++ k ++ (before ++ sign :: after) ++ v ++ post =
      pre ++ (k ++ (before ++ sign :: (after ++ v))) ++ post := by
    intro v
    simp
  have hnames := applyRules_nameRules (h.entry_is hname (hblank before hbefore) hseparator
    (hblank after hafter)) halike
  rw [redactText, redactText, rules, htext, htext, applyRules, applyRules, List.foldl_append,
    List.foldl_append]
  exact congrArg (applyRules (urlRule codeUnits :: tokenRules codeUnits)) hnames

theorem redactText_secret_sample :
    redactText (txt "x; " ++ txt "Api_Key" ++ ([unit ' '] ++ unit '=' :: []) ++ txt "a1" ++
        txt ";y") =
      redactText (txt "x; " ++ txt "Api_Key" ++ ([unit ' '] ++ unit '=' :: []) ++ txt "Zz9" ++
        txt ";y") :=
  redactText_secret (.inl ⟨⟨"api_key", by decide, by unfold Spells; decide⟩, by decide⟩) (by decide) (by decide)
    (.inr rfl) (by decide) (by decide) (by decide) (by decide) (by decide)

end QeReport.Sdk.Redactor

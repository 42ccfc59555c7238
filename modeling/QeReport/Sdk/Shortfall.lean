import QeReport.Lib.Hiding
import QeReport.Sdk.Entries

/-! # How much a value falls short of its replacement

A rule that looks for names makes a text longer by as much as the values it replaces fall short of
what is written for them.  This is a weight of the places of a text (`namedShortfall`): it is read
before any mark, so that it does not grow where values are hidden behind marks, and these rules hide
values (`hides_named`). -/

namespace QeReport.Sdk.Redactor

open Regex (Match drop_take_eq head?_drop_takeWhile head?_of_take_eq length_le_of_startsWith
  matchAt minLength minLength_concat_pos replaceAll_ne_nil replaceFrom startsWith
  startsWith_append_cons startsWith_take take_eq_of_le takeWhile_of_take_eq)

/-! ### Rules that take something -/

section rules
variable {α : Type} [DecidableEq α]

/-- A rule matches no empty text and puts something in for a match. -/
structure Rule.Sound (rule : Rule α) : Prop where
  matches_some : 0 < minLength rule.pattern
  puts_some : ∀ m, rule.replacement m ≠ []

theorem applyRules_ne_nil {rules : List (Rule α)} (h : ∀ rule ∈ rules, rule.Sound)
    {text : List α} (htext : text ≠ []) : applyRules rules text ≠ [] := by
  induction rules generalizing text with
  | nil => exact htext
  | cons rule rules ih =>
      obtain ⟨hrule, hrules⟩ := List.forall_mem_cons.mp h
      exact ih hrules (replaceAll_ne_nil hrule.matches_some hrule.puts_some htext)

section sound
variable {β : Type} (B : Alphabet β)

theorem redacted_ne_nil : redacted B ≠ [] := List.cons_ne_nil _ _

theorem replaceValue_ne_nil (m : Match β) : replaceValue B m ≠ [] := by
  apply List.append_ne_nil_of_right_ne_nil
  split_ifs
  · exact List.append_ne_nil_of_right_ne_nil _ (List.cons_ne_nil _ _)
  · exact List.append_ne_nil_of_right_ne_nil _ (List.cons_ne_nil _ _)
  · exact redacted_ne_nil B

theorem minLength_lit_pos {s : String} (h : s.toList ≠ []) : 0 < minLength (lit B s) := by
  obtain ⟨ch, t, hs⟩ := List.exists_cons_of_ne_nil h
  rw [lit, hs, List.map_cons]
  exact minLength_concat_pos List.mem_cons_self Nat.zero_lt_one

theorem minLength_litI_pos {s : String} (h : s.toList ≠ []) : 0 < minLength (litI B s) := by
  obtain ⟨ch, t, hs⟩ := List.exists_cons_of_ne_nil h
  rw [litI, hs, List.map_cons]
  exact minLength_concat_pos List.mem_cons_self Nat.zero_lt_one

theorem minLength_privateKeyBlock_pos : 0 < minLength (privateKeyBlock B) := by
  apply minLength_concat_pos List.mem_cons_self
  exact minLength_lit_pos B (by decide)

theorem minLength_namedValue_pos (names : List String) (stops : String) :
    0 < minLength (namedValue B names stops) := by
  have hseparator : 0 < minLength (separator B) :=
    minLength_concat_pos (List.mem_cons_of_mem _ List.mem_cons_self) Nat.zero_lt_one
  apply minLength_concat_pos (r := .group 3 (separator B)) _ hseparator
  simp

theorem minLength_urlUserinfo_pos : 0 < minLength (urlUserinfo B) := by
  apply minLength_concat_pos (r := litI B ":") _ (minLength_litI_pos B (by decide))
  simp

theorem minLength_bearer_pos : 0 < minLength (bearer B) := by
  apply minLength_concat_pos (r := litI B "bearer") _ (minLength_litI_pos B (by decide))
  simp

theorem minLength_jwt_pos : 0 < minLength (jwt B) := by
  apply minLength_concat_pos (r := lit B "eyJ") _ (minLength_lit_pos B (by decide))
  simp

theorem minLength_token_pos {parts : List (Regex β)} {part : Regex β} (h : part ∈ parts)
    (hpart : 0 < minLength part) : 0 < minLength (token B parts) := by
  apply minLength_concat_pos (r := part) _ hpart
  simp [h]

theorem minLength_wellKnownTokens_pos : ∀ p ∈ wellKnownTokens B, 0 < minLength p := by
  simp only [wellKnownTokens, List.forall_mem_cons]
  refine ⟨?_, ?_, ?_, ?_, fun _ h => absurd h List.not_mem_nil⟩
  · exact minLength_token_pos B (List.mem_cons_of_mem _ List.mem_cons_self) (Nat.succ_pos 15)
  · exact minLength_token_pos B List.mem_cons_self (minLength_lit_pos B (by decide))
  · exact minLength_token_pos B List.mem_cons_self (minLength_lit_pos B (by decide))
  · exact minLength_token_pos B List.mem_cons_self (minLength_lit_pos B (by decide))

theorem rules_sound : ∀ rule ∈ rules B, rule.Sound := by
  have hvalue : ∀ p : Regex β, 0 < minLength p → Rule.Sound ⟨p, replaceValue B⟩ :=
    fun _ h => ⟨h, replaceValue_ne_nil B⟩
  have hredacted : ∀ p : Regex β, 0 < minLength p → Rule.Sound ⟨p, fun _ => redacted B⟩ :=
    fun _ h => ⟨h, fun _ => redacted_ne_nil B⟩
  have hurl : (urlRule B).Sound := ⟨minLength_urlUserinfo_pos B, fun _ =>
    List.append_ne_nil_of_right_ne_nil _ (List.cons_ne_nil _ _)⟩
  have hbearer : Rule.Sound ⟨bearer B, fun _ => written B "Bearer " ++ redacted B⟩ :=
    ⟨minLength_bearer_pos B, fun _ => List.append_ne_nil_of_right_ne_nil _ (redacted_ne_nil B)⟩
  simp only [rules, nameRules, tokenRules, List.forall_mem_append, List.forall_mem_cons,
    List.forall_mem_map]
  have hnil : ∀ rule ∈ ([] : List (Rule β)), rule.Sound := fun _ h => absurd h List.not_mem_nil
  exact ⟨⟨hredacted _ (minLength_privateKeyBlock_pos B), hvalue _ (minLength_namedValue_pos B _ _),
    hvalue _ (minLength_namedValue_pos B _ _), hnil⟩, hurl,
    ⟨hbearer, hredacted _ (minLength_jwt_pos B), hnil⟩,
    fun p hp => hredacted p (minLength_wellKnownTokens_pos B p hp)⟩

end sound

end rules

/-! ### Values of names -/

/-- By how much a bare value falls short of its replacement. -/
def bareShortfall (stops : String) (t : Text) : ℕ :=
  10 - (t.takeWhile (isNotIn codeUnits (oneOf stops))).length

/-- By how much a value in quotes falls short. -/
def quotedShortfall (quote : String) (t : Text) : ℕ :=
  (quotedLength codeUnits quote t).elim 0 (fun n => 12 - n)

/-- The value is bare or in quotes. -/
def valueShortfall (stops : String) (t : Text) : ℕ :=
  Nat.max (bareShortfall stops t) (Nat.max (quotedShortfall "\"" t) (quotedShortfall "'" t))

/-- The length of a name, of the quote behind it and of a separator. -/
def nameLength (q : Text) (name : String) (t : Text) : Option ℕ :=
  (oneNameAt codeUnits q t name).map (fun h => h.name + h.quote + h.separator)

/-- By how much the value of one of the names falls short. -/
def nameShortfall (names : List String) (stops : String) (q t : Text) : ℕ :=
  greatest names
    (fun name => (nameLength q name t).elim 0 (fun n => valueShortfall stops (t.drop n)))

/-- By how much the value of a name that begins at a place falls short. -/
def namedShortfall (names : List String) (stops : String) (before rest : Text) : ℕ :=
  if rest.head?.any (isQuote codeUnits) then nameShortfall names stops (rest.take 1) (rest.drop 1)
  else if before.getLast?.any (isWord codeUnits) then 0
  else nameShortfall names stops [] rest

/-! ### They are read before a mark -/

/-- No character of the mark ends a value. -/
def Marks (stops : String) : Prop :=
  ∀ x, isNotIn codeUnits (oneOf stops) x = false → x ∉ redacted codeUnits

theorem marks_of_all {stops : String}
    (h : (redacted codeUnits).all (isNotIn codeUnits (oneOf stops)) = true) : Marks stops := by
  intro x hx hmem
  rw [List.all_eq_true.mp h x hmem] at hx
  cases hx

theorem local_bareShortfall {stops : String} (hstops : Marks stops) :
    Local (redacted codeUnits) (bareShortfall stops) := by
  intro t' hpos
  rw [bareShortfall] at hpos
  refine ⟨(t'.takeWhile (isNotIn codeUnits (oneOf stops))).length + 1, Nat.succ_pos _,
    ⟨0, fun x hx => ?_, ?_, fun m x hm hx => ?_⟩, fun t ht => ?_⟩
  · rw [List.take_zero] at hx
    cases hx
  · have hlength : (redacted codeUnits).length = 10 := by decide
    omega
  · obtain rfl := Nat.succ.inj hm
    have hend := head?_drop_takeWhile (isNotIn codeUnits (oneOf stops)) t'
    rw [List.head?_drop, hx, Option.any_some] at hend
    exact hstops x hend
  · rw [bareShortfall, bareShortfall, takeWhile_of_take_eq ht (Nat.lt_succ_self _)]

theorem quotedLength_eq_some {quote : String} {t : Text} {n : ℕ} :
    quotedLength codeUnits quote t = some n ↔ ∃ m, n = m + 2 ∧
      startsWith (letters codeUnits quote) t = true ∧
      ((t.drop 1).takeWhile (isNotIn codeUnits (oneOf (quote ++ "\r\n")))).length = m ∧
      startsWith (letters codeUnits quote) (t.drop (m + 1)) = true := by
  rw [quotedLength]
  dsimp only
  constructor
  · intro h
    split_ifs at h with hopen hclose
    exact ⟨_, (Option.some.inj h).symm, hopen, rfl, hclose⟩
  · rintro ⟨m, rfl, hopen, rfl, hclose⟩
    rw [if_pos hopen, if_pos hclose]

theorem local_quotedShortfall {quote : String} {ch : Char} (hquote : quote.toList = [ch])
    (hall : (redacted codeUnits).all (fun x => !isInI codeUnits (· = ch.toNat) x) = true) :
    Local (redacted codeUnits) (quotedShortfall quote) := by
  have hch : ∀ x ∈ redacted codeUnits, isInI codeUnits (· = ch.toNat) x = false := fun x hx =>
    Bool.not_eq_true' _ ▸ List.all_eq_true.mp hall x hx
  have hletters : letters codeUnits quote = [isInI codeUnits (· = ch.toNat)] := by
    rw [letters, hquote]
    rfl
  have hlength : (letters codeUnits quote).length = 1 := by rw [hletters]; rfl
  have hhead : ∀ {t : Text}, startsWith (letters codeUnits quote) t = true →
      ∀ x, t.head? = some x → isInI codeUnits (· = ch.toNat) x = true := by
    intro t ht x hx
    obtain ⟨u, rfl⟩ := List.head?_eq_some_iff.mp hx
    rw [hletters, startsWith, Bool.and_eq_true] at ht
    exact ht.1
  intro t' hpos
  rw [quotedShortfall] at hpos
  cases hn : quotedLength codeUnits quote t' with
  | none =>
      rw [hn] at hpos
      exact absurd hpos (Nat.lt_irrefl 0)
  | some n =>
      obtain ⟨m, rfl, hopen, hrun, hclose⟩ := quotedLength_eq_some.mp hn
      rw [hn, Option.elim_some] at hpos
      refine ⟨m + 2, by omega, ⟨1, fun x hx hmark => ?_, ?_, fun i x hi hx hmem => ?_⟩,
        fun t ht => ?_⟩
      · have hx' : t'.head? = some x := by
          cases t' with
          | nil => cases hx
          | cons y t' => rw [List.mem_singleton.mp hx]; rfl
        have hno := hch x (List.mem_of_mem_head? hmark)
        rw [hhead hopen x hx'] at hno
        cases hno
      · have hmark : (redacted codeUnits).length = 10 := by decide
        omega
      · obtain rfl : i = m + 1 := by omega
        have hno := hch x hmem
        rw [hhead hclose x (by rw [List.head?_drop, hx])] at hno
        cases hno
      · have hdrop : ∀ i j, i + j = m + 2 → (t.drop i).take j = (t'.drop i).take j := by
          intro i j hij
          refine drop_take_eq ?_
          rw [hij]
          exact ht
        have hstart : ∀ {u u' : Text}, u.take 1 = u'.take 1 →
            startsWith (letters codeUnits quote) u' = true →
            startsWith (letters codeUnits quote) u = true := by
          intro u u' hu h
          rw [← startsWith_take (n := 1) (by rw [hlength])] at h ⊢
          rw [hu]
          exact h
        have hsame : quotedLength codeUnits quote t = some (m + 2) := by
          refine quotedLength_eq_some.mpr ⟨m, rfl, hstart (take_eq_of_le (by omega) ht) hopen, ?_,
            hstart (hdrop (m + 1) 1 (by omega)) hclose⟩
          rw [takeWhile_of_take_eq (hdrop 1 (m + 1) (by omega)) (by omega), hrun]
        rw [quotedShortfall, quotedShortfall, hsame, hn]

theorem local_valueShortfall {stops : String} (hstops : Marks stops) :
    Local (redacted codeUnits) (valueShortfall stops) :=
  (local_bareShortfall hstops).max
    ((local_quotedShortfall (show "\"".toList = ['"'] by decide) (by decide)).max
      (local_quotedShortfall (show "'".toList = ['\''] by decide) (by decide)))

/-! ### Names before a mark -/

/-- A character that can stand before a value. -/
def isHeadChar (x : CodeUnit) : Bool :=
  isWord codeUnits x || isQuote codeUnits x || isBlank codeUnits x || isSeparator codeUnits x

theorem mark_ne_of_isHeadChar {x : CodeUnit} (h : isHeadChar x = true) :
    (redacted codeUnits).head? ≠ some x := by
  have hno : (redacted codeUnits).head?.all (fun x => !isHeadChar x) = true := by decide
  intro hx
  rw [hx, Option.all_some, h] at hno
  cases hno

theorem forall_take_of_startsWith {α : Type} {ps : List (α → Bool)} {t : List α} {P : α → Prop}
    (h : startsWith ps t = true) (hps : ∀ p ∈ ps, ∀ x, p x = true → P x) :
    ∀ x ∈ t.take ps.length, P x := by
  induction ps generalizing t with
  | nil => exact fun x hx => absurd hx List.not_mem_nil
  | cons p ps ih =>
      obtain ⟨hp, hps⟩ := List.forall_mem_cons.mp hps
      cases t with
      | nil => exact fun x hx => absurd hx List.not_mem_nil
      | cons y t =>
          rw [startsWith, Bool.and_eq_true] at h
          rw [List.length_cons, List.take_succ_cons, List.forall_mem_cons]
          exact ⟨hp y h.1, ih h.2 hps⟩

theorem separatorLength_eq_some {t : Text} {n : ℕ} : separatorLength codeUnits t = some n ↔
    ∃ i j, n = i + 1 + j ∧ (t.takeWhile (isBlank codeUnits)).length = i ∧
      (t.drop i).head?.any (isSeparator codeUnits) = true ∧
      ((t.drop (i + 1)).takeWhile (isBlank codeUnits)).length = j := by
  rw [separatorLength]
  constructor
  · intro h
    split_ifs at h with hsign
    exact ⟨_, _, (Option.some.inj h).symm, rfl, hsign, rfl⟩
  · rintro ⟨i, j, rfl, rfl, hsign, rfl⟩
    rw [if_pos hsign]

/-- A separator is read with what follows it. -/
theorem separatorLength_of_take {t t' : Text} {n : ℕ} (h : separatorLength codeUnits t' = some n)
    (ht : t.take (n + 1) = t'.take (n + 1)) : separatorLength codeUnits t = some n := by
  obtain ⟨i, j, rfl, hi, hsign, hj⟩ := separatorLength_eq_some.mp h
  have hdrop : ∀ k l, k + l = i + 1 + j + 1 → (t.drop k).take l = (t'.drop k).take l := by
    intro k l hkl
    refine drop_take_eq ?_
    rw [hkl]
    exact ht
  refine separatorLength_eq_some.mpr ⟨i, j, rfl, ?_, ?_, ?_⟩
  · rw [takeWhile_of_take_eq ht (by omega), hi]
  · rw [head?_of_take_eq (n := j + 2) (by omega) (hdrop i (j + 2) (by omega))]
    exact hsign
  · rw [takeWhile_of_take_eq (hdrop (i + 1) (j + 1) (by omega)) (by omega), hj]

theorem of_mem_take_takeWhile {α : Type} {p : α → Bool} {t : List α} {x : α}
    (hx : x ∈ t.take (t.takeWhile p).length) : p x = true := by
  rw [← List.prefix_iff_eq_take.mp (List.takeWhile_prefix p)] at hx
  exact List.mem_takeWhile_imp hx

theorem forall_take_separator {t : Text} {n : ℕ} (h : separatorLength codeUnits t = some n) :
    ∀ x ∈ t.take n, isBlank codeUnits x = true ∨ isSeparator codeUnits x = true := by
  obtain ⟨i, j, rfl, rfl, hsign, rfl⟩ := separatorLength_eq_some.mp h
  intro x hx
  rw [List.take_add, List.take_add, List.mem_append, List.mem_append] at hx
  rcases hx with (hx | hx) | hx
  · exact .inl (of_mem_take_takeWhile hx)
  · obtain ⟨y, hy, hsign⟩ := (Option.any_eq_true _ _).mp hsign
    obtain ⟨u, hu⟩ := List.head?_eq_some_iff.mp hy
    rw [hu, List.take_succ_cons, List.take_zero, List.mem_singleton] at hx
    exact .inr (hx ▸ hsign)
  · exact .inl (of_mem_take_takeWhile hx)

theorem oneNameAt_eq_some {q t : Text} {name : String} {h : Head} :
    oneNameAt codeUnits q t name = some h ↔ ∃ n, h = ⟨q.length, name.toList.length, n⟩ ∧
      startsWith (letters codeUnits name) t = true ∧
      q = (t.drop name.toList.length).take q.length ∧
      separatorLength codeUnits (t.drop (name.toList.length + q.length)) = some n := by
  rw [oneNameAt]
  constructor
  · intro hone
    split_ifs at hone with hstart
    obtain ⟨n, hn, rfl⟩ := Option.map_eq_some_iff.mp hone
    rw [Bool.and_eq_true, List.isPrefixOf_iff_prefix, List.prefix_iff_eq_take] at hstart
    exact ⟨n, rfl, hstart.1, hstart.2, hn⟩
  · rintro ⟨n, rfl, hstart, hquote, hn⟩
    rw [if_pos, hn, Option.map_some]
    rw [Bool.and_eq_true, List.isPrefixOf_iff_prefix, List.prefix_iff_eq_take]
    exact ⟨hstart, hquote⟩

/-- What stands before a value is read before a mark. -/
theorem nameLength_local {names : List String} (hnames : AreWords names) {name : String}
    (hname : name ∈ names) {q : Text} (hq : ∀ x ∈ q, isQuote codeUnits x = true) (t' : Text) (m : ℕ)
    (h : nameLength q name t' = some m) :
    (∀ x ∈ t'.take m, (redacted codeUnits).head? ≠ some x) ∧ m ≤ t'.length ∧
      ∀ t : Text, t.take (m + 1) = t'.take (m + 1) → nameLength q name t = some m := by
  obtain ⟨head, hone, rfl⟩ := Option.map_eq_some_iff.mp h
  obtain ⟨n, rfl, hstart, hquote, hn⟩ := oneNameAt_eq_some.mp hone
  have hletters : (letters codeUnits name).length = name.toList.length := by
    rw [letters, List.length_map]
  dsimp only
  refine ⟨fun x hx => mark_ne_of_isHeadChar ?_, ?_, fun t ht => ?_⟩
  · rw [List.take_add, List.take_add, List.mem_append, List.mem_append, ← hquote] at hx
    rw [isHeadChar]
    rcases hx with (hx | hx) | hx
    · rw [← hletters] at hx
      have hword := forall_take_of_startsWith hstart (P := fun x => isWord codeUnits x = true)
        (fun p hp x hpx => by
          by_contra hno
          rw [isWord_of_letters hnames hname (Bool.not_eq_true _ ▸ hno) p hp] at hpx
          cases hpx) x hx
      rw [hword]
      rfl
    · simp [hq x hx]
    · rcases forall_take_separator hn x hx with hblank | hsign
      · simp [hblank]
      · simp [hsign]
  · have hle := separatorLength_le hn
    have hle' := length_le_of_startsWith hstart
    rw [List.length_drop] at hle
    have hpos : 0 < n := by
      obtain ⟨i, j, hij, -⟩ := separatorLength_eq_some.mp hn
      omega
    omega
  · have hdrop : ∀ k l, k + l = name.toList.length + q.length + n + 1 →
        (t.drop k).take l = (t'.drop k).take l := by
      intro k l hkl
      refine drop_take_eq ?_
      rw [hkl]
      exact ht
    rw [nameLength, oneNameAt_eq_some.mpr ⟨n, rfl, ?_, ?_, ?_⟩, Option.map_some]
    · rw [← startsWith_take (n := name.toList.length + q.length + n + 1) (by rw [hletters]; omega),
        ht, startsWith_take (by rw [hletters]; omega)]
      exact hstart
    · rw [take_eq_of_le (n := q.length + n + 1) (by omega) (hdrop _ (q.length + n + 1) (by omega))]
      exact hquote
    · exact separatorLength_of_take hn (hdrop _ (n + 1) (by omega))

theorem local_nameShortfall {names : List String} (hnames : AreWords names) {stops : String}
    (hstops : Marks stops) {q : Text} (hq : ∀ x ∈ q, isQuote codeUnits x = true) :
    Local (redacted codeUnits) (nameShortfall names stops q) :=
  Local.greatest fun _ hname =>
    (local_valueShortfall hstops).after _ (nameLength_local hnames hname hq)

/-! ### Places around a mark -/

/-- What follows a hidden value is of no word. -/
def EndsSecret (t : Text) : Prop := t.head?.any (isWord codeUnits) = false

def isUpper (x : CodeUnit) : Bool := isIn codeUnits (range 'A' 'Z') x

/-- A place in the mark is its beginning, or stands behind the bracket or a capital letter. -/
theorem mark_split {u v : Text} (h : redacted codeUnits = u ++ v) (hv : v ≠ []) :
    (u = [] ∧ v = redacted codeUnits) ∨
    (u.getLast? = some (unit '[') ∧ v = (txt "REDACTED") ++ [unit ']']) ∨
    u.getLast?.any isUpper = true ∧ v.head?.any (isQuote codeUnits) = false := by
  have hlength := congrArg List.length h
  rw [List.length_append, show (redacted codeUnits).length = 10 by decide] at hlength
  have hvpos : 0 < v.length := List.length_pos_iff.mpr hv
  have hu : u = (redacted codeUnits).take u.length := by rw [h, List.take_left]
  have hv' : v = (redacted codeUnits).drop u.length := by rw [h, List.drop_left]
  have hlt : u.length < 10 := by omega
  generalize u.length = n at hu hv' hlt
  subst hu hv'
  have hall : ∀ n < 10, n = 0 ∨ n = 1 ∨
      ((redacted codeUnits).take n).getLast?.any isUpper = true ∧
        ((redacted codeUnits).drop n).head?.any (isQuote codeUnits) = false := by
    decide
  rcases hall n hlt with rfl | rfl | hupper
  · exact .inl ⟨rfl, rfl⟩
  · exact .inr (.inl ⟨rfl, rfl⟩)
  · exact .inr (.inr hupper)

theorem isWord_of_isUpper {x : CodeUnit} (h : isUpper x = true) : isWord codeUnits x = true :=
  (@isAscii_range 'A' 'Z' (by decide)).forall
    (q := fun c => ignoringCase (alphaNumericOr "_-") c = true) (by decide) h

theorem getLast?_append_of_any {b u : Text} {p : CodeUnit → Bool} (h : u.getLast?.any p = true) :
    (b ++ u).getLast?.any p = true := by
  obtain ⟨x, hx, hp⟩ := (Option.any_eq_true _ _).mp h
  rw [List.getLast?_append, hx, Option.some_or, Option.any_some]
  exact hp

theorem head?_append_any {v : Text} (hv : v ≠ []) {t : Text} {p : CodeUnit → Bool} :
    (v ++ t).head?.any p = v.head?.any p := by
  obtain ⟨x, v, rfl⟩ := List.exists_cons_of_ne_nil hv
  rfl

theorem nameLength_eq_none {names : List String} (hnames : AreWords names) {name : String}
    (hname : name ∈ names) {t : Text} (ht : t.head?.any (isWord codeUnits) = false) (q : Text) :
    nameLength q name t = none := by
  have hone : nameAt codeUnits names q t = none := by
    cases t with
    | nil => exact nameAt_nil hnames q
    | cons x t => exact nameAt_cons_of_not_isWord hnames q ht
  rw [nameLength, List.findSome?_eq_none_iff.mp hone name hname, Option.map_none]

theorem nameShortfall_eq_zero {names : List String} {stops : String} {q t : Text}
    (h : ∀ name ∈ names, nameLength q name t = none) : nameShortfall names stops q t = 0 :=
  greatest_eq_zero fun name hname => by rw [h name hname, Option.elim_none]

/-- The values of names fall short by no more where parts of a text are hidden. -/
theorem steady_named {names : List String} (hnames : AreWords names) {stops : String}
    (hstops : Marks stops) (front : Text → Prop)
    (hmark : names.all (fun name => !startsWith (letters codeUnits name) (txt "REDACTED")) = true) :
    Steady (redacted codeUnits) front EndsSecret (namedShortfall names stops) := by
  have hne : redacted codeUnits ≠ [] := by decide
  refine ⟨fun {b b' t t' x} h hb => ?_, fun b u v t huv hv => ?_⟩
  · rw [namedShortfall, namedShortfall, List.head?_cons, List.head?_cons, Option.any_some]
    cases hquote : isQuote codeUnits x with
    | true =>
        rw [if_pos rfl, if_pos rfl]
        -- the name behind the quote, read from the quote on
        have hlocal := (local_nameShortfall hnames hstops (q := [x]) (by simpa using hquote)).after
          (fun t => if t.head? = some x then some 1 else none) (fun t' m hm => ?_)
        · have hle := hlocal.le hne h
          simpa using hle
        · split_ifs at hm with hx
          obtain rfl := Option.some.inj hm
          obtain ⟨u, rfl⟩ := List.head?_eq_some_iff.mp hx
          refine ⟨fun y hy => mark_ne_of_isHeadChar ?_, by simp, fun t ht => ?_⟩
          · rw [List.take_succ_cons, List.take_zero, List.mem_singleton] at hy
            simp [isHeadChar, hy, hquote]
          · rw [head?_of_take_eq (by omega) ht, if_pos hx]
    | false =>
        rw [if_neg Bool.false_ne_true, if_neg Bool.false_ne_true]
        have hle := (local_nameShortfall hnames hstops (q := []) (by simp)).le hne h
        rcases hb with hb | hb
        · rw [hb]
          split_ifs
          · exact Nat.le_refl 0
          · exact hle
        · have hzero : nameShortfall names stops [] (x :: t') = 0 :=
            nameShortfall_eq_zero fun name hname =>
              nameLength_eq_none (t := x :: t') hnames hname hb []
          rw [hzero]
          split_ifs <;> exact Nat.zero_le _
  · rw [namedShortfall]
    rcases mark_split huv hv with ⟨rfl, rfl⟩ | ⟨hlast, rfl⟩ | ⟨hlast, hhead⟩
    · have hquote : (redacted codeUnits).head?.any (isQuote codeUnits) = false := by decide
      have hword : (redacted codeUnits).head?.any (isWord codeUnits) = false := by decide
      rw [head?_append_any hv, hquote, if_neg Bool.false_ne_true]
      split_ifs
      · rfl
      · refine nameShortfall_eq_zero fun name hname => nameLength_eq_none hnames hname ?_ []
        rw [head?_append_any hv, hword]
    · have hquote : (txt "REDACTED" ++ [unit ']']).head?.any (isQuote codeUnits) = false := by
        decide
      rw [head?_append_any hv, hquote, if_neg Bool.false_ne_true]
      split_ifs
      · rfl
      · refine nameShortfall_eq_zero fun name hname => ?_
        rw [nameLength, oneNameAt, List.append_assoc, List.singleton_append,
          startsWith_append_cons (isWord_of_letters hnames hname (by decide))]
        have hno := List.all_eq_true.mp hmark name hname
        rw [Bool.not_eq_true'] at hno
        rw [hno]
        rfl
    · have hword : (b ++ u).getLast?.any (isWord codeUnits) = true := by
        refine getLast?_append_of_any ?_
        obtain ⟨x, hx, hupper⟩ := (Option.any_eq_true _ _).mp hlast
        rw [hx]
        exact isWord_of_isUpper hupper
      rw [head?_append_any hv, hhead, if_neg Bool.false_ne_true, if_pos hword]

/-! ### What is written for a value -/

/-- The replacement of a value. -/
def Kind.mark : Kind → Text
  | .double => written codeUnits "\"" ++ redacted codeUnits ++ written codeUnits "\""
  | .single => written codeUnits "'" ++ redacted codeUnits ++ written codeUnits "'"
  | .bare => redacted codeUnits

/-- A match of the pattern: the name is read behind the quote `q`, and the value behind the name. -/
structure NamedMatch (names : List String) (stops : String) (prev : Option CodeUnit) (rest : Text)
    (m : Match CodeUnit) (q : Text) (name : String) (l : ℕ) : Prop where
  mem : name ∈ names
  quote : q = rest.take q.length
  quoted : rest.head?.any (isQuote codeUnits) = true → q = rest.take 1
  bare : rest.head?.any (isQuote codeUnits) = false → q = [] ∧ prev.any (isWord codeUnits) = false
  read : nameLength q name (rest.drop q.length) = some l
  length : m.length = q.length + l + (valueAt codeUnits stops (rest.drop (q.length + l))).2
  written : replaceValue codeUnits m =
    rest.take (q.length + l) ++ (valueAt codeUnits stops (rest.drop (q.length + l))).1.mark

theorem exists_namedMatch {names : List String} (hnames : AreWords names) {stops : String}
    {prev : Option CodeUnit} {rest : Text} {m : Match CodeUnit}
    (h : matchAt (namedValue codeUnits names stops) prev rest = some m) :
    ∃ q name l, NamedMatch names stops prev rest m q name l := by
  rw [matchAt_namedValue] at h
  obtain ⟨⟨head, kind, n⟩, hnamed, rfl⟩ := Option.map_eq_some_iff.mp h
  rw [namedAt] at hnamed
  split_ifs at hnamed with hprev
  obtain ⟨head', hhead, heq⟩ := Option.map_eq_some_iff.mp hnamed
  rw [Prod.mk.injEq] at heq
  obtain ⟨rfl, hvalue⟩ := heq
  -- the text of the head is written as it was read
  have hmatch : ∀ {q : Text} {name : String} {t : Text}, q = rest.take q.length →
      t = rest.drop q.length → oneNameAt codeUnits q t name = some head' →
      q.length + (head'.name + head'.quote + head'.separator) = head'.length ∧
      replaceValue codeUnits ⟨head'.length + n, captures rest head' kind n⟩ =
        rest.take head'.length ++ kind.mark := by
    rintro q name t hq rfl hone
    obtain ⟨k, rfl, -, hagain, -⟩ := oneNameAt_eq_some.mp hone
    have hparts : ∀ h : Head, replacementOf codeUnits rest h kind = rest.take h.quote ++
        (rest.drop h.quote).take h.name ++ rest.take h.quote ++
        (rest.drop (h.quote + h.name + h.quote)).take h.separator ++ kind.mark := by
      cases kind <;> exact fun _ => rfl
    rw [List.drop_drop] at hagain
    rw [replaceValue_captures, hparts]
    dsimp only [Head.length]
    refine ⟨by omega, ?_⟩
    rw [List.take_add, List.take_add, List.take_add, ← hagain, ← hq]
  have hdrop : ∀ {q : Text},
      q.length + (head'.name + head'.quote + head'.separator) = head'.length →
      valueAt codeUnits stops (rest.drop (q.length +
        (head'.name + head'.quote + head'.separator))) = (kind, n) := by
    intro q hq
    rw [hq]
    exact hvalue
  rw [headAt, Option.or_eq_some_iff] at hhead
  rcases hhead with hquoted | ⟨-, hbare⟩
  · split_ifs at hquoted with hquote
    obtain ⟨name, hname, hone⟩ := List.exists_of_findSome?_eq_some hquoted
    obtain ⟨x, hx, -⟩ := (Option.any_eq_true _ _).mp hquote
    obtain ⟨t, rfl⟩ := List.head?_eq_some_iff.mp hx
    obtain ⟨hlength, hwritten⟩ := hmatch (q := (x :: t).take 1) rfl rfl hone
    refine ⟨(x :: t).take 1, name, head'.name + head'.quote + head'.separator, hname, rfl,
      fun _ => rfl, fun hno => ?_, ?_, ?_, ?_⟩
    · rw [hquote] at hno
      cases hno
    · exact Option.map_eq_some_iff.mpr ⟨head', hone, rfl⟩
    · rw [hdrop hlength, hlength]
    · rw [hdrop hlength, hlength]
      exact hwritten
  · obtain ⟨name, hname, hone⟩ := List.exists_of_findSome?_eq_some hbare
    obtain ⟨hlength, hwritten⟩ := hmatch (q := []) rfl rfl hone
    refine ⟨[], name, head'.name + head'.quote + head'.separator, hname, rfl, fun hquote => ?_,
      fun _ => ⟨rfl, Bool.not_eq_true _ ▸ hprev⟩, ?_, ?_, ?_⟩
    · obtain ⟨x, hx, hquote⟩ := (Option.any_eq_true _ _).mp hquote
      obtain ⟨t, rfl⟩ := List.head?_eq_some_iff.mp hx
      rw [nameAt_cons_of_not_isWord hnames [] (isQuote_apart hquote)] at hbare
      cases hbare
    · exact Option.map_eq_some_iff.mpr ⟨head', hone, rfl⟩
    · rw [hdrop hlength, hlength]
    · rw [hdrop hlength, hlength]
      exact hwritten

/-- What is written for a value is longer by no more than the value falls short. -/
theorem length_mark_le (stops : String) (t : Text) :
    (valueAt codeUnits stops t).1.mark.length ≤
      (valueAt codeUnits stops t).2 + valueShortfall stops t := by
  have hredacted : (redacted codeUnits).length = 10 := by decide
  have hbare : bareShortfall stops t ≤ valueShortfall stops t := Nat.le_max_left _ _
  have hdouble : quotedShortfall "\"" t ≤ valueShortfall stops t :=
    Nat.le_trans (Nat.le_max_left _ _) (Nat.le_max_right _ _)
  have hsingle : quotedShortfall "'" t ≤ valueShortfall stops t :=
    Nat.le_trans (Nat.le_max_right _ _) (Nat.le_max_right _ _)
  rw [valueAt]
  cases hd : quotedLength codeUnits "\"" t with
  | some n =>
      rw [quotedShortfall, hd, Option.elim_some] at hdouble
      have hlength : Kind.double.mark.length = 12 := by decide
      dsimp only
      omega
  | none =>
      cases hs : quotedLength codeUnits "'" t with
      | some n =>
          rw [quotedShortfall, hs, Option.elim_some] at hsingle
          have hlength : Kind.single.mark.length = 12 := by decide
          dsimp only
          omega
      | none =>
          rw [bareShortfall] at hbare
          dsimp only [Kind.mark]
          omega

/-- A rule that looks for names makes a text longer by no more than the values fall short. -/
theorem length_replaceValue_le {names : List String} (hnames : AreWords names) {stops : String}
    {b rest : Text} {m : Match CodeUnit}
    (h : matchAt (namedValue codeUnits names stops) b.getLast? rest = some m) :
    (replaceValue codeUnits m).length ≤ m.length + namedShortfall names stops b rest := by
  obtain ⟨q, name, l, hmatch⟩ := exists_namedMatch hnames h
  have hvalue : valueShortfall stops (rest.drop (q.length + l)) ≤
      nameShortfall names stops q (rest.drop q.length) := by
    refine Nat.le_trans ?_ (le_greatest hmatch.mem)
    rw [hmatch.read, Option.elim_some, List.drop_drop]
  have hplace : nameShortfall names stops q (rest.drop q.length) ≤
      namedShortfall names stops b rest := by
    rw [namedShortfall]
    cases hquote : rest.head?.any (isQuote codeUnits) with
    | true =>
        obtain ⟨x, hx, -⟩ := (Option.any_eq_true _ _).mp hquote
        obtain ⟨t, rfl⟩ := List.head?_eq_some_iff.mp hx
        rw [hmatch.quoted hquote, if_pos rfl]
        exact Nat.le_refl _
    | false =>
        obtain ⟨rfl, hprev⟩ := hmatch.bare hquote
        rw [if_neg Bool.false_ne_true, hprev, if_neg Bool.false_ne_true]
        exact Nat.le_refl _
  have hmark := length_mark_le stops (rest.drop (q.length + l))
  have htake := List.length_take_le (q.length + l) rest
  rw [hmatch.written, hmatch.length, List.length_append]
  omega

/-! ### What a value is hidden behind -/

/-- `[A-Za-z0-9\-._~+/]`. -/
def isTokenChar (x : CodeUnit) : Bool := isInI codeUnits (alphaNumericOr "-._~+/") x

/-- No token can go on into what follows. -/
def BeforeSecret (b : Text) : Prop := b.getLast?.any isTokenChar = false ∨ txt "://" <:+ b

/-- The text ends with a character that is of no token. -/
def EndsToken (u : Text) : Prop := ∃ x, u.getLast? = some x ∧ isTokenChar x = false

theorem EndsToken.beforeSecret {u : Text} (h : EndsToken u) (b : Text) : BeforeSecret (b ++ u) := by
  obtain ⟨x, hx, htoken⟩ := h
  refine .inl ?_
  rw [List.getLast?_append, hx, Option.some_or, Option.any_some]
  exact htoken

theorem EndsToken.append {u : Text} (h : EndsToken u) (b : Text) : EndsToken (b ++ u) := by
  obtain ⟨x, hx, htoken⟩ := h
  exact ⟨x, by rw [List.getLast?_append, hx, Option.some_or], htoken⟩

/-- A head ends with a blank or a sign. -/
theorem endsToken_nameLength {q t : Text} {name : String} {l : ℕ}
    (h : nameLength q name t = some l) : EndsToken (t.take l) := by
  obtain ⟨head, hone, rfl⟩ := Option.map_eq_some_iff.mp h
  obtain ⟨n, rfl, -, -, hn⟩ := oneNameAt_eq_some.mp hone
  have hle := separatorLength_le hn
  have hpos : 0 < n := by
    obtain ⟨i, j, hij, -⟩ := separatorLength_eq_some.mp hn
    omega
  dsimp only
  rw [List.take_add]
  refine EndsToken.append ?_ _
  have hne : (t.drop (name.toList.length + q.length)).take n ≠ [] := by
    rw [← List.length_pos_iff, List.length_take]
    omega
  refine ⟨_, List.getLast?_eq_some_getLast hne, ?_⟩
  have hblank : IsAscii (ignoringCase (oneOf " \t")) :=
    (isAscii_oneOf (by decide)).ignoringCase
  have hsign : IsAscii (ignoringCase (oneOf ":=")) := (isAscii_oneOf (by decide)).ignoringCase
  rcases forall_take_separator hn _ (List.getLast_mem hne) with h | h
  · exact hblank.forall (q := fun c => ignoringCase (alphaNumericOr "-._~+/") c = false)
      (by decide) h
  · exact hsign.forall (q := fun c => ignoringCase (alphaNumericOr "-._~+/") c = false)
      (by decide) h

/-- A character that has no other case is alone in its class. -/
theorem code_of_isInI {ch : Char} (hch : ch.toNat < 128)
    (hcase : ∀ c < 128, ignoringCase (· = ch.toNat) c = true → c = ch.toNat) {x : CodeUnit}
    (hx : isInI codeUnits (· = ch.toNat) x = true) : x.val = ch.toNat := by
  have hascii : IsAscii (fun c => decide (c = ch.toNat)) := fun c hc => by
    rw [of_decide_eq_true hc]
    exact hch
  exact hascii.ignoringCase.forall hcase hx

/-- A value is what the mark stands for, between its quotes. -/
theorem value_parts {stops : String} (hstops : stops.toList ⊆ specials.toList) (t : Text) :
    ∃ hd s tl, t.take (valueAt codeUnits stops t).2 = hd ++ s ++ tl ∧
      (valueAt codeUnits stops t).1.mark = hd ++ redacted codeUnits ++ tl ∧
      (hd = [] ∨ EndsToken hd) ∧ EndsSecret (tl ++ t.drop (valueAt codeUnits stops t).2) := by
  have hquoted : ∀ {quote : String} {ch : Char} {n : ℕ}, quote.toList = [ch] →
      written codeUnits quote = [unit ch] →
      (∀ x, isInI codeUnits (· = ch.toNat) x = true → x = unit ch) →
      isTokenChar (unit ch) = false → isWord codeUnits (unit ch) = false →
      quotedLength codeUnits quote t = some n →
      ∃ s, t.take n = written codeUnits quote ++ s ++ written codeUnits quote ∧
        EndsToken (written codeUnits quote) ∧ EndsSecret (written codeUnits quote ++ t.drop n) := by
    intro quote ch n hquote hwritten hclass htoken hword hn
    obtain ⟨m, rfl, hopen, -, hclose⟩ := quotedLength_eq_some.mp hn
    have hletters : letters codeUnits quote = [isInI codeUnits (· = ch.toNat)] := by
      rw [letters, hquote]
      rfl
    have hhead : ∀ {u : Text}, startsWith (letters codeUnits quote) u = true →
        ∃ w, u = unit ch :: w := by
      intro u hu
      cases u with
      | nil => rw [hletters] at hu; cases hu
      | cons x u =>
          rw [hletters, startsWith, Bool.and_eq_true] at hu
          exact ⟨u, by rw [hclass x hu.1]⟩
    obtain ⟨w, rfl⟩ := hhead hopen
    obtain ⟨w', hw'⟩ := hhead hclose
    rw [List.drop_succ_cons] at hw'
    refine ⟨w.take m, ?_, ?_, ?_⟩
    · rw [hwritten, List.take_succ_cons, List.take_add, hw', List.take_succ_cons, List.take_zero]
      rfl
    · rw [hwritten]
      exact ⟨unit ch, rfl, htoken⟩
    · rw [hwritten]
      exact hword
  rw [valueAt]
  cases hdouble : quotedLength codeUnits "\"" t with
  | some n =>
      obtain ⟨s, htake, htoken, hsecret⟩ := hquoted (show "\"".toList = ['"'] by decide) (by decide)
        (fun x hx => Fin.ext (code_of_isInI (by decide) (by decide) hx)) (by decide)
        (by decide) hdouble
      exact ⟨_, s, _, htake, rfl, .inr htoken, hsecret⟩
  | none =>
      cases hsingle : quotedLength codeUnits "'" t with
      | some n =>
          obtain ⟨s, htake, htoken, hsecret⟩ := hquoted (show "'".toList = ['\''] by decide)
            (by decide)
            (fun x hx => Fin.ext (code_of_isInI (by decide) (by decide) hx))
            (by decide) (by decide) hsingle
          exact ⟨_, s, _, htake, rfl, .inr htoken, hsecret⟩
      | none =>
          refine ⟨[], _, [], (List.append_nil _).symm, (List.append_nil _).symm, .inl rfl, ?_⟩
          -- the value ends with its line or at a delimiter
          have hend := head?_drop_takeWhile (isNotIn codeUnits (oneOf stops)) t
          rw [EndsSecret, List.nil_append]
          cases hrest : (t.drop (t.takeWhile (isNotIn codeUnits (oneOf stops))).length).head? with
          | none => rfl
          | some x =>
              rw [hrest, Option.any_some] at hend
              rw [Option.any_some]
              cases hword : isWord codeUnits x with
              | false => rfl
              | true =>
                  rw [isNotIn_of_isPlain hstops (isWord_apart hword).2.2.2] at hend
                  cases hend

/-- A rule that looks for names hides values. -/
theorem hides_named {names : List String} (hnames : AreWords names) {stops : String}
    (hstops : stops.toList ⊆ specials.toList) (b b' : Text) (prev : Option CodeUnit) (rest : Text) :
    Hides (redacted codeUnits) BeforeSecret EndsSecret b b' rest
      (replaceFrom (namedValue codeUnits names stops) (replaceValue codeUnits) 0 prev rest) := by
  refine hides_replaceFrom (minLength_namedValue_pos codeUnits names stops)
    (fun prev rest m h => ?_) b b' prev rest
  obtain ⟨q, name, l, hmatch⟩ := exists_namedMatch hnames h
  obtain ⟨hd, s, tl, htake, hmark, hhd, hend⟩ := value_parts hstops (rest.drop (q.length + l))
  refine ⟨rest.take (q.length + l) ++ hd, s, tl, ?_, ?_, fun b => EndsToken.beforeSecret ?_ b, ?_⟩
  · rw [hmatch.length, List.take_add, htake]
    simp only [List.append_assoc]
  · rw [hmatch.written, hmark]
    simp only [List.append_assoc]
  · rcases hhd with rfl | hhd
    · rw [List.append_nil, List.take_add]
      exact (endsToken_nameLength hmatch.read).append _
    · exact hhd.append _
  · rw [hmatch.length, ← List.drop_drop]
    exact hend

end QeReport.Sdk.Redactor

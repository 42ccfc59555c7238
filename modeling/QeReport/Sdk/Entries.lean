import QeReport.Lib.RegexAlike
import QeReport.Sdk.NamedValues
import QeReport.Sdk.PrivateKeys

/-! # What is read around a name with its value

A value stands behind a name and a separator (`Entry`), in any surroundings.  What is read from a
text before the name ends before the name or behind the value, and nothing is read from the middle:
neither a name with its value nor a private key sees what the value is. -/

namespace QeReport.Sdk.Redactor

open Regex (EndsOutside FoundAlike SameEnd SameEnds endsOutside_append endsOutside_cons lastOf
  length_le_of_startsWith matchAt sameEnd_takeWhile sameEnds_search search startsWith
  startsWith_append_cons takeWhile_alike takeWhile_append_cons)

section
variable {α : Type} (A : Alphabet α)

/-! ### Classes -/

/-- `[A-Za-z0-9_-]`. -/
def isWord (x : α) : Bool := isInI A (alphaNumericOr "_-") x

/-- The characters at which a value or a line ends. -/
def specials : String := "\"'\r\n,;&"

/-- A character that ends no value. -/
def isPlain (x : α) : Bool := isNotIn A (oneOf specials) x

/-- Names of the characters of a word. -/
def AreWords (names : List String) : Prop :=
  ∀ name ∈ names, name ≠ "" ∧ ∀ ch ∈ name.toList, alphaNumericOr "_-" ch.toNat = true

/-- Words can be checked letter by letter. -/
theorem areWords_of_all {names : List String}
    (h : names.all (fun name =>
      name ≠ "" && name.toList.all (fun ch => alphaNumericOr "_-" ch.toNat)) = true) :
    AreWords names := by
  intro name hname
  have hword := List.all_eq_true.mp h name hname
  rw [Bool.and_eq_true, decide_eq_true_eq] at hword
  exact ⟨hword.1, List.all_eq_true.mp hword.2⟩

theorem areWords_sensitiveHeaders : AreWords sensitiveHeaders :=
  areWords_of_all (by decide)

theorem areWords_sensitiveKeys : AreWords sensitiveKeys :=
  areWords_of_all (by decide)

variable {A} {x : α}

theorem isAscii_word : IsAscii (ignoringCase (alphaNumericOr "_-")) :=
  (isAscii_alphaNumericOr (by decide)).ignoringCase

theorem isWord_apart (h : isWord A x = true) :
    isBlank A x = false ∧ isSeparator A x = false ∧ isQuote A x = false ∧ isPlain A x = true :=
  isAscii_word.forall (q := fun c => ignoringCase (oneOf " \t") c = false ∧
    ignoringCase (oneOf ":=") c = false ∧ ignoringCase (oneOf "\"'") c = false ∧
    (!ignoringCase (oneOf specials) c) = true) (by decide) h

theorem isBlank_apart (h : isBlank A x = true) :
    isWord A x = false ∧ isQuote A x = false ∧ isPlain A x = true :=
  (isAscii_oneOf (s := " \t") (by decide)).ignoringCase.forall
    (q := fun c => ignoringCase (alphaNumericOr "_-") c = false ∧
      ignoringCase (oneOf "\"'") c = false ∧ (!ignoringCase (oneOf specials) c) = true)
    (by decide) h

theorem isSeparator_apart (h : isSeparator A x = true) :
    isWord A x = false ∧ isBlank A x = false ∧ isQuote A x = false ∧ isPlain A x = true :=
  (isAscii_oneOf (s := ":=") (by decide)).ignoringCase.forall
    (q := fun c => ignoringCase (alphaNumericOr "_-") c = false ∧
      ignoringCase (oneOf " \t") c = false ∧ ignoringCase (oneOf "\"'") c = false ∧
      (!ignoringCase (oneOf specials) c) = true) (by decide) h

theorem isQuote_apart (h : isQuote A x = true) : isWord A x = false :=
  (isAscii_oneOf (s := "\"'") (by decide)).ignoringCase.forall
    (q := fun c => ignoringCase (alphaNumericOr "_-") c = false) (by decide) h

theorem isNotIn_of_isPlain {s : String} (hs : s.toList ⊆ specials.toList)
    (h : isPlain A x = true) : isNotIn A (oneOf s) x = true := by
  rw [isPlain, isNotIn, Bool.not_eq_true'] at h
  rw [isNotIn, Bool.not_eq_true']
  refine Bool.eq_false_iff.mpr (fun hin => Bool.eq_false_iff.mp h (ignoringCase_mono ?_ hin))
  intro c hc
  obtain ⟨ch, hch, heq⟩ := List.any_eq_true.mp hc
  exact List.any_eq_true.mpr ⟨ch, hs hch, heq⟩

theorem isWord_of_letters {names : List String} (hnames : AreWords names) {name : String}
    (hname : name ∈ names) (hx : isWord A x = false) : ∀ p ∈ letters A name, p x = false := by
  intro p hp
  obtain ⟨ch, hch, rfl⟩ := List.mem_map.mp hp
  refine Bool.eq_false_iff.mpr (fun hin => Bool.eq_false_iff.mp hx (ignoringCase_mono ?_ hin))
  intro c hc
  rw [of_decide_eq_true hc]
  exact (hnames name hname).2 ch hch

/-! ### What is read before a character -/

theorem separatorLength_append {t : List α} (hblank : isBlank A x = false)
    (hsign : isSeparator A x = false) (w : List α) :
    separatorLength A (w ++ x :: t) = separatorLength A w := by
  have hle := Regex.length_takeWhile_le (isBlank A) w
  rw [separatorLength, separatorLength, takeWhile_append_cons hblank, List.drop_append_of_le_length hle]
  cases hrest : w.drop (w.takeWhile (isBlank A)).length with
  | nil => simp [hsign]
  | cons y r =>
      have hlt : (w.takeWhile (isBlank A)).length + 1 ≤ w.length := by
        have hlength := congrArg List.length hrest
        rw [List.length_drop, List.length_cons] at hlength
        omega
      rw [List.drop_append_of_le_length hlt, takeWhile_append_cons hblank]
      rfl

/-- A separator that is written out. -/
theorem separatorLength_of {before after r : List α} {sign : α}
    (hbefore : ∀ x ∈ before, isBlank A x = true) (hsign : isSeparator A sign = true)
    (hafter : ∀ x ∈ after, isBlank A x = true) (hr : r.head?.any (isBlank A) = false) :
    separatorLength A (before ++ sign :: (after ++ r)) = some (before.length + 1 + after.length) := by
  have hrun : (before ++ sign :: (after ++ r)).takeWhile (isBlank A) = before := by
    rw [takeWhile_append_cons (isSeparator_apart hsign).2.1]
    exact List.takeWhile_eq_self_iff.mpr hbefore
  have hrun' : (after ++ r).takeWhile (isBlank A) = after := by
    rw [List.takeWhile_append_of_pos hafter]
    cases r with
    | nil => exact List.append_nil _
    | cons y r =>
        rw [List.head?_cons, Option.any_some] at hr
        rw [List.takeWhile_cons, hr, if_neg Bool.false_ne_true, List.append_nil]
  rw [separatorLength, hrun, List.drop_left, List.head?_cons, Option.any_some, hsign, if_pos rfl, ← List.drop_drop,
    List.drop_left, List.drop_one, List.tail_cons, hrun']

section decidable
variable [DecidableEq α]

theorem isPrefixOf_append {q w : List α} (h : q.length ≤ w.length) (t : List α) :
    q.isPrefixOf (w ++ t) = q.isPrefixOf w := by
  induction q generalizing w with
  | nil => simp
  | cons c q ih =>
      cases w with
      | nil => exact absurd h (Nat.not_succ_le_zero _)
      | cons y w =>
          rw [List.cons_append, List.isPrefixOf_cons_cons, List.isPrefixOf_cons_cons,
            ih (Nat.le_of_succ_le_succ h)]

/-- A name is read from the text before a character that is none of a word. -/
theorem oneNameAt_append {names : List String} (hnames : AreWords names) {name : String}
    (hname : name ∈ names) {q s t : List α} {l : α} (hq : q.length ≤ 1) (hl : isWord A l = false)
    (hblank : isBlank A x = false) (hsign : isSeparator A x = false) :
    oneNameAt A q (s ++ l :: x :: t) name = oneNameAt A q (s ++ [l]) name := by
  have hstop := isWord_of_letters (A := A) hnames hname hl
  rw [oneNameAt, oneNameAt, startsWith_append_cons hstop, startsWith_append_cons hstop]
  cases hstart : startsWith (letters A name) s with
  | false => rfl
  | true =>
      have hle := length_le_of_startsWith hstart
      rw [letters, List.length_map] at hle
      have hsplit : ∀ n ≤ s.length + 1,
          (s ++ l :: x :: t).drop n = (s ++ [l]).drop n ++ x :: t := by
        intro n hn
        rw [← List.drop_append_of_le_length, List.append_assoc]
        · rfl
        · rw [List.length_append, List.length_singleton]
          exact hn
      rw [hsplit _ (by omega), hsplit _ (by omega), isPrefixOf_append,
        separatorLength_append hblank hsign]
      rw [List.length_drop, List.length_append, List.length_singleton]
      omega

/-- No name begins with a character that is none of a word. -/
theorem nameAt_cons_of_not_isWord {names : List String} (hnames : AreWords names) (q : List α)
    {t : List α} (hx : isWord A x = false) : nameAt A names q (x :: t) = none := by
  apply List.findSome?_eq_none_iff.mpr
  intro name hname
  have hstop := startsWith_append_cons (isWord_of_letters (A := A) hnames hname hx) [] t
  have hne : letters A name ≠ [] := by
    rw [letters, ne_eq, List.map_eq_nil_iff]
    intro hnil
    exact (hnames name hname).1 (String.toList_eq_nil_iff.mp hnil)
  obtain ⟨p, ps, hletters⟩ := List.exists_cons_of_ne_nil hne
  rw [List.nil_append, hletters] at hstop
  rw [oneNameAt, hletters, hstop]
  rfl

theorem nameAt_nil {names : List String} (hnames : AreWords names) (q : List α) :
    nameAt A names q [] = none := by
  apply List.findSome?_eq_none_iff.mpr
  intro name hname
  have hne : letters A name ≠ [] := by
    rw [letters, ne_eq, List.map_eq_nil_iff]
    intro hnil
    exact (hnames name hname).1 (String.toList_eq_nil_iff.mp hnil)
  obtain ⟨p, ps, hletters⟩ := List.exists_cons_of_ne_nil hne
  rw [oneNameAt, hletters]
  rfl

/-- Nothing begins with a character that is neither of a word nor a quote. -/
theorem headAt_cons_of_not_isWord {names : List String} (hnames : AreWords names) {t : List α}
    (hx : isWord A x = false) (hquote : isQuote A x = false) : headAt A names (x :: t) = none := by
  rw [headAt, List.head?_cons, Option.any_some, hquote, nameAt_cons_of_not_isWord hnames [] hx]
  rfl

end decidable

end

/-! ### A name with its value -/

section
variable {α : Type} (A : Alphabet α)

def isDash (x : α) : Bool := isIn A (· = '-'.toNat) x

/-- No two dashes stand together. -/
def dashesApart : List α → Bool
  | x :: y :: t => !(isDash A x && isDash A y) && dashesApart (y :: t)
  | _ => true

/-- What stands before a value: a name, and one separator between blanks. -/
structure Entry where
  key : List α
  before : List α
  sign : α
  after : List α
  key_ne : key ≠ []
  key_word : ∀ x ∈ key, isWord A x = true
  before_blank : ∀ x ∈ before, isBlank A x = true
  sign_separator : isSeparator A sign = true
  after_blank : ∀ x ∈ after, isBlank A x = true
  /-- Dashes stand between letters. -/
  key_head : key.head?.any (isDash A) = false
  key_apart : dashesApart A key = true

/-- A value. -/
structure Value where
  text : List α
  ne : text ≠ []
  alphaNumeric : ∀ x ∈ text, isIn A (alphaNumericOr "") x = true

/-- A text that ends a value. -/
structure Behind where
  text : List α
  head : text.head?.all (isInI A (oneOf "\r\n,;&")) = true

variable {A}

/-- The separator. -/
def Entry.separator (e : Entry A) (r : List α) : List α := e.before ++ e.sign :: (e.after ++ r)

def Entry.text (e : Entry A) (v : Value A) : List α := e.key ++ e.separator v.text

theorem Entry.text_append (e : Entry A) (v : Value A) (z : List α) :
    e.text v ++ z = e.key ++ e.separator (v.text ++ z) := by
  simp [Entry.text, Entry.separator]

theorem Entry.text_ne (e : Entry A) (v : Value A) : e.text v ≠ [] := by
  rw [Entry.text]
  exact List.append_ne_nil_of_left_ne_nil e.key_ne _

/-- A separator begins with no character of a word. -/
theorem Entry.separator_cons (e : Entry A) (r : List α) :
    ∃ x t, e.separator r = x :: t ∧ isWord A x = false ∧ isQuote A x = false := by
  cases hbefore : e.before with
  | nil =>
      obtain ⟨hword, -, hquote, -⟩ := isSeparator_apart e.sign_separator
      exact ⟨e.sign, e.after ++ r, by rw [Entry.separator, hbefore, List.nil_append], hword, hquote⟩
  | cons x before =>
      obtain ⟨hword, hquote, -⟩ := isBlank_apart
        (e.before_blank x (by rw [hbefore]; exact List.mem_cons_self))
      exact ⟨x, before ++ e.sign :: (e.after ++ r), by rw [Entry.separator, hbefore,
        List.cons_append], hword, hquote⟩

/-- What a separator and a text end with begins in the text, or with no character of a word. -/
theorem Entry.suffix_separator (e : Entry A) {r m : List α} (h : m <:+ e.separator r) :
    m <:+ r ∨ ∃ x t, m = x :: t ∧ isWord A x = false ∧ isQuote A x = false := by
  have happ : ∀ s r : List α, (∀ x ∈ s, isWord A x = false ∧ isQuote A x = false) → m <:+ s ++ r →
      m <:+ r ∨ ∃ x t, m = x :: t ∧ isWord A x = false ∧ isQuote A x = false := by
    intro s r hs h
    induction s with
    | nil => exact .inl h
    | cons x s ih =>
        obtain ⟨hx, hs⟩ := List.forall_mem_cons.mp hs
        rcases List.suffix_cons_iff.mp h with rfl | h
        · exact .inr ⟨x, _, rfl, hx⟩
        · exact ih hs h
  have hblank : ∀ s : List α, (∀ x ∈ s, isBlank A x = true) →
      ∀ x ∈ s, isWord A x = false ∧ isQuote A x = false := fun s hs x hx =>
    ⟨(isBlank_apart (hs x hx)).1, (isBlank_apart (hs x hx)).2.1⟩
  rcases happ _ _ (hblank _ e.before_blank) h with h | h
  · rcases List.suffix_cons_iff.mp h with rfl | h
    · obtain ⟨hword, -, hquote, -⟩ := isSeparator_apart e.sign_separator
      exact .inr ⟨e.sign, _, rfl, hword, hquote⟩
    · exact happ _ _ (hblank _ e.after_blank) h
  · exact .inr h

theorem Value.isWord (v : Value A) : ∀ x ∈ v.text, isWord A x = true := by
  intro x hx
  have h := v.alphaNumeric x hx
  refine (Bool.or_eq_true _ _).mpr (.inl ?_)
  rw [isIn, alphaNumericOr, Bool.or_eq_true] at h
  rw [alphaNumericOr, Bool.or_eq_true]
  rcases h with h | h
  · exact .inl h
  · simp [oneOf] at h

theorem Value.text_cons (v : Value A) : ∃ x t, v.text = x :: t ∧ Redactor.isWord A x = true := by
  obtain ⟨x, t, h⟩ := List.exists_cons_of_ne_nil v.ne
  exact ⟨x, t, h, v.isWord x (by rw [h]; exact List.mem_cons_self)⟩

theorem Behind.apart (z : Behind A) {x : α} (hx : z.text.head? = some x) :
    Redactor.isWord A x = false ∧ isBlank A x = false ∧ isSeparator A x = false ∧
      isQuote A x = false ∧ isDash A x = false := by
  have h := z.head
  rw [hx, Option.all_some] at h
  exact (isAscii_oneOf (s := "\r\n,;&") (by decide)).ignoringCase.forall
    (q := fun c => ignoringCase (alphaNumericOr "_-") c = false ∧
      ignoringCase (oneOf " \t") c = false ∧ ignoringCase (oneOf ":=") c = false ∧
      ignoringCase (oneOf "\"'") c = false ∧ decide (c = '-'.toNat) = false) (by decide) h

/-- Nothing of an entry ends a value. -/
theorem Entry.isPlain_text (e : Entry A) (v : Value A) : ∀ x ∈ e.text v, isPlain A x = true := by
  intro x hx
  rw [Entry.text, Entry.separator, List.mem_append, List.mem_append, List.mem_cons,
    List.mem_append] at hx
  rcases hx with hx | hx | rfl | hx | hx
  · exact (isWord_apart (e.key_word x hx)).2.2.2
  · exact (isBlank_apart (e.before_blank x hx)).2.2
  · exact (isSeparator_apart e.sign_separator).2.2.2
  · exact (isBlank_apart (e.after_blank x hx)).2.2
  · exact (isWord_apart (v.isWord x hx)).2.2.2

/-- The length of a name with its separator. -/
def Entry.head (e : Entry A) : Head := ⟨0, e.key.length, e.before.length + 1 + e.after.length⟩

/-- The key is the name, in whatever case. -/
def Entry.Is (e : Entry A) (name : String) : Bool :=
  name.toList.length = e.key.length && startsWith (letters A name) e.key

section decidable
variable [DecidableEq α] {names : List String}

omit [DecidableEq α] in
/-- Behind some characters of a key, or all of them, no quote stands. -/
theorem Entry.drop_key (e : Entry A) (r : List α) {n : ℕ} (hn : n ≤ e.key.length) :
    ∃ x t, (e.key ++ e.separator r).drop n = x :: t ∧ isQuote A x = false := by
  rw [List.drop_append_of_le_length hn]
  cases hrest : e.key.drop n with
  | nil =>
      obtain ⟨x, t, ht, -, hquote⟩ := e.separator_cons r
      exact ⟨x, t, ht, hquote⟩
  | cons x t =>
      have hx : x ∈ e.key := List.mem_of_mem_drop (by rw [hrest]; exact List.mem_cons_self)
      exact ⟨x, t ++ e.separator r, rfl, (isWord_apart (e.key_word x hx)).2.2.1⟩

omit [DecidableEq α] in
/-- A name that is read at an entry ends in its key. -/
theorem Entry.startsWith_key (e : Entry A) (hnames : AreWords names) {name : String}
    (hname : name ∈ names) (r : List α) :
    startsWith (letters A name) (e.key ++ e.separator r) = startsWith (letters A name) e.key := by
  obtain ⟨x, t, ht, hword, -⟩ := e.separator_cons r
  rw [ht]
  exact startsWith_append_cons (isWord_of_letters hnames hname hword) e.key t

/-- No quote follows the name of an entry. -/
theorem Entry.nameAt_quote (e : Entry A) (hnames : AreWords names) {c : α} {r : List α}
    (hc : isQuote A c = true) : nameAt A names [c] (e.key ++ e.separator r) = none := by
  apply List.findSome?_eq_none_iff.mpr
  intro name hname
  rw [oneNameAt, e.startsWith_key hnames hname]
  cases hstart : startsWith (letters A name) e.key with
  | false => rfl
  | true =>
      have hle := length_le_of_startsWith hstart
      rw [letters, List.length_map] at hle
      obtain ⟨x, t, ht, hquote⟩ := e.drop_key r hle
      have hne : (c == x) = false := by
        rw [beq_eq_false_iff_ne]
        rintro rfl
        exact absurd (hc.symm.trans hquote) (by decide)
      rw [ht, List.isPrefixOf_cons_cons, hne]
      rfl

/-- The one name that is read at an entry is its key. -/
theorem Entry.oneNameAt (e : Entry A) (hnames : AreWords names) {name : String}
    (hname : name ∈ names) {r : List α} (hr : r.head?.any (isBlank A) = false) :
    oneNameAt A [] (e.key ++ e.separator r) name = if e.Is name then some e.head else none := by
  rw [Redactor.oneNameAt, e.startsWith_key hnames hname, Entry.Is]
  cases hstart : startsWith (letters A name) e.key with
  | false => rw [Bool.and_false]; rfl
  | true =>
      have hle := length_le_of_startsWith hstart
      rw [letters, List.length_map] at hle
      rw [Bool.and_true, Bool.true_and, List.isPrefixOf_nil_left, if_pos rfl, List.length_nil,
        Nat.add_zero]
      by_cases hlength : name.toList.length = e.key.length
      · rw [hlength, List.drop_left, Entry.separator,
          separatorLength_of e.before_blank e.sign_separator e.after_blank hr]
        simp [Entry.head]
      · have hlt : name.toList.length < e.key.length := by omega
        obtain ⟨hblank, hsign, -, -⟩ := isWord_apart (e.key_word _ (List.getElem_mem hlt))
        rw [List.drop_append_of_le_length hle, List.drop_eq_getElem_cons hlt, List.cons_append,
          ← List.nil_append (_ :: _), separatorLength_append hblank hsign]
        simp [hlength, separatorLength]

/-- What is read at an entry does not depend on its value. -/
theorem Entry.headAt (e : Entry A) (hnames : AreWords names) (v : Value A) (z : List α) :
    headAt A names (e.text v ++ z) = if names.any e.Is then some e.head else none := by
  obtain ⟨x, key, hkey⟩ := List.exists_cons_of_ne_nil e.key_ne
  have hquote := (isWord_apart (e.key_word x (by rw [hkey]; exact List.mem_cons_self))).2.2.1
  have hr : (v.text ++ z).head?.any (isBlank A) = false := by
    obtain ⟨y, t, ht, hword⟩ := v.text_cons
    rw [ht, List.cons_append, List.head?_cons, Option.any_some]
    exact (isWord_apart hword).1
  have hany : ∀ l : List String, (∀ name ∈ l, name ∈ names) →
      l.findSome? (Redactor.oneNameAt A [] (e.text v ++ z)) =
        if l.any e.Is then some e.head else none := by
    intro l hl
    induction l with
    | nil => rfl
    | cons name l ih =>
        obtain ⟨hname, hl⟩ := List.forall_mem_cons.mp hl
        rw [List.findSome?_cons, ih hl, e.text_append, e.oneNameAt hnames hname hr, List.any_cons]
        cases e.Is name <;> rfl
  have hname : nameAt A names [] (e.text v ++ z) =
      if names.any e.Is then some e.head else none := hany names (fun _ h => h)
  rw [Redactor.headAt, hname, e.text_append, hkey, List.cons_append, List.head?_cons, Option.any_some, hquote]
  rfl

/-- No name is read in a word that no separator follows. -/
theorem headAt_word (hnames : AreWords names) {m : List α} (hm : m ≠ [])
    (hword : ∀ x ∈ m, isWord A x = true) (z : Behind A) : headAt A names (m ++ z.text) = none := by
  obtain ⟨x, t, rfl⟩ := List.exists_cons_of_ne_nil hm
  have hquote := (isWord_apart (hword x List.mem_cons_self)).2.2.1
  have hname : nameAt A names [] (x :: t ++ z.text) = none := by
    apply List.findSome?_eq_none_iff.mpr
    intro name hname
    have hstart : startsWith (letters A name) (x :: t ++ z.text) =
        startsWith (letters A name) (x :: t) := by
      cases hz : z.text with
      | nil => rw [List.append_nil]
      | cons d z' =>
          apply startsWith_append_cons
          exact isWord_of_letters hnames hname (z.apart (by rw [hz]; rfl)).1
    rw [oneNameAt, hstart]
    cases hstart : startsWith (letters A name) (x :: t) with
    | false => rfl
    | true =>
        have hle := length_le_of_startsWith hstart
        rw [letters, List.length_map] at hle
        -- what follows the name is a character of the word, or what ends it
        have hnone : separatorLength A ((x :: t).drop name.toList.length ++ z.text) = none := by
          cases hrest : (x :: t).drop name.toList.length with
          | cons y r =>
              have hy : y ∈ x :: t := List.mem_of_mem_drop (by rw [hrest]; exact List.mem_cons_self)
              obtain ⟨hblank, hsign, -, -⟩ := isWord_apart (hword y hy)
              exact separatorLength_append (t := r ++ z.text) hblank hsign []
          | nil =>
              cases hz : z.text with
              | nil => rfl
              | cons d z' =>
                  obtain ⟨-, hblank, hsign, -, -⟩ := z.apart (x := d) (by rw [hz]; rfl)
                  exact separatorLength_append (t := z') hblank hsign []
        rw [List.length_nil, Nat.add_zero, List.drop_append_of_le_length hle, hnone]
        simp
  rw [headAt, hname, List.cons_append, List.head?_cons, Option.any_some, hquote]
  rfl

/-- Within an entry nothing is read. -/
theorem Entry.namedAt_within (e : Entry A) (hnames : AreWords names) (stops : String)
    (v : Value A) (z : Behind A) {u m : List α} (hu : u ≠ []) (hm : m ≠ [])
    (h : u ++ m = e.text v) (prev : Option α) :
    namedAt A names stops (lastOf prev (e.text v) u.length) (m ++ z.text) = none := by
  have hlast : ∃ s x, u = s ++ [x] ∧ lastOf prev (e.text v) u.length = some x := by
    obtain rfl | ⟨s, x, rfl⟩ := List.eq_nil_or_concat u
    · exact absurd rfl hu
    · rw [List.concat_eq_append] at h ⊢
      refine ⟨s, x, rfl, ?_⟩
      rw [← h, Regex.lastOf_append_of_le _ (Nat.le_refl _), Regex.lastOf, List.take_length,
        List.getLast?_append]
      rfl
  obtain ⟨s, l, hs, hlast⟩ := hlast
  rw [namedAt, hlast, Option.any_some]
  by_cases hword : isInI A (alphaNumericOr "_-") l = true
  · rw [if_pos hword]
  · rw [if_neg hword]
    have hnone : Redactor.headAt A names (m ++ z.text) = none := by
      rw [Entry.text, List.append_eq_append_iff] at h
      rcases h with ⟨w, hkey, hrest⟩ | ⟨w, hkey, hrest⟩
      · -- the name is cut behind one of its own characters
        exfalso
        apply hword
        apply e.key_word
        rw [hkey, hs]
        simp
      · rcases e.suffix_separator (m := m) ⟨w, hrest.symm⟩ with hsuffix | ⟨x, t, rfl, hx, hquote⟩
        · exact headAt_word hnames hm (fun x hx => v.isWord x (hsuffix.subset hx)) z
        · exact headAt_cons_of_not_isWord hnames hx hquote
    rw [hnone, Option.map_none]

/-! ### What is read before an entry -/

/-- A name with a separator ends before an entry. -/
theorem Entry.headAt_append (e : Entry A) (hnames : AreWords names) {s : List α} {l : α}
    (hl : Redactor.isWord A l = false) (v : Value A) (z : List α) :
    Redactor.headAt A names (s ++ [l] ++ e.text v ++ z) = Redactor.headAt A names (s ++ [l]) := by
  obtain ⟨x, key, hkey⟩ := List.exists_cons_of_ne_nil e.key_ne
  obtain ⟨hblank, hsign, -, -⟩ := isWord_apart (e.key_word x (by rw [hkey]; exact List.mem_cons_self))
  have hcons : ∃ t, e.text v ++ z = x :: t :=
    ⟨key ++ e.separator (v.text ++ z), by rw [e.text_append, hkey]; rfl⟩
  obtain ⟨t, ht⟩ := hcons
  have hname : ∀ (q s : List α), q.length ≤ 1 →
      nameAt A names q (s ++ l :: x :: t) = nameAt A names q (s ++ [l]) := by
    intro q s hq
    have hall : ∀ ns : List String, (∀ name ∈ ns, name ∈ names) →
        ns.findSome? (Redactor.oneNameAt A q (s ++ l :: x :: t)) =
          ns.findSome? (Redactor.oneNameAt A q (s ++ [l])) := by
      intro ns hns
      induction ns with
      | nil => rfl
      | cons name ns ih =>
          obtain ⟨hname, hns⟩ := List.forall_mem_cons.mp hns
          rw [List.findSome?_cons, List.findSome?_cons, ih hns,
            oneNameAt_append hnames hname hq hl hblank hsign]
    exact hall names (fun _ h => h)
  have htext : s ++ [l] ++ e.text v ++ z = s ++ l :: x :: t := by
    rw [List.append_assoc, ht, List.append_assoc]
    rfl
  rw [htext]
  cases s with
  | nil =>
      rw [List.nil_append, List.nil_append, Redactor.headAt, Redactor.headAt,
        nameAt_cons_of_not_isWord hnames [] hl, nameAt_cons_of_not_isWord hnames [] hl]
      simp only [List.head?_cons, Option.any_some, List.take_succ_cons, List.take_zero,
        List.drop_succ_cons, List.drop_zero, nameAt_nil hnames]
      cases hquote : isQuote A l with
      | false => rfl
      | true => rw [← ht, e.text_append, e.nameAt_quote hnames hquote]
  | cons c s =>
      simp only [Redactor.headAt, List.cons_append, List.head?_cons, Option.any_some,
        List.take_succ_cons, List.take_zero, List.drop_succ_cons, List.drop_zero]
      rw [hname [c] s (Nat.le_refl _), ← List.cons_append, hname [] (c :: s) (Nat.zero_le _)]
      rfl

omit [DecidableEq α] in
/-- A value between quotes ends before an entry, or behind it. -/
theorem quotedLength_alike {quote : String} {ch : Char} (hquote : quote.toList = [ch])
    (hch : (quote ++ "\r\n").toList ⊆ specials.toList) (y : List α) {m m' : List α} (z : List α)
    (hne : m ≠ []) (hne' : m' ≠ []) (hm : ∀ x ∈ m, isPlain A x = true)
    (hm' : ∀ x ∈ m', isPlain A x = true) :
    SameEnds y m m' z (quotedLength A quote (y ++ m ++ z)) (quotedLength A quote (y ++ m' ++ z)) := by
  have hletters : letters A quote = [isInI A (· = ch.toNat)] := by rw [letters, hquote]; rfl
  have hrun : ∀ {m : List α}, (∀ x ∈ m, isPlain A x = true) →
      ∀ x ∈ m, isNotIn A (oneOf (quote ++ "\r\n")) x = true := fun hm x hx =>
    isNotIn_of_isPlain hch (hm x hx)
  cases y with
  | nil =>
      have hnone : ∀ m : List α, m ≠ [] → (∀ x ∈ m, isPlain A x = true) →
          quotedLength A quote (m ++ z) = none := by
        intro m hne hm
        obtain ⟨x, t, rfl⟩ := List.exists_cons_of_ne_nil hne
        have hx := hrun hm x List.mem_cons_self
        have hnot : isInI A (· = ch.toNat) x = false := by
          rw [isNotIn, Bool.not_eq_true'] at hx
          refine Bool.eq_false_iff.mpr (fun h => Bool.eq_false_iff.mp hx (ignoringCase_mono ?_ h))
          intro c hc
          rw [oneOf, String.toList_append, hquote]
          simpa using Or.inl (of_decide_eq_true hc).symm
        rw [quotedLength, hletters, List.cons_append, startsWith, hnot]
        rfl
      rw [List.nil_append, List.nil_append, hnone m hne hm, hnone m' hne' hm']
      exact .nothing
  | cons c y =>
      simp only [List.cons_append, quotedLength, hletters, startsWith, List.drop_succ_cons,
        List.drop_zero, Bool.and_true]
      by_cases hopen : isInI A (· = ch.toNat) c = true
      · rw [if_pos hopen, if_pos hopen]
        rcases takeWhile_alike y z (hrun hm) (hrun hm') with ⟨n, hn, h, h'⟩ | ⟨h, h'⟩
        · -- the run ends within the text before
          have hdrop : ∀ m : List α, (y ++ m ++ z).drop n = y[n] :: (y.drop (n + 1) ++ m ++ z) := by
            intro m
            rw [List.append_assoc, List.drop_append_of_le_length (Nat.le_of_lt hn),
              List.drop_eq_getElem_cons hn, List.append_assoc]
            rfl
          have hstart : ∀ t, startsWith [isInI A (· = ch.toNat)] (y[n] :: t) =
              isInI A (· = ch.toNat) y[n] := fun t => Bool.and_true _
          rw [h, h', hdrop, hdrop, hstart, hstart]
          by_cases hclose : isInI A (· = ch.toNat) y[n] = true
          · rw [if_pos hclose]
            apply SameEnds.found
            apply SameEnd.within
            rw [List.length_cons]
            omega
          · rw [if_neg hclose]
            exact .nothing
        · -- the run goes on behind what differs
          have hdrop : ∀ m : List α, (y ++ m ++ z).drop (y.length + m.length +
              (z.takeWhile (isNotIn A (oneOf (quote ++ "\r\n")))).length) =
              z.drop (z.takeWhile (isNotIn A (oneOf (quote ++ "\r\n")))).length := by
            intro m
            rw [← List.length_append, ← List.drop_drop, List.drop_left]
          rw [h, h', hdrop, hdrop]
          generalize (z.takeWhile (isNotIn A (oneOf (quote ++ "\r\n")))).length = n
          by_cases hclose : startsWith [isInI A (· = ch.toNat)] (z.drop n) = true
          · rw [if_pos hclose, if_pos hclose]
            have hle := length_le_of_startsWith hclose
            rw [List.length_drop, List.length_singleton] at hle
            have hend : ∀ l, y.length + l + n + 2 = (c :: y).length + l + (n + 1) := by
              intro l
              rw [List.length_cons]
              omega
            rw [hend, hend]
            apply SameEnds.found
            apply SameEnd.beyond
            omega
          · rw [if_neg hclose, if_neg hclose]
            exact .nothing
      · rw [if_neg hopen, if_neg hopen]
        exact .nothing

omit [DecidableEq α] in
/-- So does any value. -/
theorem valueAt_alike {stops : String} (hstops : stops.toList ⊆ specials.toList) (y : List α)
    {m m' : List α} (z : List α) (hne : m ≠ []) (hne' : m' ≠ [])
    (hm : ∀ x ∈ m, isPlain A x = true) (hm' : ∀ x ∈ m', isPlain A x = true) :
    (valueAt A stops (y ++ m ++ z)).1 = (valueAt A stops (y ++ m' ++ z)).1 ∧
      SameEnd y m m' z (valueAt A stops (y ++ m ++ z)).2 (valueAt A stops (y ++ m' ++ z)).2 := by
  have hdouble := quotedLength_alike (show "\"".toList = ['"'] by decide) (by decide) y z
    hne hne' hm hm'
  have hsingle := quotedLength_alike (show "'".toList = ['\''] by decide) (by decide) y z
    hne hne' hm hm'
  have hbare := sameEnd_takeWhile y z (fun x hx => isNotIn_of_isPlain hstops (hm x hx))
    (fun x hx => isNotIn_of_isPlain hstops (hm' x hx))
  rw [valueAt, valueAt]
  generalize quotedLength A "\"" (y ++ m ++ z) = d at hdouble
  generalize quotedLength A "\"" (y ++ m' ++ z) = d' at hdouble
  generalize quotedLength A "'" (y ++ m ++ z) = q at hsingle
  generalize quotedLength A "'" (y ++ m' ++ z) = q' at hsingle
  cases hdouble with
  | found hend => exact ⟨rfl, hend⟩
  | nothing =>
      cases hsingle with
      | found hend => exact ⟨rfl, hend⟩
      | nothing => exact ⟨rfl, hbare⟩

omit [DecidableEq α] in
/-- The last character of a text that does not end in a word. -/
theorem exists_last {y : List α} {prev : Option α} (hy : y ≠ [])
    (hends : EndsOutside (isWord A) prev y) : ∃ s l, y = s ++ [l] ∧ isWord A l = false := by
  obtain rfl | ⟨s, l, rfl⟩ := List.eq_nil_or_concat y
  · exact absurd rfl hy
  · rw [List.concat_eq_append] at hends ⊢
    rw [endsOutside_append, endsOutside_cons] at hends
    exact ⟨s, l, rfl, hends⟩

omit [DecidableEq α] in
/-- What a match is replaced by stands in front of its value. -/
theorem replacementOf_append {y : List α} {h : Head} (hle : h.length ≤ y.length) (t : List α)
    (kind : Kind) : replacementOf A (y ++ t) h kind = replacementOf A y h kind := by
  rw [Head.length] at hle
  have hquote : h.quote ≤ y.length := by omega
  have hname : h.name ≤ (y.drop h.quote).length := by
    rw [List.length_drop]
    omega
  have hbehind : h.quote + h.name + h.quote ≤ y.length := by omega
  have hseparator : h.separator ≤ (y.drop (h.quote + h.name + h.quote)).length := by
    rw [List.length_drop]
    omega
  simp only [replacementOf, List.take_append_of_le_length hquote,
    List.drop_append_of_le_length hquote, List.take_append_of_le_length hname,
    List.drop_append_of_le_length hbehind, List.take_append_of_le_length hseparator]

/-- What the rule for some names finds before an entry does not depend on its value. -/
theorem Entry.foundAlike_namedValue (e : Entry A) (hnames : AreWords names) {stops : String}
    (hstops : stops.toList ⊆ specials.toList) (v v' : Value A) (z : List α) {y : List α}
    {prev : Option α} (hy : y ≠ []) (hends : EndsOutside (Redactor.isWord A) prev y) :
    FoundAlike (namedValue A names stops) (replaceValue A) y (e.text v) (e.text v') z prev := by
  obtain ⟨s, l, hs, hl⟩ := exists_last hy hends
  have hheads : ∀ v, Redactor.headAt A names (y ++ e.text v ++ z) = Redactor.headAt A names y := by
    intro v
    rw [hs]
    exact e.headAt_append hnames hl v z
  by_cases hprev : prev.any (isInI A (alphaNumericOr "_-")) = true
  · have hnone : ∀ t, matchAt (namedValue A names stops) prev t = none := by
      intro t
      rw [matchAt_namedValue, namedAt, if_pos hprev]
      rfl
    exact .nothing (hnone _) (hnone _)
  · have hmatch : ∀ v, matchAt (namedValue A names stops) prev (y ++ e.text v ++ z) =
        (Redactor.headAt A names y).map (fun h =>
          ⟨h.length + (valueAt A stops ((y ++ e.text v ++ z).drop h.length)).2,
            captures (y ++ e.text v ++ z) h
              (valueAt A stops ((y ++ e.text v ++ z).drop h.length)).1
              (valueAt A stops ((y ++ e.text v ++ z).drop h.length)).2⟩) := by
      intro v
      rw [matchAt_namedValue, namedAt, if_neg hprev, hheads, Option.map_map]
      rfl
    cases hhead : Redactor.headAt A names y with
    | none => exact .nothing (by rw [hmatch, hhead]; rfl) (by rw [hmatch, hhead]; rfl)
    | some h =>
        have hle := headAt_le hhead
        have hdrop : ∀ v, (y ++ e.text v ++ z).drop h.length =
            y.drop h.length ++ e.text v ++ z := by
          intro v
          rw [List.append_assoc, List.drop_append_of_le_length hle, List.append_assoc]
        have hreplaced : ∀ v kind, replacementOf A (y ++ e.text v ++ z) h kind =
            replacementOf A y h kind := by
          intro v kind
          rw [List.append_assoc, replacementOf_append hle]
        obtain ⟨hkind, hend⟩ := valueAt_alike hstops (y.drop h.length) z
          (e.text_ne v) (e.text_ne v') (e.isPlain_text v) (e.isPlain_text v')
        refine .found (by rw [hmatch, hhead]; rfl) (by rw [hmatch, hhead]; rfl) ?_ ?_
        · rw [replaceValue_captures, replaceValue_captures, hdrop, hdrop, hkind, hreplaced, hreplaced]
        · have hlength : (y.take h.length).length = h.length := by
            rw [List.length_take, Nat.min_eq_left hle]
          have hadd := hend.add (u := y.take h.length)
          rw [List.take_append_drop, hlength] at hadd
          dsimp only
          rw [hdrop, hdrop]
          exact hadd

/-- At an entry its name alone is found, with the value and what follows it. -/
theorem Entry.matchAt_namedValue (e : Entry A) (hnames : AreWords names) {stops : String}
    (hstops : stops.toList ⊆ specials.toList) (v : Value A) (z : List α) {prev : Option α}
    (hprev : prev.any (Redactor.isWord A) = false) :
    matchAt (namedValue A names stops) prev (e.text v ++ z) =
      if names.any e.Is then
        some ⟨(e.text v).length + (z.takeWhile (isNotIn A (oneOf stops))).length,
          captures (e.text v ++ z) e.head .bare
            (v.text.length + (z.takeWhile (isNotIn A (oneOf stops))).length)⟩
      else none := by
  have hlook : prev.any (isInI A (alphaNumericOr "_-")) = false := hprev
  rw [Redactor.matchAt_namedValue, namedAt, hlook, if_neg Bool.false_ne_true, e.headAt hnames]
  cases names.any e.Is with
  | false => rfl
  | true =>
      obtain ⟨x, t, hv, hword⟩ := v.text_cons
      have hquote : ∀ (quote : String) (ch : Char), quote.toList = [ch] →
          ch ∈ "\"'".toList → quotedLength A quote (v.text ++ z) = none := by
        intro quote ch hquote hch
        have hletters : letters A quote = [isInI A (· = ch.toNat)] := by rw [letters, hquote]; rfl
        have hnot : isInI A (· = ch.toNat) x = false := by
          refine Bool.eq_false_iff.mpr (fun h =>
            Bool.eq_false_iff.mp (isWord_apart hword).2.2.1 (ignoringCase_mono ?_ h))
          intro c hc
          exact List.any_eq_true.mpr ⟨ch, hch, decide_eq_true (of_decide_eq_true hc).symm⟩
        rw [quotedLength, hletters, hv, List.cons_append, startsWith, hnot]
        rfl
      have hdrop : (e.text v ++ z).drop e.head.length = v.text ++ z := by
        have hhead : e.head.length = e.key.length + (e.before.length + (e.after.length + 1)) := by
          rw [Head.length, Entry.head]
          dsimp only
          omega
        rw [e.text_append, Entry.separator, hhead, ← List.drop_drop, List.drop_left,
          ← List.drop_drop, List.drop_left, List.drop_succ_cons, List.drop_left]
      have hrun : ((v.text ++ z).takeWhile (isNotIn A (oneOf stops))).length =
          v.text.length + (z.takeWhile (isNotIn A (oneOf stops))).length := by
        rw [List.takeWhile_append_of_pos, List.length_append]
        intro y hy
        exact isNotIn_of_isPlain hstops (isWord_apart (v.isWord y hy)).2.2.2
      have hvalue : valueAt A stops (v.text ++ z) =
          (.bare, v.text.length + (z.takeWhile (isNotIn A (oneOf stops))).length) := by
        rw [valueAt, hquote "\"" '"' (by decide) (by decide), hquote "'" '\'' (by decide) (by decide),
          hrun]
      have hlength : e.head.length + v.text.length = (e.text v).length := by
        simp only [Entry.text, Entry.separator, Head.length, Entry.head, List.length_append,
          List.length_cons]
        omega
      rw [if_pos rfl, if_pos rfl, Option.map_some, Option.map_some, hdrop, hvalue]
      simp only [← Nat.add_assoc, hlength]

/-- At what ends a value nothing is found. -/
theorem Behind.matchAt_namedValue (z : Behind A) (hnames : AreWords names) (stops : String)
    (prev : Option α) {x : α} {t : List α} (hz : z.text = x :: t) :
    matchAt (namedValue A names stops) prev (x :: t) = none := by
  obtain ⟨hword, -, -, hquote, -⟩ := z.apart (x := x) (by rw [hz]; rfl)
  rw [Redactor.matchAt_namedValue, namedAt, headAt_cons_of_not_isWord hnames hword hquote]
  split_ifs <;> rfl

end decidable

/-! ### Markers -/

theorem dashesApart_suffix {s t : List α} (h : dashesApart A t = true) (hs : s <:+ t) :
    dashesApart A s = true := by
  induction t with
  | nil => rw [List.suffix_nil.mp hs, dashesApart]; nofun
  | cons x t ih =>
      rcases List.suffix_cons_iff.mp hs with rfl | hs
      · exact h
      · refine ih ?_ hs
        cases t with
        | nil => rfl
        | cons y t =>
            rw [dashesApart, Bool.and_eq_true] at h
            exact h.2

theorem dashesApart_append {s t : List α} (hs : dashesApart A s = true)
    (ht : ∀ x ∈ t, isDash A x = false) : dashesApart A (s ++ t) = true := by
  have hnone : ∀ t : List α, (∀ x ∈ t, isDash A x = false) → dashesApart A t = true := by
    intro t ht
    induction t with
    | nil => rfl
    | cons x t ih =>
        obtain ⟨hx, ht⟩ := List.forall_mem_cons.mp ht
        cases t with
        | nil => rfl
        | cons y t => rw [dashesApart, hx, Bool.false_and, Bool.not_false, Bool.true_and, ih ht]
  induction s with
  | nil => exact hnone t ht
  | cons x s ih =>
      cases s with
      | nil =>
          cases t with
          | nil => rfl
          | cons y t =>
              have hy := ht y List.mem_cons_self
              change dashesApart A (x :: y :: t) = true
              rw [dashesApart, hy, Bool.and_false, Bool.not_false, Bool.true_and]
              exact hnone _ ht
      | cons y s =>
          rw [dashesApart, Bool.and_eq_true] at hs
          have := ih hs.2
          rw [List.cons_append, List.cons_append, dashesApart, hs.1, Bool.true_and]
          exact this

theorem startsWith_dashes {t : List α} (h : startsWith [isDash A, isDash A] t = true) :
    dashesApart A t = false := by
  cases t with
  | nil => exact absurd h Bool.false_ne_true
  | cons x t =>
      cases t with
      | nil => simp [startsWith] at h
      | cons y t =>
          simp only [startsWith, Bool.and_true, Bool.and_eq_true] at h
          rw [dashesApart, h.1, h.2]
          rfl

theorem startsWith_append (ps qs : List (α → Bool)) (t : List α) :
    startsWith (ps ++ qs) t = (startsWith ps t && startsWith qs (t.drop ps.length)) := by
  induction ps generalizing t with
  | nil => rfl
  | cons p ps ih =>
      cases t with
      | nil => simp [startsWith]
      | cons x t =>
          rw [List.cons_append, startsWith, startsWith, ih, Bool.and_assoc, List.length_cons,
            List.drop_succ_cons]

/-- A marker ends with two dashes. -/
theorem dashes_of_markerLength {start : String} {t : List α} {n : ℕ}
    (h : markerLength A start t = some n) :
    2 ≤ n ∧ n ≤ t.length ∧ startsWith [isDash A, isDash A] (t.drop (n - 2)) = true := by
  have hle := markerLength_le h
  rw [markerLength] at h
  split_ifs at h with hstart
  dsimp only at h
  split_ifs at h with hwords
  obtain rfl := Option.some.inj h
  have hsplit : literals A "PRIVATE KEY-----" =
      literals A "PRIVATE KEY---" ++ [isDash A, isDash A] := rfl
  have hlength : (literals A "PRIVATE KEY---").length = 14 := rfl
  obtain ⟨hlong, hwords⟩ := hwords
  rw [hsplit, startsWith_append, Bool.and_eq_true, List.drop_drop, hlength] at hwords
  refine ⟨by omega, hle.2, ?_⟩
  have hplace : ∀ l, start.toList.length + 11 ≤ l → l + 5 - 2 = l - 11 + 14 := by omega
  rw [hplace _ hlong]
  exact hwords.2

/-- What may stand in a marker: capital letters, blanks and dashes. -/
theorem not_literals {s : String} (hs : s.toList.all (fun ch => ch != ':' && ch != '=') = true)
    {x : α} (hx : isSeparator A x = true) : ∀ p ∈ literals A s, p x = false := by
  intro p hp
  obtain ⟨ch, hch, rfl⟩ := List.mem_map.mp hp
  have hcode : A.code x = ':'.toNat ∨ A.code x = '='.toNat :=
    (isAscii_oneOf (s := ":=") (by decide)).ignoringCase.forall
      (q := fun c => c = ':'.toNat ∨ c = '='.toNat) (by decide) hx
  have hne := List.all_eq_true.mp hs ch hch
  rw [Bool.and_eq_true, bne_iff_ne, bne_iff_ne] at hne
  rw [isIn, decide_eq_false_iff_not]
  intro heq
  rcases hcode with h | h
  · exact hne.1 (Char.toNat_inj.mp (heq.symm.trans h))
  · exact hne.2 (Char.toNat_inj.mp (heq.symm.trans h))

theorem isCapital_of_isSeparator {x : α} (hx : isSeparator A x = true) : isCapital A x = false :=
  (isAscii_oneOf (s := ":=") (by decide)).ignoringCase.forall
    (q := fun c => (range 'A' 'Z' c || oneOf " " c) = false) (by decide) hx

/-- A marker is read from the text before a separator. -/
theorem markerLength_append {start : String}
    (hstart : start.toList.all (fun ch => ch != ':' && ch != '=') = true) {x : α}
    (hx : isSeparator A x = true) (s t : List α) :
    markerLength A start (s ++ x :: t) = markerLength A start s := by
  rw [markerLength, markerLength, startsWith_append_cons (not_literals hstart hx)]
  cases hopen : startsWith (literals A start) s with
  | false => rfl
  | true =>
      have hle := length_le_of_startsWith hopen
      rw [literals, List.length_map] at hle
      have hrun := Regex.length_takeWhile_le (isCapital A) (s.drop start.toList.length)
      rw [List.length_drop] at hrun
      rw [List.drop_append_of_le_length hle, takeWhile_append_cons (isCapital_of_isSeparator hx)]
      dsimp only
      rw [List.drop_append_of_le_length (by omega), startsWith_append_cons (not_literals (by decide) hx)]

theorem isDash_apart {x : α} (hx : isDash A x = true) :
    isBlank A x = false ∧ isSeparator A x = false ∧ isIn A (alphaNumericOr "") x = false := by
  have hcode : A.code x = '-'.toNat := of_decide_eq_true hx
  refine ⟨?_, ?_, ?_⟩
  · rw [isBlank, isInI, hcode]
    decide
  · rw [isSeparator, isInI, hcode]
    decide
  · rw [isIn, hcode]
    decide

theorem not_isDash {p : α → Bool} (hp : ∀ x, isDash A x = true → p x = false) {x : α}
    (hx : p x = true) : isDash A x = false := by
  refine Bool.eq_false_iff.mpr (fun hdash => ?_)
  exact absurd (hx.symm.trans (hp x hdash)) (by decide)

theorem Value.not_isDash (v : Value A) : ∀ x ∈ v.text, isDash A x = false := fun x hx =>
  Redactor.not_isDash (fun _ h => (isDash_apart h).2.2) (v.alphaNumeric x hx)

theorem Entry.not_isDash (e : Entry A) : (∀ x ∈ e.before, isDash A x = false) ∧
    isDash A e.sign = false ∧ ∀ x ∈ e.after, isDash A x = false :=
  ⟨fun x hx => Redactor.not_isDash (fun _ h => (isDash_apart h).1) (e.before_blank x hx),
    Redactor.not_isDash (fun _ h => (isDash_apart h).2.1) e.sign_separator,
    fun x hx => Redactor.not_isDash (fun _ h => (isDash_apart h).1) (e.after_blank x hx)⟩

theorem Entry.dashesApart_text (e : Entry A) (v : Value A) : dashesApart A (e.text v) = true := by
  apply dashesApart_append e.key_apart
  intro x hx
  obtain ⟨hbefore, hsign, hafter⟩ := e.not_isDash
  rw [Entry.separator, List.mem_append, List.mem_cons, List.mem_append] at hx
  rcases hx with hx | rfl | hx | hx
  · exact hbefore x hx
  · exact hsign
  · exact hafter x hx
  · exact v.not_isDash x hx

/-- The beginning of a marker. -/
structure IsMarker (start : String) : Prop where
  noSeparator : start.toList.all (fun ch => ch != ':' && ch != '=') = true
  dashes : ∃ s, start.toList = '-' :: '-' :: s

theorem IsMarker.startsWith_dashes {start : String} (hstart : IsMarker start) {t : List α}
    (h : startsWith (literals A start) t = true) :
    startsWith [isDash A, isDash A] t = true := by
  obtain ⟨s, hs⟩ := hstart.dashes
  have hsplit : literals A start =
      [isDash A, isDash A] ++ s.map (fun ch => isIn A (· = ch.toNat)) := by
    rw [literals, hs]
    rfl
  rw [hsplit, startsWith_append, Bool.and_eq_true] at h
  exact h.1

/-- A marker that begins before an entry ends before it. -/
theorem Entry.markerLength_le (e : Entry A) {start : String} {y : List α} {n : ℕ}
    (h : markerLength A start (y ++ (e.key ++ e.before)) = some n) : n ≤ y.length := by
  obtain ⟨htwo, hle, hdashes⟩ := dashes_of_markerLength h
  refine Nat.le_of_not_lt (fun hlt => ?_)
  rcases Nat.lt_or_ge (n - 2) y.length with hcut | hcut
  · -- the last dash would be the first character of the key
    have hplace : n - 2 + 1 = y.length := by omega
    have hsplit : [isDash A, isDash A] = [isDash A] ++ [isDash A] := rfl
    have hone : [isDash A].length = 1 := rfl
    rw [hsplit, startsWith_append, Bool.and_eq_true, List.drop_drop, hone, hplace,
      List.drop_left] at hdashes
    obtain ⟨x, key, hkey⟩ := List.exists_cons_of_ne_nil e.key_ne
    have hhead := e.key_head
    rw [hkey, List.head?_cons, Option.any_some] at hhead
    have hfirst := hdashes.2
    rw [hkey, List.cons_append, startsWith, hhead] at hfirst
    exact Bool.false_ne_true hfirst
  · have hdrop : (y ++ (e.key ++ e.before)).drop (n - 2) =
        (e.key ++ e.before).drop (n - 2 - y.length) := by
      rw [List.drop_append, List.drop_of_length_le hcut, List.nil_append]
    rw [hdrop] at hdashes
    have hapart := dashesApart_suffix (dashesApart_append e.key_apart e.not_isDash.1)
      (List.drop_suffix (n - 2 - y.length) _)
    exact absurd (hapart.symm.trans (startsWith_dashes hdashes)) (by decide)

/-- What is read as a marker before an entry does not depend on its value. -/
theorem Entry.markerLength_append (e : Entry A) {start : String} (hstart : IsMarker start)
    (y : List α) (v : Value A) (z : List α) :
    markerLength A start (y ++ e.text v ++ z) = markerLength A start (y ++ (e.key ++ e.before)) := by
  have htext : y ++ e.text v ++ z =
      y ++ (e.key ++ e.before) ++ e.sign :: (e.after ++ (v.text ++ z)) := by
    simp [Entry.text, Entry.separator]
  rw [htext, Redactor.markerLength_append hstart.noSeparator e.sign_separator]

/-- No marker begins in an entry. -/
theorem Entry.markerLength_suffix (e : Entry A) {start : String} (hstart : IsMarker start)
    (v : Value A) (z : List α) {m : List α} (hne : m ≠ []) (hm : m <:+ e.text v) :
    markerLength A start (m ++ z) = none := by
  have hnot : startsWith (literals A start) (m ++ z) = false := by
    refine Bool.eq_false_iff.mpr (fun h => ?_)
    have hdashes := hstart.startsWith_dashes h
    cases m with
    | nil => exact absurd rfl hne
    | cons x m =>
        cases m with
        | nil =>
            -- the last character of a value is no dash
            obtain ⟨w, hw⟩ := hm
            have htext : e.text v = (e.key ++ (e.before ++ e.sign :: e.after)) ++ v.text := by
              simp [Entry.text, Entry.separator]
            have hlast := congrArg List.getLast? hw
            rw [htext, List.getLast?_append, List.getLast?_append] at hlast
            cases hv : v.text.getLast? with
            | none => exact absurd (List.getLast?_eq_none_iff.mp hv) v.ne
            | some l =>
                rw [hv] at hlast
                have hxl : x = l := by simpa using hlast
                have hnot := v.not_isDash l (List.mem_of_getLast? hv)
                rw [List.cons_append, startsWith, hxl, hnot] at hdashes
                exact Bool.false_ne_true hdashes
        | cons y m =>
            have hapart := dashesApart_suffix (e.dashesApart_text v) hm
            exact absurd (hapart.symm.trans (startsWith_dashes (t := x :: y :: m) hdashes))
              (by decide)
  rw [markerLength, hnot]
  rfl

/-- No marker begins with what ends a value. -/
theorem Behind.markerLength (z : Behind A) {start : String} (hstart : IsMarker start) {x : α}
    {t : List α} (hz : z.text = x :: t) : markerLength A start (x :: t) = none := by
  have hdash := (z.apart (x := x) (by rw [hz]; rfl)).2.2.2.2
  have hnot : startsWith (literals A start) (x :: t) = false := by
    refine Bool.eq_false_iff.mpr (fun h => ?_)
    have hdashes := hstart.startsWith_dashes h
    rw [startsWith, hdash] at hdashes
    exact Bool.false_ne_true hdashes
  rw [Redactor.markerLength, hnot]
  rfl

theorem isMarker_begin : IsMarker "-----BEGIN " := ⟨by decide, _, rfl⟩

theorem isMarker_end : IsMarker "-----END " := ⟨by decide, _, rfl⟩

theorem search_le (start : String) (t : List α) {n : ℕ}
    (h : search (markerLength A start) t = some n) : n ≤ t.length := by
  induction t generalizing n with
  | nil => exact (Redactor.markerLength_le h).2
  | cons x t ih =>
      rw [search, Option.or_eq_some_iff] at h
      rcases h with h | ⟨-, h⟩
      · exact (Redactor.markerLength_le h).2
      · obtain ⟨m, hm, rfl⟩ := Option.map_eq_some_iff.mp h
        exact Nat.succ_le_succ (ih hm)

/-- A block that begins before an entry ends before it, or behind it. -/
theorem Entry.blockLength_alike (e : Entry A) (v v' : Value A) (z y : List α) :
    SameEnds y (e.text v) (e.text v') z (blockLength A (y ++ e.text v ++ z))
      (blockLength A (y ++ e.text v' ++ z)) := by
  rw [blockLength, blockLength, e.markerLength_append isMarker_begin,
    e.markerLength_append isMarker_begin]
  cases hopen : markerLength A "-----BEGIN " (y ++ (e.key ++ e.before)) with
  | none => exact .nothing
  | some n =>
      have hle := e.markerLength_le hopen
      have hdrop : ∀ v, (y ++ e.text v ++ z).drop n = y.drop n ++ e.text v ++ z := by
        intro v
        rw [List.append_assoc, List.drop_append_of_le_length hle, List.append_assoc]
      have hlength : (y.take n).length = n := by rw [List.length_take, Nat.min_eq_left hle]
      have hsearch : SameEnds (y.drop n) (e.text v) (e.text v') z
          (search (markerLength A "-----END ") (y.drop n ++ e.text v ++ z))
          (search (markerLength A "-----END ") (y.drop n ++ e.text v' ++ z)) := by
        refine sameEnds_search (fun y _ => ?_)
          (fun s hne hs => e.markerLength_suffix isMarker_end v z hne hs)
          (fun s hne hs => e.markerLength_suffix isMarker_end v' z hne hs)
          (fun n h => search_le _ z h) (y.drop n)
        rw [e.markerLength_append isMarker_end, e.markerLength_append isMarker_end]
        cases hclose : markerLength A "-----END " (y ++ (e.key ++ e.before)) with
        | none => exact .inl ⟨rfl, rfl⟩
        | some l => exact .inr ⟨l, e.markerLength_le hclose, rfl, rfl⟩
      have hadd := hsearch.add (u := y.take n)
      rw [List.take_append_drop, hlength] at hadd
      rw [Option.bind_some, Option.bind_some, hdrop, hdrop]
      exact hadd

/-- What the rule for private keys finds before an entry does not depend on its value. -/
theorem Entry.foundAlike_privateKeyBlock [DecidableEq α] (e : Entry A) (v v' : Value A)
    (z y : List α) (replacement : List α) (prev : Option α) :
    FoundAlike (privateKeyBlock A) (fun _ => replacement) y (e.text v) (e.text v') z prev := by
  have hends := e.blockLength_alike v v' z y
  have hmatch := matchAt_privateKeyBlock (A := A) prev
  generalize hl : blockLength A (y ++ e.text v ++ z) = l at hends
  generalize hl' : blockLength A (y ++ e.text v' ++ z) = l' at hends
  cases hends with
  | nothing => exact .nothing (by rw [hmatch, hl]; rfl) (by rw [hmatch, hl']; rfl)
  | found hend => exact .found (by rw [hmatch, hl]; rfl) (by rw [hmatch, hl']; rfl) rfl hend

/-- No block begins in an entry or with what ends its value. -/
theorem Entry.matchAt_privateKeyBlock [DecidableEq α] (e : Entry A) (v : Value A) (z : List α)
    (prev : Option α) {m : List α} (hne : m ≠ []) (hm : m <:+ e.text v) :
    matchAt (privateKeyBlock A) prev (m ++ z) = none := by
  rw [Redactor.matchAt_privateKeyBlock, blockLength,
    e.markerLength_suffix isMarker_begin v z hne hm]
  rfl

theorem Behind.matchAt_privateKeyBlock [DecidableEq α] (z : Behind A) (prev : Option α) {x : α}
    {t : List α} (hz : z.text = x :: t) :
    matchAt (privateKeyBlock A) prev (x :: t) = none := by
  rw [Redactor.matchAt_privateKeyBlock, blockLength, z.markerLength isMarker_begin hz]
  rfl

end

end QeReport.Sdk.Redactor

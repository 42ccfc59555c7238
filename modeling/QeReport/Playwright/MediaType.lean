import QeReport.Playwright.Mapping
import QeReport.Protocol.SchemaWritten

/-! # Media types

The reporter takes a content type for a media type when it is one by the token grammar of HTTP,
parameters included; the schema of events wants the narrower names of the media type registry and
parameters on one line.  So what `mediaType` gives is valid exactly when the trimmed content type
is refused by the reporter's grammar or is `Registrable` (`mediaType_valid_iff`). -/

namespace QeReport.Playwright

open Sdk (trimBy)
open EventSchema (isRestrictedName isAnyCharacter isMediaType)

/-! ### The token grammar -/

/-- The match of `MEDIA_TYPE` from a state on. -/
def MediaState.accepts (s : MediaState) (t : Text) : Bool :=
  let r := t.foldl MediaState.next s
  r == .subtype || r == .value

theorem accepts_cons (s : MediaState) (u : CodeUnit) (t : Text) :
    s.accepts (u :: t) = (s.next u).accepts t := rfl

theorem accepts_failed (t : Text) : MediaState.failed.accepts t = false := by
  induction t with
  | nil => rfl
  | cons u t ih => exact ih

/-- The part from the first semicolon on. -/
def IsParameters (c : Text) : Prop := c = [] ∨ ∃ d, c = unit ';' :: d

theorem accepts_subtype {t : Text} (h : MediaState.subtype.accepts t = true) :
    ∃ b c, t = b ++ c ∧ (∀ u ∈ b, isTokenUnit u = true) ∧ IsParameters c := by
  induction t with
  | nil => exact ⟨[], [], rfl, nofun, .inl rfl⟩
  | cons u t ih =>
      rw [accepts_cons, MediaState.next] at h
      split_ifs at h with htoken hsemicolon
      · obtain ⟨b, c, rfl, hb, hc⟩ := ih h
        exact ⟨u :: b, c, rfl, List.forall_mem_cons.mpr ⟨htoken, hb⟩, hc⟩
      · exact ⟨[], u :: t, rfl, nofun, .inr ⟨t, by rw [beq_iff_eq.mp hsemicolon]⟩⟩
      · rw [accepts_failed] at h
        cases h

theorem accepts_type {t : Text} (h : MediaState.type.accepts t = true) :
    ∃ a b c, t = a ++ unit '/' :: (b ++ c) ∧ b ≠ [] ∧ (∀ u ∈ a, isTokenUnit u = true) ∧
      (∀ u ∈ b, isTokenUnit u = true) ∧ IsParameters c := by
  induction t with
  | nil => cases h
  | cons u t ih =>
      rw [accepts_cons, MediaState.next] at h
      split_ifs at h with htoken hslash
      · obtain ⟨a, b, c, rfl, hne, ha, hb, hc⟩ := ih h
        exact ⟨u :: a, b, c, rfl, hne, List.forall_mem_cons.mpr ⟨htoken, ha⟩, hb, hc⟩
      · cases t with
        | nil => cases h
        | cons v t =>
            rw [accepts_cons, MediaState.next] at h
            split_ifs at h with hv
            · obtain ⟨b, c, rfl, hb, hc⟩ := accepts_subtype h
              exact ⟨[], v :: b, c, by rw [beq_iff_eq.mp hslash]; rfl, List.cons_ne_nil v b, nofun,
                List.forall_mem_cons.mpr ⟨hv, hb⟩, hc⟩
            · rw [accepts_failed] at h
              cases h
      · rw [accepts_failed] at h
        cases h

/-- A media type by the token grammar: two tokens and the parameters. -/
structure Parts (t a b c : Text) : Prop where
  eq : t = a ++ unit '/' :: (b ++ c)
  type_ne : a ≠ []
  subtype_ne : b ≠ []
  type : ∀ u ∈ a, isTokenUnit u = true
  subtype : ∀ u ∈ b, isTokenUnit u = true
  parameters : IsParameters c

theorem parts_of_matches {t : Text} (h : matchesMediaType t = true) : ∃ a b c, Parts t a b c := by
  cases t with
  | nil => cases h
  | cons u t =>
      change MediaState.typeStart.accepts (u :: t) = true at h
      rw [accepts_cons, MediaState.next] at h
      split_ifs at h with hu
      · obtain ⟨a, b, c, rfl, hne, ha, hb, hc⟩ := accepts_type h
        exact ⟨u :: a, b, c, rfl, List.cons_ne_nil u a, hne, List.forall_mem_cons.mpr ⟨hu, ha⟩, hb,
          hc⟩
      · rw [accepts_failed] at h
        cases h

/-! ### The names of the registry -/

/-- The characters of a token that no registered name has: `%`, `*`, `|`, `~`, an apostrophe and a
grave accent. -/
def isTokenOnly (u : CodeUnit) : Bool := (txt "%*|~").contains u || u == 0x27 || u == 0x60

theorem lt_of_isTokenUnit {u : CodeUnit} (h : isTokenUnit u = true) : u.val < 128 := by
  have hset : (txt "!#$%&*+.^_|~-").all (fun v => v < unit '~' || v == unit '~') = true := by
    decide
  have hlast : (unit 'z').val < 128 ∧ (unit 'Z').val < 128 ∧ (unit '9').val < 128 ∧
      (unit '~').val < 128 := by
    decide
  simp only [isTokenUnit, Bool.or_eq_true, List.contains_iff_mem, beq_iff_eq] at h
  rcases h with ((h | h) | rfl) | rfl
  · simp only [isAlphaNumeric, isDigit, isLower, Bool.or_eq_true, Bool.and_eq_true,
      decide_eq_true_eq, Fin.le_def] at h
    omega
  · have hu := List.all_eq_true.mp hset u h
    simp only [Bool.or_eq_true, decide_eq_true_eq, beq_iff_eq, Fin.lt_def] at hu
    rcases hu with hu | rfl <;> omega
  · decide
  · decide

theorem isRestrictedName_iff {u : CodeUnit} (h : isTokenUnit u = true) :
    isRestrictedName u = true ↔ isTokenOnly u = false := by
  have hall : ∀ n : Fin 128, isTokenUnit (n.castLE (by decide)) = true →
      (isRestrictedName (n.castLE (by decide)) = true ↔
        isTokenOnly (n.castLE (by decide)) = false) := by
    decide +kernel
  exact hall ⟨u.val, lt_of_isTokenUnit h⟩ h

theorem not_isTokenUnit_semicolon : isTokenUnit (unit ';') = false := by decide

theorem slash_facts : isRestrictedName (unit '/') = false ∧ isTokenOnly (unit '/') = false ∧
    isTokenUnit (unit '/') = false ∧ isAnyCharacter (unit '/') = true := by
  decide

theorem semicolon_facts : isRestrictedName (unit ';') = false ∧
    isAnyCharacter (unit ';') = true := by
  decide

theorem isAnyCharacter_of_token {u : CodeUnit} (h : isTokenUnit u = true) :
    isAnyCharacter u = true := by
  have hall : ∀ n : Fin 128, isTokenUnit (n.castLE (by decide)) = true →
      isAnyCharacter (n.castLE (by decide)) = true := by
    decide +kernel
  exact hall ⟨u.val, lt_of_isTokenUnit h⟩ h

/-- Only names of the registry before the first semicolon, and no line break. -/
def Registrable (t : Text) : Prop :=
  (∀ u ∈ t.takeWhile (fun u => u != unit ';'), isTokenOnly u = false) ∧
    ∀ u ∈ t, isAnyCharacter u = true

instance (t : Text) : Decidable (Registrable t) := inferInstanceAs (Decidable (_ ∧ _))

section parts
variable {t a b c : Text} (h : Parts t a b c)
include h

theorem Parts.essence : t.takeWhile (fun u => u != unit ';') = a ++ unit '/' :: b := by
  have hne : ∀ u, isTokenUnit u = true → (u != unit ';') = true := by
    intro u hu
    rw [bne_iff_ne]
    rintro rfl
    rw [not_isTokenUnit_semicolon] at hu
    cases hu
  have hslash : (unit '/' != unit ';') = true := by decide
  have hc : c.takeWhile (fun u => u != unit ';') = [] := by
    rcases h.parameters with rfl | ⟨d, rfl⟩ <;> simp
  rw [h.eq, List.takeWhile_append_of_pos (fun u hu => hne u (h.type u hu)),
    List.takeWhile_cons_of_pos (p := fun u => u != unit ';') hslash,
    List.takeWhile_append_of_pos (fun u hu => hne u (h.subtype u hu)), hc, List.append_nil]

theorem Parts.registrable_iff : Registrable t ↔
    (∀ u ∈ a, isRestrictedName u = true) ∧ (∀ u ∈ b, isRestrictedName u = true) ∧
      ∀ u ∈ c, isAnyCharacter u = true := by
  rw [Registrable, h.essence]
  constructor
  · rintro ⟨hnames, hline⟩
    refine ⟨fun u hu => ?_, fun u hu => ?_, fun u hu => hline u ?_⟩
    · exact (isRestrictedName_iff (h.type u hu)).mpr (hnames u (by simp [hu]))
    · exact (isRestrictedName_iff (h.subtype u hu)).mpr (hnames u (by simp [hu]))
    · rw [h.eq]
      simp [hu]
  · rintro ⟨ha, hb, hc⟩
    constructor
    · intro u hu
      rcases List.mem_append.mp hu with hu | hu
      · exact (isRestrictedName_iff (h.type u hu)).mp (ha u hu)
      · rcases List.mem_cons.mp hu with rfl | hu
        · exact slash_facts.2.1
        · exact (isRestrictedName_iff (h.subtype u hu)).mp (hb u hu)
    · intro u hu
      rw [h.eq, List.mem_append, List.mem_cons, List.mem_append] at hu
      rcases hu with hu | rfl | hu | hu
      · exact isAnyCharacter_of_token (h.type u hu)
      · exact slash_facts.2.2.2
      · exact isAnyCharacter_of_token (h.subtype u hu)
      · exact hc u hu

omit h in
/-- What stands before the first other character, and the rest. -/
theorem split_names {a rest : Text} {u : CodeUnit} (ha : ∀ v ∈ a, isRestrictedName v = true)
    (hu : isRestrictedName u = false) :
    (a ++ u :: rest).takeWhile isRestrictedName = a ∧
      (a ++ u :: rest).dropWhile isRestrictedName = u :: rest := by
  have hu' : ¬ isRestrictedName u = true := by simp [hu]
  rw [List.takeWhile_append_of_pos ha, List.takeWhile_cons_of_neg hu', List.append_nil,
    List.dropWhile_append_of_pos ha, List.dropWhile_cons_of_neg hu']
  exact ⟨rfl, rfl⟩

omit h in
theorem dropWhile_names {b c : Text} (hb : ∀ u ∈ b, isRestrictedName u = true)
    (hc : IsParameters c) :
    (b ++ c).takeWhile isRestrictedName = b ∧ (b ++ c).dropWhile isRestrictedName = c := by
  rcases hc with rfl | ⟨d, rfl⟩
  · rw [List.append_nil, List.takeWhile_eq_self_iff.mpr hb, List.dropWhile_eq_nil_iff.mpr hb]
    exact ⟨rfl, rfl⟩
  · exact split_names hb semicolon_facts.1

omit h in
/-- A token that is not a name stops the match of the schema before the separator. -/
theorem names_of_stop {a rest : Text} {v : CodeUnit} (hv : ∀ u ∈ a, u ≠ v)
    (hstop : ((a ++ rest).dropWhile isRestrictedName).head? = some v) :
    ∀ u ∈ a, isRestrictedName u = true := by
  induction a with
  | nil => exact nofun
  | cons u a ih =>
      rw [List.forall_mem_cons] at hv ⊢
      by_cases hu : isRestrictedName u = true
      · rw [List.cons_append, List.dropWhile_cons_of_pos hu] at hstop
        exact ⟨hu, ih hv.2 hstop⟩
      · rw [List.cons_append, List.dropWhile_cons_of_neg hu] at hstop
        exact absurd (Option.some.inj hstop) hv.1

omit h in
theorem ne_of_token {a : Text} {v : CodeUnit} (ha : ∀ u ∈ a, isTokenUnit u = true)
    (hv : isTokenUnit v = false) : ∀ u ∈ a, u ≠ v := by
  rintro u hu rfl
  rw [ha u hu] at hv
  cases hv

/-- The schema takes a media type of the token grammar exactly when it is registrable. -/
theorem Parts.isMediaType_iff : isMediaType t = true ↔ Registrable t := by
  rw [h.registrable_iff, h.eq]
  constructor
  · intro hm
    unfold isMediaType at hm
    split at hm
    · cases hm
    · rename_i slash rest hdrop
      simp only [Bool.and_eq_true, beq_iff_eq] at hm
      obtain ⟨⟨⟨-, rfl⟩, -⟩, hm⟩ := hm
      have ha := names_of_stop (ne_of_token h.type slash_facts.2.2.1)
        (congrArg List.head? hdrop)
      rw [(split_names ha slash_facts.1).2] at hdrop
      rw [← (List.cons.inj hdrop).2] at hm
      split at hm
      · rename_i hall
        rw [List.dropWhile_eq_nil_iff] at hall
        refine ⟨ha, fun u hu => hall u (List.mem_append_left c hu), ?_⟩
        rcases h.parameters with rfl | ⟨d, rfl⟩
        · exact nofun
        · have hno := hall (unit ';') (by simp)
          rw [semicolon_facts.1] at hno
          cases hno
      · rename_i semicolon parameters hdrop'
        simp only [Bool.and_eq_true, beq_iff_eq] at hm
        obtain ⟨rfl, hline⟩ := hm
        have hb := names_of_stop (ne_of_token h.subtype not_isTokenUnit_semicolon)
          (congrArg List.head? hdrop')
        rw [(dropWhile_names hb h.parameters).2] at hdrop'
        refine ⟨ha, hb, ?_⟩
        rw [hdrop', List.forall_mem_cons]
        exact ⟨semicolon_facts.2, List.all_eq_true.mp hline⟩
  · rintro ⟨ha, hb, hc⟩
    obtain ⟨htake, hdrop⟩ := @split_names a (b ++ c) _ ha slash_facts.1
    obtain ⟨htake', hdrop'⟩ := dropWhile_names hb h.parameters
    have hslash : (unit '/' == unit '/') = true := beq_self_eq_true _
    rw [isMediaType, hdrop, htake]
    dsimp only
    rw [htake', hdrop', hslash]
    rcases h.parameters with rfl | ⟨d, rfl⟩
    · simp [h.type_ne, h.subtype_ne]
    · have hline : d.all isAnyCharacter = true :=
        List.all_eq_true.mpr (List.forall_mem_cons.mp hc).2
      simp [h.type_ne, h.subtype_ne, hline]

end parts

/-! ### What the reporter writes -/

/-- What the schema of attachment.added asks of a media type. -/
def ValidMediaType (t : Text) : Prop :=
  (points t).length ≤ 255 ∧ isMediaType t = true ∧
    Schema.schema [Schema.type .string, Schema.maxLength 255, Schema.pattern isMediaType]
      (.str t) = true

instance (t : Text) : Decidable (ValidMediaType t) := inferInstanceAs (Decidable (_ ∧ _ ∧ _))

theorem validMediaType_iff {t : Text} (h : t.length ≤ 255) :
    ValidMediaType t ↔ isMediaType t = true := by
  have hpoints := (points_length_le t).trans h
  simp [ValidMediaType, hpoints, Schema.type, Schema.maxLength, Schema.pattern]

/-- The media type of an attachment is valid exactly when the trimmed content type is too long, no
media type by the token grammar, or registrable. -/
theorem mediaType_valid_iff (contentType : Text) :
    ValidMediaType (mediaType contentType) ↔
      ((trimBy isWhiteSpace contentType).length ≤ 255 →
        matchesMediaType (trimBy isWhiteSpace contentType) = true →
        Registrable (trimBy isWhiteSpace contentType)) := by
  unfold mediaType
  dsimp only
  split_ifs with hown
  · rw [Bool.and_eq_true, decide_eq_true_eq] at hown
    obtain ⟨hlength, hmatches⟩ := hown
    obtain ⟨a, b, c, hparts⟩ := parts_of_matches hmatches
    rw [validMediaType_iff hlength, hparts.isMediaType_iff]
    exact ⟨fun h _ _ => h, fun h => h hlength hmatches⟩
  · refine iff_of_true (by decide) (fun hlength hmatches => ?_)
    rw [Bool.and_eq_true, decide_eq_true_eq] at hown
    exact absurd ⟨hlength, hmatches⟩ hown

/-- The reporter hands on `*/*`, which the schema refuses. -/
theorem mediaType_valid_any : ¬ ∀ contentType, ValidMediaType (mediaType contentType) := by
  intro h
  exact absurd (h (txt "*/*")) (by decide)

end QeReport.Playwright

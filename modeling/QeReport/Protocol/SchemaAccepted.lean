import QeReport.Protocol.EventSchema
import QeReport.Protocol.Readable
import QeReport.Protocol.TypeScriptScan
import QeReport.Validator.Finish

/-! # What the schema accepts the codec reads

The codec checks again by hand what the schema says of the types, the enumerations, the patterns,
the bounds of numbers and the rules between fields.  Definition by definition, a value the schema
accepts is one the codec reads (`Accepted`, `Reads`), so the two stages of the validator accept a
line of a known type exactly when the schema does (`schema_read`). -/

namespace QeReport

open Schema

/-- The reader gives a value. -/
def Reads {α : Type} (r : Read α) : Prop := ∃ a, r = .ok a

theorem Reads.ok {α : Type} (a : α) : Reads (.ok a : Read α) := ⟨a, rfl⟩

theorem Reads.bind {α β : Type} {r : Read α} {f : α → Read β} (h : Reads r)
    (hf : ∀ a, r = .ok a → Reads (f a)) : Reads (r >>= f) := by
  obtain ⟨a, rfl⟩ := h
  exact hf a rfl

theorem Reads.map {α β : Type} {r : Read α} (h : Reads r) (f : α → β) : Reads (f <$> r) := by
  obtain ⟨a, rfl⟩ := h
  exact ⟨f a, rfl⟩

theorem Reads.mapM {α β : Type} {x : Option α} {f : α → Read β} (h : ∀ a ∈ x, Reads (f a)) :
    Reads (x.mapM f) := by
  cases x with
  | none => exact .ok none
  | some a => exact (h a rfl).map some

/-- A value `JSON.parse` returned, accepted by a schema. -/
structure Accepted (s : Schema) (v : Json) : Prop where
  parsed : asDoubles v = v
  accepts : s v = true

/-! ### Values -/

theorem asDouble_asDouble (n : JsNumber) : n.asDouble.asDouble = n.asDouble := by
  cases hp : n.parsed? with
  | none =>
      have hn : n.asDouble = n := by rw [JsNumber.asDouble, hp, Option.map_none, Option.getD_none]
      rw [hn, hn]
  | some i =>
      have hn : n.asDouble = .ofInt i := by
        rw [JsNumber.asDouble, hp, Option.map_some, Option.getD_some]
      have hi : (JsNumber.ofInt i).parsed? = some i := by
        rw [JsNumber.parsed?_ofInt, if_pos (JsNumber.parsed?_safe hp)]
      rw [hn, JsNumber.asDouble, hi, Option.map_some, Option.getD_some]

mutual

/-- Parsing a value a second time changes nothing. -/
theorem asDoubles_asDoubles : (v : Json) → asDoubles (asDoubles v) = asDoubles v
  | .null => rfl
  | .bool _ => rfl
  | .num n => by rw [asDoubles, asDoubles, asDouble_asDouble]
  | .str _ => rfl
  | .arr vs => by rw [asDoubles, asDoubles, asDoublesItems_twice vs]
  | .obj ms => by rw [asDoubles, asDoubles, asDoublesMembers_twice ms]

theorem asDoublesItems_twice : (vs : List Json) →
    asDoublesItems (asDoublesItems vs) = asDoublesItems vs
  | [] => rfl
  | v :: vs => by
      rw [asDoublesItems, asDoublesItems, asDoubles_asDoubles v, asDoublesItems_twice vs]

theorem asDoublesMembers_twice : (ms : List (Text × Json)) →
    asDoublesMembers (asDoublesMembers ms) = asDoublesMembers ms
  | [] => rfl
  | (k, v) :: ms => by
      rw [asDoublesMembers, asDoublesMembers, asDoubles_asDoubles v, asDoublesMembers_twice ms]

end

theorem parsed_member {o : Obj} {k : Text} {w : Json} (h : asDoubles (.obj o) = .obj o)
    (hw : memberOf o k = some w) : asDoubles w = w := by
  have ho : asDoublesMembers o = o := by simpa [asDoubles] using h
  have hmember := memberOf_asDoubles o k
  rw [ho, hw] at hmember
  exact (Option.some.inj hmember).symm

theorem parsed_item {vs : List Json} {w : Json} (h : asDoubles (.arr vs) = .arr vs) (hw : w ∈ vs) :
    asDoubles w = w := by
  have hvs : vs.map asDoubles = vs.map id := by
    rw [List.map_id, ← asDoublesItems_eq]
    simpa [asDoubles] using h
  exact List.map_inj_left.mp hvs w hw

theorem accepted_text {ks : List Schema} {v : Json} (h : Accepted (schema (type .string :: ks)) v) :
    ∃ s, v = .str s := type_string.mp (schema_eq_true.mp h.accepts _ List.mem_cons_self)

theorem accepted_word {values : List Text} {v : Json}
    (h : Accepted (schema [type .string, enum values]) v) : ∃ s ∈ values, v = .str s :=
  enum_eq_true.mp (schema_eq_true.mp h.accepts _ (by simp))

theorem accepted_identifier {v : Json} (h : Accepted EventSchema.identifier v) :
    ∃ s, v = .str s ∧ isIdentifier s = true := by
  obtain ⟨s, rfl⟩ := accepted_text h
  exact ⟨s, rfl, schema_eq_true.mp h.accepts (pattern isIdentifier) (by simp)⟩

/-- The integer of a number within bounds. -/
theorem accepted_integer {low high : ℤ} {v : Json}
    (h : Accepted (schema [type .integer, minimum low, maximum high]) v)
    (hsafe : -9007199254740991 ≤ low ∧ high ≤ 9007199254740991) :
    ∃ i, v = .num (.ofInt i) ∧ low ≤ i ∧ i ≤ high := by
  have hall := schema_eq_true.mp h.accepts
  obtain ⟨n, rfl, -⟩ := type_integer.mp (hall _ List.mem_cons_self)
  obtain ⟨i, hi, hlow, hhigh⟩ := integer_within (hall (type .integer) (by simp))
    (hall (minimum low) (by simp)) (hall (maximum high) (by simp)) hsafe
  have hn : n.asDouble = n := by simpa [asDoubles] using h.parsed
  rw [JsNumber.asDouble, hi, Option.map_some, Option.getD_some] at hn
  exact ⟨i, by rw [hn], hlow, hhigh⟩

/-! ### Fields -/

/-- The element at a place of a list. -/
theorem nth {α : Type} {l : List α} {a : α} (i : ℕ) (h : l[i]? = some a) : a ∈ l :=
  List.mem_of_getElem? h

/-- The fields of an accepted object: those it must have, and what is said of those it has. -/
structure Fields (o : Obj) (names : List Text) (ps : List (Text × Schema)) : Prop where
  required : ∀ k ∈ names, ∃ w, memberOf o k = some w
  member : ∀ k s w, (k, s) ∈ ps → memberOf o k = some w → Accepted s w

theorem fields_of {o : Obj} {names : List Text} {ps : List (Text × Schema)}
    (hparsed : asDoubles (.obj o) = .obj o) (hrequired : Schema.required names (.obj o) = true)
    (hproperties : properties ps (.obj o) = true) : Fields o names ps :=
  ⟨fun _ hk => required_member hrequired hk,
    fun _ _ _ hk hw => ⟨parsed_member hparsed hw, properties_member hproperties hk hw⟩⟩

theorem accepted_fields {names : List Text} {ps : List (Text × Schema)} {more : List Schema}
    {v : Json}
    (h : Accepted (schema (type .object :: Schema.required names :: properties ps :: more)) v) :
    ∃ o, v = .obj o ∧ Fields o names ps := by
  have hall := schema_eq_true.mp h.accepts
  obtain ⟨o, rfl⟩ := type_object.mp (hall _ List.mem_cons_self)
  exact ⟨o, rfl, fields_of h.parsed (hall _ (by simp)) (hall _ (by simp))⟩

/-- An object without fields it must have. -/
theorem accepted_fields_optional {ps : List (Text × Schema)} {more : List Schema} {v : Json}
    (h : Accepted (schema (type .object :: properties ps :: more)) v) :
    ∃ o, v = .obj o ∧ Fields o [] ps := by
  have hall := schema_eq_true.mp h.accepts
  obtain ⟨o, rfl⟩ := type_object.mp (hall _ List.mem_cons_self)
  exact ⟨o, rfl, fields_of h.parsed rfl (hall _ (by simp))⟩

/-- A word of an enumeration is one the codec knows. -/
theorem reads_oneOf {α : Type} {allowed : List α} {text : α → Text} {t ptr : Text}
    (ht : t ∈ allowed.map text) : Reads (oneOf t allowed text ptr) := by
  obtain ⟨a, ha, rfl⟩ := List.mem_map.mp ht
  unfold oneOf
  cases hfind : allowed.find? (fun b => text b = text a) with
  | some b => exact .ok b
  | none => simpa using List.find?_eq_none.mp hfind a ha

theorem text_of_oneOf {α : Type} {allowed : List α} {text : α → Text} {t ptr : Text} {a : α}
    (h : oneOf t allowed text ptr = .ok a) : text a = t := by
  unfold oneOf at h
  cases hfind : allowed.find? (fun b => text b = t) with
  | some b =>
      rw [hfind] at h
      obtain rfl := Except.ok.inj h
      simpa using List.find?_some hfind
  | none =>
      rw [hfind] at h
      cases h

section fields
variable {o : Obj} {names : List Text} {ps : List (Text × Schema)} {key at_ : Text} {s : Schema}
  (h : Fields o names ps)
include h

theorem Fields.has (hkey : key ∈ names) (hs : (key, s) ∈ ps) :
    ∃ w, memberOf o key = some w ∧ Accepted s w := by
  obtain ⟨w, hw⟩ := h.required key hkey
  exact ⟨w, hw, h.member key s w hs hw⟩

/-- A field that may be missing is missing or accepted. -/
theorem Fields.may (hs : (key, s) ∈ ps) :
    memberOf o key = none ∨ ∃ w, memberOf o key = some w ∧ Accepted s w := by
  cases hw : memberOf o key with
  | none => exact .inl rfl
  | some w => exact .inr ⟨w, rfl, h.member key s w hs hw⟩

theorem Fields.reads_string (hkey : key ∈ names) (hs : (key, s) ∈ ps)
    (htext : ∀ w, Accepted s w → ∃ t, w = .str t) : Reads (requiredString o key at_) := by
  obtain ⟨w, hw, hacc⟩ := h.has hkey hs
  obtain ⟨t, rfl⟩ := htext w hacc
  exact ⟨t, requiredString_of hw⟩

theorem Fields.reads_optional_string (hs : (key, s) ∈ ps) (htext : ∀ w, Accepted s w → ∃ t, w = .str t) :
    Reads (optionalString o key at_) := by
  rcases h.may hs with hw | ⟨w, hw, hacc⟩
  · exact ⟨none, optionalString_of hw⟩
  · obtain ⟨t, rfl⟩ := htext w hacc
    exact ⟨some t, optionalString_of hw⟩

theorem Fields.reads_identifier (hkey : key ∈ names) (hs : (key, EventSchema.identifier) ∈ ps) :
    Reads (identifier o key at_) := by
  obtain ⟨w, hw, hacc⟩ := h.has hkey hs
  obtain ⟨t, rfl, ht⟩ := accepted_identifier hacc
  exact ⟨t, identifier_back hw ht⟩

theorem Fields.reads_optional_identifier (hs : (key, EventSchema.identifier) ∈ ps) :
    Reads (optionalIdentifier o key at_) := by
  rcases h.may hs with hw | ⟨w, hw, hacc⟩
  · exact ⟨none, optionalIdentifier_back hw (by simp [Identifier])⟩
  · obtain ⟨t, rfl, ht⟩ := accepted_identifier hacc
    exact ⟨some t, optionalIdentifier_back hw (by simpa [Identifier] using ht)⟩

/-- A word of an enumeration is one of the codec's. -/
theorem Fields.reads_word {α : Type} (allowed : List α) (text : α → Text) (at_ : Text) (hkey : key ∈ names)
    (hs : (key, schema [type .string, enum (allowed.map text)]) ∈ ps) :
    ∃ t ∈ allowed.map text, requiredString o key at_ = .ok t := by
  obtain ⟨w, hw, hacc⟩ := h.has hkey hs
  obtain ⟨t, ht, rfl⟩ := accepted_word hacc
  exact ⟨t, ht, requiredString_of hw⟩

theorem Fields.reads_optional_word {α : Type} (allowed : List α) (text : α → Text) (at_ : Text)
    (hs : (key, schema [type .string, enum (allowed.map text)]) ∈ ps) :
    ∃ x : Option Text, optionalString o key at_ = .ok x ∧ ∀ t ∈ x, t ∈ allowed.map text := by
  rcases h.may hs with hw | ⟨w, hw, hacc⟩
  · exact ⟨none, optionalString_of hw, by simp⟩
  · obtain ⟨t, ht, rfl⟩ := accepted_word hacc
    exact ⟨some t, optionalString_of hw, by simpa using ht⟩

theorem Fields.reads_optional_integer {low high : ℤ}
    (hs : (key, schema [type .integer, minimum low, maximum high]) ∈ ps)
    (hsafe : -9007199254740991 ≤ low ∧ high ≤ 9007199254740991) :
    Reads (optionalIntegral o key at_) := by
  rcases h.may hs with hw | ⟨w, hw, hacc⟩
  · exact ⟨none, optionalIntegral_back hw (by simp [SafeInteger])⟩
  · obtain ⟨i, rfl, hlow, hhigh⟩ := accepted_integer hacc hsafe
    refine ⟨some i, optionalIntegral_back hw ?_⟩
    intro n hn
    obtain rfl := Option.some.inj hn
    exact show i.natAbs ≤ 9007199254740991 by omega

theorem Fields.reads_integer {low high : ℤ} (hkey : key ∈ names)
    (hs : (key, schema [type .integer, minimum low, maximum high]) ∈ ps)
    (hsafe : -9007199254740991 ≤ low ∧ high ≤ 9007199254740991) :
    ∃ i, integral o key at_ = .ok i ∧ low ≤ i ∧ i ≤ high := by
  obtain ⟨w, hw, hacc⟩ := h.has hkey hs
  obtain ⟨i, rfl, hlow, hhigh⟩ := accepted_integer hacc hsafe
  exact ⟨i, integral_back hw (show i.natAbs ≤ 9007199254740991 by omega), hlow, hhigh⟩

theorem Fields.reads_optional_object {α : Type} {read : Obj → Text → Read α} (hs : (key, s) ∈ ps)
    (hread : ∀ w, Accepted s w → ∃ ms, w = .obj ms ∧ ∀ ptr, Reads (read ms ptr)) :
    Reads (optionalObject o key at_ read) := by
  rcases h.may hs with hw | ⟨w, hw, hacc⟩
  · rw [optionalObject_of (show memberOf o key = (none : Option Obj).map .obj from hw)]
    exact .ok none
  · obtain ⟨ms, rfl, hms⟩ := hread w hacc
    rw [optionalObject_of (show memberOf o key = (some ms).map .obj from hw)]
    exact (hms _).map some

end fields

/-! ### Parts -/

section parts
variable {v : Json} {at_ : Text}

/-- The items of an accepted array are read one by one. -/
theorem reads_mapItems {α : Type} {read : Json → Text → Read α} {vs : List Json} (at_ : Text)
    (h : ∀ w ∈ vs, ∀ ptr, Reads (read w ptr)) :
    ∃ l, mapItems read at_ vs = .ok l ∧ l.length = vs.length := by
  rw [mapItems]
  generalize 0 = n
  induction vs generalizing n with
  | nil => exact ⟨[], rfl, rfl⟩
  | cons w vs ih =>
      obtain ⟨a, ha⟩ := h w List.mem_cons_self (child at_ (natText n))
      obtain ⟨l, hl, hlength⟩ := ih (fun w hw => h w (List.mem_cons_of_mem _ hw)) (n + 1)
      refine ⟨a :: l, ?_, congrArg Nat.succ hlength⟩
      rw [List.zipIdx_cons, List.mapM_cons]
      dsimp only
      rw [ha, hl]
      rfl

theorem accepted_array {s : Schema} {ks : List Schema} (h : Accepted (schema (type .array :: ks)) v)
    (hs : items s ∈ ks) : ∃ vs, v = .arr vs ∧ ∀ w ∈ vs, Accepted s w := by
  have hall := schema_eq_true.mp h.accepts
  obtain ⟨vs, rfl⟩ := type_array.mp (hall _ List.mem_cons_self)
  have hitems : items s (.arr vs) = true := hall _ (List.mem_cons_of_mem _ hs)
  exact ⟨vs, rfl, fun w hw => ⟨parsed_item h.parsed hw, List.all_eq_true.mp hitems w hw⟩⟩

theorem reads_record {ms : Obj} (h : ∀ m ∈ ms, ∃ t, m.2 = .str t) :
    Reads (ms.mapM (fun (k, v) => (fun s => (k, s)) <$> asString (child at_ k) v) :
      Read Record) := by
  induction ms with
  | nil => exact .ok []
  | cons m ms ih =>
      obtain ⟨k, v⟩ := m
      obtain ⟨t, ht⟩ := h _ List.mem_cons_self
      obtain rfl : v = .str t := ht
      rw [List.mapM_cons]
      refine Reads.bind (.ok (k, t)) (fun a _ => ?_)
      exact (ih (fun m hm => h m (List.mem_cons_of_mem _ hm))).bind (fun as _ => .ok _)

theorem reads_stringMap {o : Obj} {names : List Text} {ps : List (Text × Schema)} {key : Text}
    (h : Fields o names ps) (hs : (key, EventSchema.stringMap) ∈ ps) :
    Reads (stringMap o key at_) := by
  rcases h.may hs with hw | ⟨w, hw, hacc⟩
  · exact ⟨none, by rw [stringMap, present_of_memberOf hw (by simp)]⟩
  · have hall := schema_eq_true.mp hacc.accepts
    obtain ⟨ms, rfl⟩ := type_object.mp (hall _ List.mem_cons_self)
    have hadditional : additionalProperties (schema [type .string, maxLength 1024]) (.obj ms) = true :=
      hall _ (by simp)
    have htext : ∀ m ∈ ms, ∃ t, m.2 = .str t := by
      intro m hm
      have hvalue := schema_eq_true.mp (List.all_eq_true.mp hadditional m hm)
      exact type_string.mp (hvalue _ List.mem_cons_self)
    rw [stringMap, present_of_memberOf hw (by simp)]
    exact (reads_record htext).map some

theorem reads_stringList {o : Obj} {names : List Text} {ps : List (Text × Schema)} {key : Text}
    (h : Fields o names ps) (hs : (key, EventSchema.tags) ∈ ps) :
    Reads (stringList o key at_) := by
  rcases h.may hs with hw | ⟨w, hw, hacc⟩
  · exact ⟨none, by rw [stringList, present_of_memberOf hw (by simp)]⟩
  · obtain ⟨vs, rfl, hvs⟩ := accepted_array hacc (nth 1 rfl)
    rw [stringList, present_of_memberOf hw (by simp)]
    have hread : ∀ w ∈ vs, ∀ ptr, Reads (asString ptr w) := by
      intro w hw ptr
      obtain ⟨t, rfl⟩ := accepted_text (hvs w hw)
      exact .ok t
    obtain ⟨l, hl, -⟩ := reads_mapItems (child at_ key) hread
    dsimp only
    rw [hl]
    exact .ok (some l)

theorem reads_component (h : Accepted EventSchema.component v) :
    ∃ o, v = .obj o ∧ ∀ ptr, Reads (component o ptr) := by
  obtain ⟨o, rfl, hf⟩ := accepted_fields h
  refine ⟨o, rfl, fun ptr => ?_⟩
  refine (hf.reads_string (nth 0 rfl) (nth 0 rfl) (fun _ => accepted_text)).bind (fun name _ => ?_)
  refine (hf.reads_optional_string (nth 1 rfl) (fun _ => accepted_text)).bind (fun version _ => ?_)
  exact .ok _

theorem reads_location (h : Accepted EventSchema.location v) :
    ∃ o, v = .obj o ∧ ∀ ptr, Reads (location o ptr) := by
  obtain ⟨o, rfl, hf⟩ := accepted_fields h
  refine ⟨o, rfl, fun ptr => ?_⟩
  refine (hf.reads_string (nth 0 rfl) (nth 0 rfl) (fun _ => accepted_text)).bind (fun file _ => ?_)
  refine (hf.reads_optional_integer (nth 1 rfl) (by decide)).bind (fun line _ => ?_)
  refine (hf.reads_optional_integer (nth 2 rfl) (by decide)).bind (fun column _ => ?_)
  exact .ok _

theorem reads_failure (h : Accepted EventSchema.failure v) (ptr : Text) : Reads (failure v ptr) := by
  obtain ⟨o, rfl, hf⟩ := accepted_fields h
  obtain ⟨phase, hphase, hwords⟩ := hf.reads_optional_word failurePhases FailurePhase.text ptr
    (nth 3 rfl)
  refine Reads.bind (.ok o) (fun o' ho => ?_)
  obtain rfl := Except.ok.inj ho
  refine Reads.bind ⟨phase, hphase⟩ (fun raw hraw => ?_)
  obtain rfl := Except.ok.inj (hphase.symm.trans hraw)
  refine (hf.reads_string (nth 0 rfl) (nth 0 rfl) (fun _ => accepted_text)).bind (fun message _ => ?_)
  refine (hf.reads_optional_string (nth 1 rfl) (fun _ => accepted_text)).bind (fun type _ => ?_)
  refine (hf.reads_optional_string (nth 2 rfl) (fun _ => accepted_text)).bind (fun trace _ => ?_)
  refine (Reads.mapM (fun t ht => reads_oneOf (hwords t ht))).bind (fun phase _ => ?_)
  refine (hf.reads_optional_object (nth 4 rfl) (fun _ => reads_location)).bind (fun l _ => ?_)
  exact .ok _

/-- Accepted failures are read, and there is one. -/
theorem reads_failures {o : Obj} {names : List Text} {ps : List (Text × Schema)} (at_ : Text)
    (h : Fields o names ps) (hs : (txt "failures", EventSchema.failures) ∈ ps) :
    (memberOf o (txt "failures") = none ∧ failures o at_ = .ok none) ∨
      ∃ fs, (memberOf o (txt "failures")).isSome ∧ failures o at_ = .ok (some fs) ∧ fs ≠ [] := by
  rcases h.may hs with hw | ⟨w, hw, hacc⟩
  · exact .inl ⟨hw, by rw [failures, present_of_memberOf hw (by simp)]⟩
  · obtain ⟨vs, rfl, hvs⟩ := accepted_array hacc (nth 2 rfl)
    have hmin : minItems 1 (.arr vs) = true := schema_eq_true.mp hacc.accepts _ (nth 1 rfl)
    have hlength : 1 ≤ vs.length := of_decide_eq_true hmin
    obtain ⟨fs, hfs, hfslength⟩ := reads_mapItems (child at_ (txt "failures"))
      (fun w hw ptr => reads_failure (hvs w hw) ptr)
    refine .inr ⟨fs, by rw [hw]; rfl, ?_, ?_⟩
    · rw [failures, present_of_memberOf hw (by simp)]
      dsimp only
      rw [hfs]
      rfl
    · apply List.ne_nil_of_length_pos
      omega

theorem reads_optional_failures {o : Obj} {names : List Text} {ps : List (Text × Schema)}
    (h : Fields o names ps) (hs : (txt "failures", EventSchema.failures) ∈ ps) :
    Reads (failures o at_) := by
  rcases reads_failures at_ h hs with ⟨-, hread⟩ | ⟨fs, -, hread, -⟩
  · exact ⟨none, hread⟩
  · exact ⟨some fs, hread⟩

theorem reads_pathSegment (h : Accepted EventSchema.pathSegment v) (ptr : Text) :
    Reads (pathSegment v ptr) := by
  obtain ⟨o, rfl, hf⟩ := accepted_fields h
  refine Reads.bind (.ok o) (fun o' ho => ?_)
  obtain rfl := Except.ok.inj ho
  refine (hf.reads_string (nth 0 rfl) (nth 0 rfl) (fun _ => accepted_text)).bind (fun kind _ => ?_)
  refine (hf.reads_string (nth 1 rfl) (nth 1 rfl) (fun _ => accepted_text)).bind (fun name _ => ?_)
  exact .ok _

theorem reads_pathSegments {ks : List Schema}
    (h : Accepted (schema (type .array :: ks)) v) (hs : items EventSchema.pathSegment ∈ ks)
    (ptr : Text) : ∃ path vs, pathSegments v ptr = .ok path ∧ v = .arr vs ∧
      path.length = vs.length := by
  obtain ⟨vs, rfl, hvs⟩ := accepted_array h hs
  obtain ⟨path, hpath, hlength⟩ := reads_mapItems ptr
    (fun w hw ptr => reads_pathSegment (hvs w hw) ptr)
  exact ⟨path, vs, hpath, rfl, hlength⟩

/-- The rule between the stability of a historical id and the id. -/
theorem historicalId_rule {o : Obj} {t : Text}
    (hstability : memberOf o (txt "historicalIdStability") = some (.str t))
    (h : ifThenElse (properties [(txt "historicalIdStability", const (txt "unavailable"))])
      (properties [(txt "historicalId", never)])
      (Schema.required [txt "historicalId"]) (.obj o) = true) :
    (memberOf o (txt "historicalId")).isNone ↔ t = txt "unavailable" := by
  have hcondition : properties [(txt "historicalIdStability", const (txt "unavailable"))] (.obj o) =
      decide (t = txt "unavailable") := by
    simp [properties, hstability, const, enum]
  rw [ifThenElse, hcondition] at h
  by_cases ht : t = txt "unavailable"
  · rw [decide_eq_true ht, if_pos rfl] at h
    refine iff_of_true ?_ ht
    cases hid : memberOf o (txt "historicalId") with
    | none => rfl
    | some w =>
        have hnever : never w = true := properties_member h (nth 0 rfl) hid
        cases hnever
  · rw [decide_eq_false ht, if_neg Bool.false_ne_true] at h
    obtain ⟨w, hw⟩ := required_member h (nth 0 rfl)
    rw [hw]
    exact iff_of_false (by simp) ht

theorem reads_testCase (h : Accepted EventSchema.testCase v) :
    ∃ o, v = .obj o ∧ ∀ ptr, Reads (testCase o ptr) := by
  obtain ⟨o, rfl, hf⟩ := accepted_fields h
  refine ⟨o, rfl, fun ptr => ?_⟩
  obtain ⟨t, ht, hstability⟩ := hf.reads_word historicalIdStabilities HistoricalIdStability.text ptr
    (nth 3 rfl) (nth 2 rfl)
  have hrule := historicalId_rule (requiredString_eq_ok hstability)
    (schema_eq_true.mp h.accepts _ (nth 3 rfl))
  refine Reads.bind ⟨t, hstability⟩ (fun t' ht' => ?_)
  obtain rfl := Except.ok.inj (hstability.symm.trans ht')
  refine Reads.bind (reads_oneOf ht) (fun stability hword => ?_)
  have hid : ∃ x : Option Text, optionalString o (txt "historicalId") ptr = .ok x ∧
      (x.isNone ↔ (memberOf o (txt "historicalId")).isNone) := by
    rcases hf.may (nth 1 rfl) with hw | ⟨w, hw, hacc⟩
    · exact ⟨none, optionalString_of hw, by rw [hw]; rfl⟩
    · obtain ⟨id, rfl⟩ := accepted_text hacc
      exact ⟨some id, optionalString_of hw, by rw [hw]; rfl⟩
  obtain ⟨id, hread, hnone⟩ := hid
  refine Reads.bind ⟨id, hread⟩ (fun id' hid' => ?_)
  obtain rfl := Except.ok.inj (hread.symm.trans hid')
  have hunavailable : stability = .unavailable ↔ id.isNone := by
    rw [hnone, hrule, ← text_of_oneOf hword]
    cases stability <;> decide
  rw [if_neg (by rw [hunavailable]; cases id <;> simp),
    if_neg (by rw [Ne, hunavailable]; cases id <;> simp)]
  obtain ⟨w, hw, hacc⟩ := hf.has (nth 2 rfl) (nth 4 rfl)
  obtain ⟨path, vs, hpath, rfl, -⟩ := reads_pathSegments hacc (nth 1 rfl) (child ptr (txt "path"))
  have hrequired : required o (txt "path") ptr = .ok (.arr vs) := required_of hw (by simp)
  refine Reads.bind ⟨_, hrequired⟩ (fun raw hraw => ?_)
  obtain rfl := Except.ok.inj (hrequired.symm.trans hraw)
  refine Reads.bind ⟨path, hpath⟩ (fun path _ => ?_)
  refine (hf.reads_identifier (nth 0 rfl) (nth 0 rfl)).bind (fun executionId _ => ?_)
  refine (hf.reads_string (nth 1 rfl) (nth 3 rfl) (fun _ => accepted_text)).bind (fun name _ => ?_)
  refine (hf.reads_optional_object (nth 5 rfl) (fun _ => reads_location)).bind (fun l _ => ?_)
  refine (reads_stringList hf (nth 6 rfl)).bind (fun tags _ => ?_)
  refine (reads_stringMap hf (nth 7 rfl)).bind (fun labels _ => ?_)
  exact .ok _

/-- An object without required fields whose fields are texts. -/
theorem reads_executor (h : Accepted (schema [type .object, properties [
      (txt "name", EventSchema.shortText), (txt "buildId", EventSchema.shortText),
      (txt "buildUrl", schema [type .string, maxLength 2048])]]) v) :
    ∃ o, v = .obj o ∧ ∀ ptr, Reads (executor o ptr) := by
  obtain ⟨o, rfl, hf⟩ := accepted_fields_optional h
  refine ⟨o, rfl, fun ptr => ?_⟩
  refine (hf.reads_optional_string (nth 0 rfl) (fun _ => accepted_text)).bind (fun name _ => ?_)
  refine (hf.reads_optional_string (nth 1 rfl) (fun _ => accepted_text)).bind (fun id _ => ?_)
  refine (hf.reads_optional_string (nth 2 rfl) (fun _ => accepted_text)).bind (fun url _ => ?_)
  exact .ok _

theorem reads_source (h : Accepted (schema [type .object, properties [
      (txt "repository", schema [type .string, maxLength 2048]),
      (txt "revision", EventSchema.shortText), (txt "branch", EventSchema.shortText)]]) v) :
    ∃ o, v = .obj o ∧ ∀ ptr, Reads (source o ptr) := by
  obtain ⟨o, rfl, hf⟩ := accepted_fields_optional h
  refine ⟨o, rfl, fun ptr => ?_⟩
  refine (hf.reads_optional_string (nth 0 rfl) (fun _ => accepted_text)).bind (fun repo _ => ?_)
  refine (hf.reads_optional_string (nth 1 rfl) (fun _ => accepted_text)).bind (fun rev _ => ?_)
  refine (hf.reads_optional_string (nth 2 rfl) (fun _ => accepted_text)).bind (fun branch _ => ?_)
  exact .ok _

end parts

/-! ### Payloads -/

section payloads
variable {v : Json}

theorem reads_sessionStarted (h : Accepted EventSchema.sessionStarted v) :
    ∃ o, v = .obj o ∧ ∀ ptr, Reads (readSessionStarted o ptr) := by
  obtain ⟨o, rfl, hf⟩ := accepted_fields h
  refine ⟨o, rfl, fun ptr => ?_⟩
  obtain ⟨w, hw, hacc⟩ := hf.has (nth 0 rfl) (nth 0 rfl)
  obtain ⟨producer, rfl, hproducer⟩ := reads_component hacc
  have hrequired : required o (txt "producer") ptr = .ok (.obj producer) := required_of hw (by simp)
  refine Reads.bind ⟨_, hrequired⟩ (fun raw hraw => ?_)
  obtain rfl := Except.ok.inj (hrequired.symm.trans hraw)
  refine Reads.bind (.ok producer) (fun raw hraw => ?_)
  obtain rfl := Except.ok.inj hraw
  refine (hproducer _).bind (fun _ _ => ?_)
  refine (hf.reads_optional_object (nth 1 rfl) (fun _ => reads_component)).bind (fun _ _ => ?_)
  refine (reads_stringMap hf (nth 2 rfl)).bind (fun _ _ => ?_)
  refine (hf.reads_optional_object (nth 3 rfl) (fun _ => reads_executor)).bind (fun _ _ => ?_)
  refine (hf.reads_optional_object (nth 4 rfl) (fun _ => reads_source)).bind (fun _ _ => ?_)
  refine (reads_stringMap hf (nth 5 rfl)).bind (fun _ _ => ?_)
  exact .ok _

/-- Failures and a word of its own come only with a status. -/
theorem outcome_rule {o : Obj} {k : Text}
    (hk : (k, [txt "status"]) ∈ [(txt "rawStatus", [txt "status"]), (txt "failures", [txt "status"])])
    (h : dependentRequired [(txt "rawStatus", [txt "status"]),
      (txt "failures", [txt "status"])] (.obj o) = true)
    (hsome : (memberOf o k).isSome) : (memberOf o (txt "status")).isSome := by
  have hp := List.all_eq_true.mp h _ hk
  cases hm : memberOf o k with
  | none =>
      rw [hm] at hsome
      cases hsome
  | some w => simpa [hm] using hp

/-- A passed outcome has no failures. -/
theorem passed_rule {o : Obj}
    (h : ifThen (schema [properties [(txt "status", const (txt "passed"))],
      Schema.required [txt "status"]]) (Schema.not (Schema.required [txt "failures"])) (.obj o) = true)
    (hpassed : memberOf o (txt "status") = some (.str (txt "passed"))) :
    memberOf o (txt "failures") = none := by
  have hcondition : schema [properties [(txt "status", const (txt "passed"))],
      Schema.required [txt "status"]] (.obj o) = true := by
    simp [properties, Schema.required, hpassed, const, enum]
  rw [ifThen, hcondition, Bool.not_true, Bool.false_or] at h
  cases hm : memberOf o (txt "failures") with
  | none => rfl
  | some w => simp [Schema.not, Schema.required, hm] at h

/-- The status of an outcome, as it is read. -/
theorem reads_status {o : Obj} {names : List Text} {ps : List (Text × Schema)} (ptr : Text)
    (h : Fields o names ps) (hs : (txt "status", EventSchema.sessionStatus) ∈ ps) :
    ∃ raw status, optionalString o (txt "status") ptr = .ok raw ∧
      raw.mapM (readSessionStatus ptr) = .ok status ∧
      (status = none → memberOf o (txt "status") = none) ∧
      (status = some .passed → memberOf o (txt "status") = some (.str (txt "passed"))) := by
  rcases h.may hs with hw | ⟨w, hw, hacc⟩
  · exact ⟨none, none, optionalString_of hw, rfl, fun _ => hw, nofun⟩
  · obtain ⟨t, ht, rfl⟩ := accepted_word hacc
    have hstatus : ∃ status : SessionStatus, status.text = t := by
      have ht' : t ∈ sessionStatuses.map SessionStatus.text := ht
      obtain ⟨status, -, hstatus⟩ := List.mem_map.mp ht'
      exact ⟨status, hstatus⟩
    obtain ⟨status, rfl⟩ := hstatus
    have hread : readSessionStatus ptr status.text = .ok status := by
      cases status <;> rfl
    refine ⟨some status.text, some status, optionalString_of hw, ?_, nofun, ?_⟩
    · rw [Option.mapM_some, hread]
      rfl
    · intro hpassed
      rw [hw, Option.some.inj hpassed]
      rfl

theorem reads_sessionFinished (h : Accepted EventSchema.sessionFinished v) :
    ∃ o, v = .obj o ∧ ∀ ptr, Reads (readSessionFinished o ptr) := by
  obtain ⟨o, rfl, hf⟩ := accepted_fields_optional h
  refine ⟨o, rfl, fun ptr => ?_⟩
  have hall := schema_eq_true.mp h.accepts
  have hdependent : ∀ k, (k, [txt "status"]) ∈ [(txt "rawStatus", [txt "status"]),
      (txt "failures", [txt "status"])] → memberOf o (txt "status") = none →
      memberOf o k = none := by
    intro k hk hnone
    cases hm : memberOf o k with
    | none => rfl
    | some w =>
        have hstatus := outcome_rule hk (hall _ (nth 2 rfl)) (by rw [hm]; rfl)
        rw [hnone] at hstatus
        cases hstatus
  obtain ⟨raw, status, hraw, hstatus, hnone, hpassed⟩ := reads_status ptr hf (nth 0 rfl)
  obtain ⟨rawStatus, hrawStatus, hrawNone⟩ : ∃ x : Option Text,
      optionalString o (txt "rawStatus") ptr = .ok x ∧
      (memberOf o (txt "rawStatus") = none → x = none) := by
    rcases hf.may (nth 1 rfl) with hw | ⟨w, hw, hacc⟩
    · exact ⟨none, optionalString_of hw, fun _ => rfl⟩
    · obtain ⟨t, rfl⟩ := accepted_text hacc
      refine ⟨some t, optionalString_of hw, fun hm => ?_⟩
      rw [hw] at hm
      cases hm
  obtain ⟨fs, hfs, hfsNone⟩ : ∃ x : Option (List Failure), failures o ptr = .ok x ∧
      (memberOf o (txt "failures") = none → x = none) := by
    rcases reads_failures ptr hf (nth 2 rfl) with ⟨-, hread⟩ | ⟨fs, hsome, hread, -⟩
    · exact ⟨none, hread, fun _ => rfl⟩
    · refine ⟨some fs, hread, fun hm => ?_⟩
      rw [hm] at hsome
      cases hsome
  refine Reads.bind ⟨raw, hraw⟩ (fun x hx => ?_)
  obtain rfl := Except.ok.inj (hraw.symm.trans hx)
  refine Reads.bind ⟨status, hstatus⟩ (fun x hx => ?_)
  obtain rfl := Except.ok.inj (hstatus.symm.trans hx)
  refine Reads.bind ⟨rawStatus, hrawStatus⟩ (fun x hx => ?_)
  obtain rfl := Except.ok.inj (hrawStatus.symm.trans hx)
  refine Reads.bind ⟨fs, hfs⟩ (fun x hx => ?_)
  obtain rfl := Except.ok.inj (hfs.symm.trans hx)
  rw [if_neg, if_neg, if_neg]
  · exact .ok _
  · rintro ⟨hstatus, hne⟩
    exact hne (by rw [hfsNone (passed_rule (hall _ (nth 3 rfl)) (hpassed hstatus))]; rfl)
  · rintro ⟨hstatus, hne⟩
    exact hne (by rw [hfsNone (hdependent _ (nth 1 rfl) (hnone hstatus))]; rfl)
  · rintro ⟨hstatus, hne⟩
    exact hne (hrawNone (hdependent _ (nth 0 rfl) (hnone hstatus)))

theorem reads_attemptStarted (h : Accepted EventSchema.attemptStarted v) :
    ∃ o, v = .obj o ∧ ∀ ptr, Reads (readAttemptStarted o ptr) := by
  obtain ⟨o, rfl, hf⟩ := accepted_fields h
  refine ⟨o, rfl, fun ptr => ?_⟩
  obtain ⟨n, hn, hlow, hhigh⟩ := hf.reads_integer (nth 1 rfl) (nth 1 rfl) (by decide)
  obtain ⟨w, hw, hacc⟩ := hf.has (nth 2 rfl) (nth 2 rfl)
  obtain ⟨test, rfl, htest⟩ := reads_testCase hacc
  have hrequired : required o (txt "test") ptr = .ok (.obj test) := required_of hw (by simp)
  refine Reads.bind ⟨n, hn⟩ (fun n' hn' => ?_)
  obtain rfl := Except.ok.inj (hn.symm.trans hn')
  rw [if_neg (by omega)]
  refine Reads.bind ⟨_, hrequired⟩ (fun raw hraw => ?_)
  obtain rfl := Except.ok.inj (hrequired.symm.trans hraw)
  refine Reads.bind (.ok test) (fun raw hraw => ?_)
  obtain rfl := Except.ok.inj hraw
  refine (hf.reads_identifier (nth 0 rfl) (nth 0 rfl)).bind (fun _ _ => ?_)
  refine (htest _).bind (fun _ _ => ?_)
  exact .ok _

theorem reads_attemptFinished (h : Accepted EventSchema.attemptFinished v) :
    ∃ o, v = .obj o ∧ ∀ ptr, Reads (readAttemptFinished o ptr) := by
  obtain ⟨o, rfl, hf⟩ := accepted_fields h
  refine ⟨o, rfl, fun ptr => ?_⟩
  obtain ⟨expected, hexpected, hwords⟩ := hf.reads_optional_word expectedStatuses
    ExpectedStatus.text ptr (nth 3 rfl)
  obtain ⟨t, ht, hstatus⟩ := hf.reads_word statuses Status.text ptr (nth 1 rfl) (nth 1 rfl)
  refine Reads.bind ⟨_, hexpected⟩ (fun raw hraw => ?_)
  obtain rfl := Except.ok.inj (hexpected.symm.trans hraw)
  refine (hf.reads_identifier (nth 0 rfl) (nth 0 rfl)).bind (fun _ _ => ?_)
  refine Reads.bind ⟨_, hstatus⟩ (fun t' ht' => ?_)
  obtain rfl := Except.ok.inj (hstatus.symm.trans ht')
  refine (reads_oneOf ht).bind (fun _ _ => ?_)
  refine (hf.reads_optional_string (nth 2 rfl) (fun _ => accepted_text)).bind (fun _ _ => ?_)
  refine (Reads.mapM (fun t ht => reads_oneOf (hwords t ht))).bind (fun _ _ => ?_)
  refine (hf.reads_optional_integer (nth 4 rfl) (by decide)).bind (fun _ _ => ?_)
  refine (reads_optional_failures hf (nth 5 rfl)).bind (fun _ _ => ?_)
  exact .ok _

theorem reads_stepStarted (h : Accepted EventSchema.stepStarted v) :
    ∃ o, v = .obj o ∧ ∀ ptr, Reads (readStepStarted o ptr) := by
  obtain ⟨o, rfl, hf⟩ := accepted_fields h
  refine ⟨o, rfl, fun ptr => ?_⟩
  refine (hf.reads_identifier (nth 0 rfl) (nth 0 rfl)).bind (fun _ _ => ?_)
  refine (hf.reads_identifier (nth 1 rfl) (nth 1 rfl)).bind (fun _ _ => ?_)
  refine (hf.reads_string (nth 2 rfl) (nth 3 rfl) (fun _ => accepted_text)).bind (fun _ _ => ?_)
  refine (hf.reads_optional_identifier (nth 2 rfl)).bind (fun _ _ => ?_)
  refine (hf.reads_optional_string (nth 4 rfl) (fun _ => accepted_text)).bind (fun _ _ => ?_)
  refine (hf.reads_optional_object (nth 5 rfl) (fun _ => reads_location)).bind (fun _ _ => ?_)
  exact .ok _

theorem reads_stepFinished (h : Accepted EventSchema.stepFinished v) :
    ∃ o, v = .obj o ∧ ∀ ptr, Reads (readStepFinished o ptr) := by
  obtain ⟨o, rfl, hf⟩ := accepted_fields h
  refine ⟨o, rfl, fun ptr => ?_⟩
  obtain ⟨t, ht, hstatus⟩ := hf.reads_word statuses Status.text ptr (nth 2 rfl) (nth 2 rfl)
  refine (hf.reads_identifier (nth 0 rfl) (nth 0 rfl)).bind (fun _ _ => ?_)
  refine (hf.reads_identifier (nth 1 rfl) (nth 1 rfl)).bind (fun _ _ => ?_)
  refine Reads.bind ⟨_, hstatus⟩ (fun t' ht' => ?_)
  obtain rfl := Except.ok.inj (hstatus.symm.trans ht')
  refine (reads_oneOf ht).bind (fun _ _ => ?_)
  refine (hf.reads_optional_string (nth 3 rfl) (fun _ => accepted_text)).bind (fun _ _ => ?_)
  refine (hf.reads_optional_integer (nth 4 rfl) (by decide)).bind (fun _ _ => ?_)
  refine (reads_optional_failures hf (nth 5 rfl)).bind (fun _ _ => ?_)
  exact .ok _

theorem reads_attachmentAdded (h : Accepted EventSchema.attachmentAdded v) :
    ∃ o, v = .obj o ∧ ∀ ptr, Reads (readAttachmentAdded o ptr) := by
  obtain ⟨o, rfl, hf⟩ := accepted_fields h
  refine ⟨o, rfl, fun ptr => ?_⟩
  obtain ⟨n, hn, -, -⟩ := hf.reads_integer (nth 3 rfl) (nth 4 rfl) (by decide)
  refine (hf.reads_identifier (nth 0 rfl) (nth 0 rfl)).bind (fun _ _ => ?_)
  refine (hf.reads_string (nth 1 rfl) (nth 2 rfl) (fun _ => accepted_text)).bind (fun _ _ => ?_)
  refine (hf.reads_string (nth 2 rfl) (nth 3 rfl) (fun _ => accepted_text)).bind (fun _ _ => ?_)
  refine Reads.bind ⟨n, hn⟩ (fun _ _ => ?_)
  refine (hf.reads_string (nth 4 rfl) (nth 5 rfl) (fun _ => accepted_text)).bind (fun _ _ => ?_)
  refine (hf.reads_optional_identifier (nth 1 rfl)).bind (fun _ _ => ?_)
  exact .ok _

theorem reads_scopeFailed (h : Accepted EventSchema.scopeFailed v) :
    ∃ o, v = .obj o ∧ ∀ ptr, Reads (readScopeFailed o ptr) := by
  obtain ⟨o, rfl, hf⟩ := accepted_fields h
  refine ⟨o, rfl, fun ptr => ?_⟩
  obtain ⟨w, hw, hacc⟩ := hf.has (nth 0 rfl) (nth 0 rfl)
  obtain ⟨path, vs, hpath, rfl, hlength⟩ :=
    reads_pathSegments hacc (nth 2 rfl) (child ptr (txt "path"))
  have hmin : minItems 1 (.arr vs) = true := schema_eq_true.mp hacc.accepts _ (nth 1 rfl)
  have hne : path ≠ [] := by
    have : 1 ≤ vs.length := of_decide_eq_true hmin
    apply List.ne_nil_of_length_pos
    omega
  have hrequired : required o (txt "path") ptr = .ok (.arr vs) := required_of hw (by simp)
  obtain ⟨w, hw, -⟩ := hf.has (nth 1 rfl) (nth 4 rfl)
  refine Reads.bind ⟨_, hrequired⟩ (fun raw hraw => ?_)
  obtain rfl := Except.ok.inj (hrequired.symm.trans hraw)
  refine Reads.bind ⟨path, hpath⟩ (fun path' hpath' => ?_)
  obtain rfl := Except.ok.inj (hpath.symm.trans hpath')
  rw [if_neg hne]
  rcases reads_failures ptr hf (nth 4 rfl) with ⟨hnone, -⟩ | ⟨fs, -, hread, hfs⟩
  · rw [hnone] at hw
    cases hw
  · refine Reads.bind ⟨some fs, hread⟩ (fun x hx => ?_)
    obtain rfl := Except.ok.inj (hread.symm.trans hx)
    cases fs with
    | nil => exact absurd rfl hfs
    | cons f fs =>
        refine (hf.reads_optional_string (nth 1 rfl) (fun _ => accepted_text)).bind (fun _ _ => ?_)
        refine (hf.reads_optional_string (nth 2 rfl) (fun _ => accepted_text)).bind (fun _ _ => ?_)
        refine (hf.reads_optional_object (nth 3 rfl) (fun _ => reads_location)).bind (fun _ _ => ?_)
        exact .ok _

theorem reads_payload {t : EventType} (h : Accepted (EventSchema.payload t) v) :
    ∃ o, v = .obj o ∧ Reads (readPayload t o) := by
  have hmap : ∀ {α : Type} {read : Obj → Text → Read α} (f : α → Payload),
      (∃ o, v = .obj o ∧ ∀ ptr, Reads (read o ptr)) →
      ∃ o, v = .obj o ∧ Reads (f <$> read o (txt "/payload")) :=
    fun f ⟨o, hv, hread⟩ => ⟨o, hv, (hread _).map f⟩
  cases t with
  | sessionStarted => exact hmap .sessionStarted (reads_sessionStarted h)
  | sessionFinished => exact hmap .sessionFinished (reads_sessionFinished h)
  | runFinished =>
      obtain ⟨o, ho⟩ := type_object.mp h.accepts
      exact ⟨o, ho, ⟨Payload.runFinished, rfl⟩⟩
  | attemptStarted => exact hmap .attemptStarted (reads_attemptStarted h)
  | attemptFinished => exact hmap .attemptFinished (reads_attemptFinished h)
  | stepStarted => exact hmap .stepStarted (reads_stepStarted h)
  | stepFinished => exact hmap .stepFinished (reads_stepFinished h)
  | attachmentAdded => exact hmap .attachmentAdded (reads_attachmentAdded h)
  | scopeFailed => exact hmap .scopeFailed (reads_scopeFailed h)

end payloads

/-! ### Events -/

/-- A version of the line is a version the codec supports. -/
theorem readVersion_of_line {t : Text} (h : EventSchema.isLineVersion t = true) :
    readVersion t = .ok () := by
  rw [EventSchema.isLineVersion, Bool.and_eq_true, List.isPrefixOf_iff_prefix] at h
  obtain ⟨⟨patch, rfl⟩, hpatch⟩ := h
  have hdrop : (txt "0.3." ++ patch).drop 4 = patch := rfl
  rw [hdrop] at hpatch
  have hdigits : ∀ u ∈ patch, isDigit u = true := by
    rw [isVersionNumber, isDigits, Bool.and_eq_true, Bool.and_eq_true] at hpatch
    exact List.all_eq_true.mp hpatch.1.2
  have hdot : unit '.' ∉ patch := fun hmem => absurd (hdigits _ hmem) (by decide)
  have hsplit : (txt "0.3." ++ patch).splitOn (unit '.') = [txt "0", txt "3", patch] := by
    have hfirst : txt "0.3." ++ patch = txt "0" ++ unit '.' :: (txt "3" ++ unit '.' :: patch) := rfl
    rw [hfirst, List.splitOn_append_cons_self_of_not_mem (by decide),
      List.splitOn_append_cons_self_of_not_mem (by decide), List.splitOn_eq_singleton hdot]
  have hparse : parseProtocolVersion (txt "0.3." ++ patch) = some ⟨0, 3, readDigits patch⟩ := by
    rw [parseProtocolVersion, hsplit]
    dsimp only
    rw [if_pos (by rw [hpatch]; decide)]
    rfl
  rw [readVersion, hparse]
  rfl

section events
variable {dateTime : Text → Bool} {v : Json}

theorem accepted_pattern {regex : Text → Bool} {ks : List Schema}
    (h : Accepted (schema (type .string :: ks)) v) (hs : pattern regex ∈ ks) :
    ∃ t, v = .str t ∧ regex t = true := by
  obtain ⟨t, rfl⟩ := accepted_text h
  exact ⟨t, rfl, schema_eq_true.mp h.accepts _ (List.mem_cons_of_mem _ hs)⟩

theorem reads_envelope (h : Accepted (EventSchema.envelope dateTime) v) :
    ∃ root, v = .obj root ∧ ∃ envelope t, readEnvelope root = .ok (envelope, t) ∧
      memberOf root (txt "eventType") = some (.str t) := by
  obtain ⟨root, rfl, hf⟩ := accepted_fields h
  refine ⟨root, rfl, ?_⟩
  obtain ⟨w, hversion, hacc⟩ := hf.has (nth 0 rfl) (nth 0 rfl)
  obtain ⟨version, rfl, hline⟩ := accepted_pattern hacc (nth 0 rfl)
  obtain ⟨w, htype, hacc⟩ := hf.has (nth 2 rfl) (nth 2 rfl)
  obtain ⟨t, rfl, ht⟩ := accepted_pattern hacc (nth 2 rfl)
  obtain ⟨w, htime, hacc⟩ := hf.has (nth 6 rfl) (nth 6 rfl)
  obtain ⟨time, rfl, htimestamp⟩ := accepted_pattern hacc (nth 1 rfl)
  obtain ⟨eventId, heventId⟩ : Reads (identifier root (txt "eventId") []) :=
    hf.reads_identifier (nth 1 rfl) (nth 1 rfl)
  obtain ⟨runId, hrunId⟩ : Reads (identifier root (txt "runId") []) :=
    hf.reads_identifier (nth 3 rfl) (nth 3 rfl)
  obtain ⟨sessionId, hsessionId⟩ : Reads (identifier root (txt "sessionId") []) :=
    hf.reads_identifier (nth 4 rfl) (nth 4 rfl)
  obtain ⟨n, hn, hlow, -⟩ : ∃ i, integral root (txt "sequence") [] = .ok i ∧ 1 ≤ i ∧
      i ≤ 9007199254740991 := hf.reads_integer (nth 5 rfl) (nth 5 rfl) (by decide)
  have hsequence : readSequence root = .ok n.toNat := by
    rw [readSequence, hn]
    have hpos : ¬ n < 1 := by omega
    exact if_neg hpos
  obtain ⟨ignorable, hignorable⟩ : Reads (readIgnorable root) := by
    rcases hf.may (nth 7 rfl) with hw | ⟨w, hw, hacc⟩
    · exact ⟨none, readIgnorable_of hw⟩
    · obtain ⟨b, rfl⟩ := type_boolean.mp hacc.accepts
      exact ⟨some b, readIgnorable_of hw⟩
  refine ⟨⟨version, eventId, runId, sessionId, n.toNat, time, ignorable⟩, t, ?_, htype⟩
  rw [readEnvelope, requiredString_of hversion]
  change (readVersion version >>= _) = _
  rw [readVersion_of_line hline, readEventType_back htype ht, heventId, hrunId, hsessionId,
    hsequence, readOccurredAt_of htime htimestamp, hignorable]
  rfl

/-- What the schema of a known type accepts the codec reads as an event of this type. -/
theorem reads_event {t : EventType} {root : Obj}
    (h : Accepted (EventSchema.byType dateTime t) (.obj root))
    (ht : memberOf root (txt "eventType") = some (.str t.text)) :
    ∃ e, eventFromObject (.obj root) = .ok (.known e) ∧ e.payload.eventType = t := by
  have hall := schema_eq_true.mp h.accepts
  have henvelope : Accepted (EventSchema.envelope dateTime) (.obj root) :=
    ⟨h.parsed, hall _ (nth 0 rfl)⟩
  obtain ⟨o, ho, envelope, u, hread, hu⟩ := reads_envelope henvelope
  obtain rfl := Json.obj.inj ho
  obtain rfl : t.text = u := Json.str.inj (Option.some.inj (ht.symm.trans hu))
  have hpayload : ∃ o, memberOf root (txt "payload") = some (.obj o) ∧ Reads (readPayload t o) := by
    obtain ⟨o, ho, hf⟩ := accepted_fields henvelope
    obtain rfl := Json.obj.inj ho
    obtain ⟨w, hw, -⟩ := hf.has (nth 7 rfl) (nth 8 rfl)
    have hbranch := schema_eq_true.mp (hall (EventSchema.branch t) (nth 1 rfl))
    have haccepted : Accepted (EventSchema.payload t) w :=
      ⟨parsed_member h.parsed hw, properties_member (hbranch _ (nth 1 rfl)) (nth 1 rfl) hw⟩
    obtain ⟨o, rfl, hreads⟩ := reads_payload haccepted
    exact ⟨o, hw, hreads⟩
  obtain ⟨o, hw, p, hp⟩ := hpayload
  refine ⟨⟨envelope, p⟩, ?_, (readPayload_readable hp).2⟩
  rw [eventFromObject, hread]
  simp only [bind, Except.bind, hw, knownEventType_text, hp]
  rfl

/-- An event is of the type its object names. -/
theorem knownType_of_text {t : EventType} {root : Obj} {e : AnyEvent}
    (h : eventFromObject (.obj root) = .ok e)
    (ht : memberOf root (txt "eventType") = some (.str t.text)) : e.knownType = some t := by
  obtain ⟨⟨envelope, u⟩, henvelope, h⟩ := bind_eq_ok.mp h
  have hu : u = t.text := by
    obtain ⟨version, -, henvelope⟩ := bind_eq_ok.mp henvelope
    obtain ⟨-, -, henvelope⟩ := bind_eq_ok.mp henvelope
    obtain ⟨u', hu', henvelope⟩ := bind_eq_ok.mp henvelope
    rw [readEventType_of ht] at hu'
    obtain ⟨eventId, -, henvelope⟩ := bind_eq_ok.mp henvelope
    obtain ⟨runId, -, henvelope⟩ := bind_eq_ok.mp henvelope
    obtain ⟨sessionId, -, henvelope⟩ := bind_eq_ok.mp henvelope
    obtain ⟨sequence, -, henvelope⟩ := bind_eq_ok.mp henvelope
    obtain ⟨occurredAt, -, henvelope⟩ := bind_eq_ok.mp henvelope
    obtain ⟨ignorable, -, henvelope⟩ := bind_eq_ok.mp henvelope
    rw [Except.ok.inj hu']
    exact (congrArg Prod.snd (Except.ok.inj henvelope)).symm
  subst hu
  dsimp only at h
  split at h
  · rw [knownEventType_text] at h
    obtain ⟨p, hp, rfl⟩ := map_eq_ok.mp h
    exact congrArg some (readPayload_readable hp).2
  · cases h

end events

/-! ### The two stages of the validator -/

/-- The schema accepts no value of a known type that the codec refuses, so the codec before the
schema refuses no line more. -/
theorem schema_read (dateTime : Text → Bool) (t : EventType) (members : Obj)
    (htype : memberOf members (txt "eventType") = some (.str t.text)) :
    (EventSchema.byType dateTime t (asDoubles (.obj members)) = true →
      ∃ e, eventFromObject (asDoubles (.obj members)) = .ok (.known e) ∧ e.payload.eventType = t) ∧
    ∀ (rt : Runtime) (limit line : ℕ) (file raw : Text), byteLength raw + 1 ≤ limit →
      rt.parse raw = .ok (asDoubles (.obj members)) →
      (∀ u v, rt.validate u v = none ↔ EventSchema.validates dateTime u v = true) →
      ((∃ r, readLine rt limit file line raw = .ok r) ↔
        EventSchema.byType dateTime t (asDoubles (.obj members)) = true) := by
  have hnamed : memberOf (asDoublesMembers members) (txt "eventType") = some (.str t.text) := by
    rw [memberOf_asDoubles, htype]
    rfl
  have hread : EventSchema.byType dateTime t (asDoubles (.obj members)) = true →
      ∃ e, eventFromObject (asDoubles (.obj members)) = .ok (.known e) ∧ e.payload.eventType = t := by
    intro h
    have hparsed := asDoubles_asDoubles (.obj members)
    rw [asDoubles] at hparsed h ⊢
    exact reads_event ⟨hparsed, h⟩ hnamed
  refine ⟨hread, ?_⟩
  intro rt limit line file raw hsize hparse hvalidate
  have hfits : ¬ byteLength raw + 1 > limit := by omega
  rw [readLine, if_neg hfits, hparse]
  dsimp only
  constructor
  · rintro ⟨r, hr⟩
    cases he : eventFromObject (asDoubles (.obj members)) with
    | error err =>
        rw [he] at hr
        cases hr
    | ok e =>
        rw [he] at hr
        dsimp only at hr
        rw [knownType_of_text he hnamed] at hr
        cases hv : rt.validate (some t) (asDoubles (.obj members)) with
        | none => exact (hvalidate _ _).mp hv
        | some errors =>
            rw [hv] at hr
            cases hr
  · intro h
    obtain ⟨e, he, ht⟩ := hread h
    have hknown : (AnyEvent.known e).knownType = some t := congrArg some ht
    rw [he]
    dsimp only
    rw [hknown, (hvalidate (some t) _).mpr h]
    exact ⟨_, rfl⟩

namespace Sample

/-- The parser of JavaScript, and the schema with formats as annotations. -/
def schemaRuntime : Runtime where
  parse t := ((parseJson t).map (fun v => .ok (asDoubles v))).getD (.error [])
  validate known v := if EventSchema.validates (fun _ => true) known v then none else some []
  sha256 := Sha256.digest

/-- The start of an attempt with nested members and fields of its own, its sequence written with a
fraction. -/
def startOfAttempt : Obj := [
  (txt "protocolVersion", .str (txt "0.3.7")),
  (txt "eventId", .str (txt "e1")),
  (txt "eventType", .str (txt "attempt.started")),
  (txt "runId", .str (txt "run")),
  (txt "sessionId", .str (txt "session")),
  (txt "sequence", .num ⟨txt "4.0", by decide⟩),
  (txt "occurredAt", .str (txt "2026-01-01T00:00:00Z")),
  (txt "share", .num ⟨txt "0.5", by decide⟩),
  (txt "payload", .obj [
    (txt "attemptId", .str (txt "a1")),
    (txt "attemptNumber", .num ⟨txt "2", by decide⟩),
    (txt "test", .obj [
      (txt "executionId", .str (txt "t")),
      (txt "historicalId", .str (txt "Adds")),
      (txt "historicalIdStability", .str (txt "stable")),
      (txt "displayName", .str (txt "adds")),
      (txt "path", .arr [.obj [(txt "kind", .str (txt "suite")), (txt "name", .str (txt "Sums"))]]),
      (txt "location", .obj [(txt "file", .str (txt "sums.ts")), (txt "line", .num ⟨txt "3", by decide⟩)]),
      (txt "tags", .arr [.str (txt "slow"), .str (txt "nightly")]),
      (txt "labels", .obj [(txt "owner", .str (txt "core"))])])])]

end Sample

theorem schema_read_startOfAttempt :
    (∃ e, eventFromObject (asDoubles (.obj Sample.startOfAttempt)) = .ok (.known e) ∧
      e.payload.eventType = .attemptStarted) ∧
    ∃ r, readLine Sample.schemaRuntime 1000 (txt "s") 1 (jsonText (.obj Sample.startOfAttempt)) = .ok r := by
  have haccepted : EventSchema.byType (fun _ => true) .attemptStarted
      (asDoubles (.obj Sample.startOfAttempt)) = true := by decide +kernel
  have hparse : Sample.schemaRuntime.parse (jsonText (.obj Sample.startOfAttempt)) =
      .ok (asDoubles (.obj Sample.startOfAttempt)) := by
    have hdef : ∀ t, Sample.schemaRuntime.parse t =
      ((parseJson t).map (fun v => .ok (asDoubles v))).getD (.error []) := fun _ => rfl
    rw [hdef, parseJson_jsonText, Option.map_some, Option.getD_some]
  have hvalidate : ∀ u v, Sample.schemaRuntime.validate u v = none ↔
      EventSchema.validates (fun _ => true) u v = true := by
    intro u v
    dsimp only [Sample.schemaRuntime]
    split_ifs with h
    · simp [h]
    · simp [h]
  obtain ⟨hread, hline⟩ := schema_read (fun _ => true) .attemptStarted Sample.startOfAttempt rfl
  exact ⟨hread haccepted, (hline Sample.schemaRuntime 1000 1 (txt "s") _ (by decide +kernel) hparse
    hvalidate).mpr haccepted⟩

end QeReport

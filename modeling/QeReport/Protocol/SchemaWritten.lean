import QeReport.Protocol.EventSchema
import QeReport.Protocol.RoundTrip

/-! # What the schema accepts of what is written

The schema bounds texts, numbers and lists that the types of a payload leave free.  `Payload.Fits`
states these bounds for a payload, part by part, and the schema accepts a written event that keeps
to them (`accepts_event`). -/

namespace QeReport

open Schema

/-! ### Values -/

/-- A member that may be left out is left out or accepted. -/
def Allows (s : Schema) (v : Option Json) : Prop := ∀ w ∈ v, s w = true

/-- The number of characters of a text is within bounds. -/
def Within (low high : ℕ) (t : Text) : Prop :=
  low ≤ (points t).length ∧ (points t).length ≤ high

instance (low high : ℕ) (t : Text) : Decidable (Within low high t) :=
  inferInstanceAs (Decidable (_ ∧ _))

/-- An integer within the bounds of the schema. -/
def Between (low high i : ℤ) : Prop := low ≤ i ∧ i ≤ high

theorem allows_text {s : Schema} {t : Text} (h : s (.str t) = true) : Allows s (writeText t) := by
  intro w hw
  obtain rfl := Option.some.inj hw
  exact h

theorem allows_optional {α : Type} {s : Schema} {x : Option α} {write : α → Option Json}
    (h : ∀ a ∈ x, Allows s (write a)) : Allows s (x.bind write) := by
  cases x with
  | none => exact nofun
  | some a => exact h a rfl

theorem double_ofInt {i : ℤ} (h : i.natAbs ≤ 9007199254740991) :
    double (JsNumber.ofInt i).value = i := by
  obtain ⟨hplain, hinteger⟩ := JsNumber.plain_ofInt i
  have hlt : |i| < 2 ^ 53 := by
    rw [← Int.natCast_natAbs]
    omega
  rw [JsNumber.value_of_plain hplain, hinteger, double_of_lt hlt]

theorem accepts_integer {low high i : ℤ} (h : Between low high i)
    (hsafe : -9007199254740991 ≤ low ∧ high ≤ 9007199254740991) :
    schema [type .integer, minimum low, maximum high] (.num (.ofInt i)) = true := by
  obtain ⟨hlow, hhigh⟩ := h
  have hdouble : double (JsNumber.ofInt i).value = i := double_ofInt (by omega)
  have htype : type .integer (.num (.ofInt i)) = true := by
    simp [type, hdouble]
  have hmin : minimum low (.num (.ofInt i)) = true := by
    simpa [minimum, hdouble] using hlow
  have hmax : maximum high (.num (.ofInt i)) = true := by
    simpa [maximum, hdouble] using hhigh
  simp [htype, hmin, hmax]

theorem allows_integer {low high : ℤ} {i : ℤ} (h : Between low high i)
    (hsafe : -9007199254740991 ≤ low ∧ high ≤ 9007199254740991) :
    Allows (schema [type .integer, minimum low, maximum high]) (writeInt i) := by
  intro w hw
  obtain rfl := Option.some.inj hw
  exact accepts_integer h hsafe

theorem accepts_within {low high : ℕ} {t : Text} (h : Within low high t) :
    schema [type .string, minLength low, maxLength high] (.str t) = true := by
  simp [type, minLength, maxLength, h.1, h.2]

theorem accepts_upTo {high : ℕ} {t : Text} (h : Within 0 high t) :
    schema [type .string, maxLength high] (.str t) = true := by
  simp [type, maxLength, h.2]

theorem accepts_word {values : List Text} {t : Text} (h : t ∈ values) :
    schema [type .string, enum values] (.str t) = true := by
  simp [type, enum, h]

/-- An identifier the schema accepts. -/
def IdentifierFits (t : Text) : Prop := isIdentifier t = true ∧ t.length ≤ 128

theorem points_length_le (t : Text) : (points t).length ≤ t.length := by
  induction t using points.induct with
  | case1 => exact le_rfl
  | case2 u => exact le_rfl
  | case3 u v t h ih =>
      rw [points, if_pos h, List.length_cons, List.length_cons, List.length_cons]
      omega
  | case4 u v t h ih =>
      rw [points, if_neg h, List.length_cons, List.length_cons]
      omega

theorem points_pos {t : Text} (h : t ≠ []) : 1 ≤ (points t).length := by
  cases t with
  | nil => exact absurd rfl h
  | cons u t =>
      cases t with
      | nil => exact le_rfl
      | cons v t =>
          rw [points]
          split_ifs
          · rw [List.length_cons]
            omega
          · rw [List.length_cons]
            omega

theorem accepts_identifier {t : Text} (h : IdentifierFits t) :
    EventSchema.identifier (.str t) = true := by
  obtain ⟨hidentifier, hlength⟩ := h
  have hne : t ≠ [] := by
    rintro rfl
    cases hidentifier
  have hlow := points_pos hne
  have hhigh := (points_length_le t).trans hlength
  simp [EventSchema.identifier, type, minLength, maxLength, pattern, hlow, hhigh, hidentifier]

/-! ### Objects and arrays -/

/-- An object is accepted when it has its required members and every member is accepted. -/
theorem accepts_object {ms : List (Text × Option Json)} {names : List Text}
    {ps : List (Text × Schema)} (hnodup : (ms.map Prod.fst).Nodup)
    (hnames : names.all (fun k => (field ms k).isSome) = true)
    (hps : ∀ p ∈ ps, Allows p.2 (field ms p.1)) {more : List Schema}
    (hmore : ∀ s ∈ more, s (.obj (omitUndefined ms)) = true) :
    schema (type .object :: Schema.required names :: properties ps :: more)
      (.obj (omitUndefined ms)) = true := by
  have hmember := memberOf_omitUndefined ms hnodup
  have hrequired : Schema.required names (.obj (omitUndefined ms)) = true := by
    refine List.all_eq_true.mpr (fun k hk => ?_)
    rw [hmember]
    exact List.all_eq_true.mp hnames k hk
  have hproperties : properties ps (.obj (omitUndefined ms)) = true := by
    refine List.all_eq_true.mpr (fun p hp => ?_)
    rw [hmember]
    cases hf : field ms p.1 with
    | none => rfl
    | some w => exact hps p hp w hf
  refine schema_eq_true.mpr (List.forall_mem_cons.mpr ⟨rfl, ?_⟩)
  exact List.forall_mem_cons.mpr ⟨hrequired, List.forall_mem_cons.mpr ⟨hproperties, hmore⟩⟩

/-- An object without required members. -/
theorem accepts_object_optional {ms : List (Text × Option Json)} {ps : List (Text × Schema)}
    (hnodup : (ms.map Prod.fst).Nodup) (hps : ∀ p ∈ ps, Allows p.2 (field ms p.1))
    {more : List Schema} (hmore : ∀ s ∈ more, s (.obj (omitUndefined ms)) = true) :
    schema (type .object :: properties ps :: more) (.obj (omitUndefined ms)) = true := by
  have hall := schema_eq_true.mp
    (@accepts_object ms [] ps hnodup rfl hps more hmore)
  refine schema_eq_true.mpr (List.forall_mem_cons.mpr ⟨rfl, fun s hs => hall s ?_⟩)
  rcases List.mem_cons.mp hs with rfl | hs
  · simp
  · simp [hs]

/-! ### Parts -/

structure Location.Fits (l : Location) : Prop where
  file : Within 1 1024 l.file
  line : ∀ i ∈ l.line, Between 1 9007199254740991 i
  column : ∀ i ∈ l.column, Between 1 9007199254740991 i

structure Failure.Fits (f : Failure) : Prop where
  message : Within 0 65536 f.message
  type : ∀ t ∈ f.type, Within 0 512 t
  stackTrace : ∀ t ∈ f.stackTrace, Within 0 262144 t
  location : ∀ l ∈ f.location, l.Fits

/-- Failures that may be left out. -/
structure FailuresFit (fs : List Failure) : Prop where
  length : fs.length ≤ 32
  each : ∀ f ∈ fs, f.Fits

structure Component.Fits (c : Component) : Prop where
  name : Within 1 512 c.name
  version : ∀ t ∈ c.version, Within 0 128 t

structure RecordFits (r : Record) : Prop where
  length : r.length ≤ 64
  each : ∀ m ∈ r, Within 1 64 m.1 ∧ Within 0 1024 m.2

structure TagsFit (tags : List Text) : Prop where
  length : tags.length ≤ 64
  each : ∀ t ∈ tags, Within 1 128 t

structure PathSegment.Fits (s : PathSegment) : Prop where
  kind : Within 1 32 s.kind ∧ EventSchema.isKind s.kind = true
  name : Within 0 1024 s.name

structure PathFits (path : List PathSegment) : Prop where
  length : path.length ≤ 32
  each : ∀ s ∈ path, s.Fits

/-- The native word of a status. -/
def RawStatusFits (t : Text) : Prop := Within 0 64 t ∧ EventSchema.isOneLine t = true

structure TestCase.Fits (t : TestCase) : Prop where
  executionId : IdentifierFits t.executionId
  historicalId : ∀ h ∈ t.historicalId, Within 1 512 h
  stability : t.historicalIdStability = .unavailable ↔ t.historicalId = none
  displayName : Within 1 1024 t.displayName
  path : PathFits t.path
  location : ∀ l ∈ t.location, l.Fits
  tags : ∀ l ∈ t.tags, TagsFit l
  labels : ∀ r ∈ t.labels, RecordFits r

structure Executor.Fits (x : Executor) : Prop where
  name : ∀ t ∈ x.name, Within 1 512 t
  buildId : ∀ t ∈ x.buildId, Within 1 512 t
  buildUrl : ∀ t ∈ x.buildUrl, Within 0 2048 t

structure Source.Fits (x : Source) : Prop where
  repository : ∀ t ∈ x.repository, Within 0 2048 t
  revision : ∀ t ∈ x.revision, Within 1 512 t
  branch : ∀ t ∈ x.branch, Within 1 512 t

theorem allows_within {low high : ℕ} {t : Text} (h : Within low high t) :
    Allows (schema [type .string, minLength low, maxLength high]) (writeText t) :=
  allows_text (accepts_within h)

theorem allows_upTo {high : ℕ} {t : Text} (h : Within 0 high t) :
    Allows (schema [type .string, maxLength high]) (writeText t) :=
  allows_text (accepts_upTo h)

theorem allows_identifier {t : Text} (h : IdentifierFits t) :
    Allows EventSchema.identifier (writeText t) := allows_text (accepts_identifier h)

theorem allows_location {l : Location} (h : l.Fits) :
    Allows EventSchema.location (writeLocation l) := by
  intro w hw
  obtain rfl := Option.some.inj hw
  refine accepts_object (by simp only [List.map]; decide) rfl ?_ (by simp)
  refine List.forall_mem_cons.mpr ⟨allows_within h.file, List.forall_mem_cons.mpr ⟨?_, ?_⟩⟩
  · exact allows_optional (fun i hi => allows_integer (h.line i hi) (by decide))
  · refine List.forall_mem_cons.mpr ⟨?_, nofun⟩
    exact allows_optional (fun i hi => allows_integer (h.column i hi) (by decide))

theorem accepts_failure {f : Failure} (h : f.Fits) :
    EventSchema.failure (writeFailure f) = true := by
  refine accepts_object (by simp only [List.map]; decide) rfl ?_ (by simp)
  refine List.forall_mem_cons.mpr ⟨allows_upTo h.message, List.forall_mem_cons.mpr ⟨?_, ?_⟩⟩
  · exact allows_optional (fun t ht => allows_upTo (h.type t ht))
  · refine List.forall_mem_cons.mpr ⟨?_, List.forall_mem_cons.mpr ⟨?_, ?_⟩⟩
    · exact allows_optional (fun t ht => allows_upTo (h.stackTrace t ht))
    · refine allows_optional (fun phase _ => allows_text (accepts_word ?_))
      cases phase <;> decide
    · refine List.forall_mem_cons.mpr ⟨?_, nofun⟩
      exact allows_optional (fun l hl => allows_location (h.location l hl))

theorem accepts_items {α : Type} {s : Schema} {write : α → Json} {l : List α} {n : ℕ}
    (h : ∀ a ∈ l, s (write a) = true) (hlength : l.length ≤ n) :
    items s (.arr (l.map write)) = true ∧ maxItems n (.arr (l.map write)) = true := by
  constructor
  · refine List.all_eq_true.mpr (fun w hw => ?_)
    obtain ⟨a, ha, rfl⟩ := List.mem_map.mp hw
    exact h a ha
  · simpa [maxItems] using hlength

theorem allows_failures {fs : List Failure} (h : FailuresFit fs) :
    Allows EventSchema.failures (writeFailures fs) := by
  cases fs with
  | nil => exact nofun
  | cons f fs =>
      intro w hw
      obtain rfl := Option.some.inj hw
      obtain ⟨hitems, hmax⟩ :=
        accepts_items (fun f hf => accepts_failure (h.each f hf)) h.length
      refine schema_eq_true.mpr ?_
      simp only [List.forall_mem_cons]
      exact ⟨rfl, by simp [minItems], hmax, hitems, nofun⟩

theorem allows_component {c : Component} (h : c.Fits) :
    Allows EventSchema.component (writeComponent c) := by
  intro w hw
  obtain rfl := Option.some.inj hw
  refine accepts_object (by simp only [List.map]; decide) rfl ?_ (by simp)
  refine List.forall_mem_cons.mpr ⟨allows_within h.name, List.forall_mem_cons.mpr ⟨?_, nofun⟩⟩
  exact allows_optional (fun t ht => allows_upTo (h.version t ht))

theorem allows_record {r : Record} (h : RecordFits r) :
    Allows EventSchema.stringMap (writeRecord r) := by
  cases r with
  | nil => exact nofun
  | cons m r =>
      intro w hw
      obtain rfl := Option.some.inj hw
      refine schema_eq_true.mpr ?_
      simp only [List.forall_mem_cons]
      refine ⟨rfl, ?_, ?_, ?_, nofun⟩
      · simpa [maxProperties] using h.length
      · refine List.all_eq_true.mpr (fun x hx => ?_)
        obtain ⟨m', hm', rfl⟩ := List.mem_map.mp hx
        obtain ⟨hlow, hhigh⟩ := (h.each m' hm').1
        simp [minLength, maxLength, hlow, hhigh]
      · refine List.all_eq_true.mpr (fun x hx => ?_)
        obtain ⟨m', hm', rfl⟩ := List.mem_map.mp hx
        exact accepts_upTo (h.each m' hm').2

theorem allows_tags {tags : List Text} (h : TagsFit tags) :
    Allows EventSchema.tags (writeTags tags) := by
  cases tags with
  | nil => exact nofun
  | cons t tags =>
      intro w hw
      obtain rfl := Option.some.inj hw
      obtain ⟨hitems, hmax⟩ := accepts_items (fun t ht => accepts_within (h.each t ht)) h.length
      refine schema_eq_true.mpr ?_
      simp only [List.forall_mem_cons]
      exact ⟨rfl, hmax, hitems, nofun⟩

theorem accepts_pathSegment {x : PathSegment} (h : x.Fits) :
    EventSchema.pathSegment (.obj [(txt "kind", .str x.kind), (txt "name", .str x.name)]) = true := by
  have hobj : [(txt "kind", Json.str x.kind), (txt "name", .str x.name)] =
      omitUndefined [(txt "kind", writeText x.kind), (txt "name", writeText x.name)] := rfl
  rw [hobj]
  refine accepts_object (by simp only [List.map]; decide) rfl ?_ (by simp)
  refine List.forall_mem_cons.mpr ⟨allows_text ?_,
    List.forall_mem_cons.mpr ⟨allows_upTo h.name, nofun⟩⟩
  simp [type, minLength, maxLength, pattern, h.kind.1.1, h.kind.1.2, h.kind.2]

theorem allows_rawStatus {t : Text} (h : RawStatusFits t) :
    Allows EventSchema.rawStatus (writeText t) := by
  refine allows_text ?_
  simp [EventSchema.rawStatus, type, maxLength, pattern, h.1.2, h.2]

theorem allows_executor {x : Executor} (h : x.Fits) :
    Allows (schema [type .object, properties [(txt "name", EventSchema.shortText),
      (txt "buildId", EventSchema.shortText),
      (txt "buildUrl", schema [type .string, maxLength 2048])]]) (writeExecutor x) := by
  intro w hw
  obtain rfl := Option.some.inj hw
  refine accepts_object_optional (by simp only [List.map]; decide) ?_ (by simp)
  refine List.forall_mem_cons.mpr ⟨?_, List.forall_mem_cons.mpr ⟨?_,
    List.forall_mem_cons.mpr ⟨?_, nofun⟩⟩⟩
  · exact allows_optional (fun t ht => allows_within (h.name t ht))
  · exact allows_optional (fun t ht => allows_within (h.buildId t ht))
  · exact allows_optional (fun t ht => allows_upTo (h.buildUrl t ht))

theorem allows_source {x : Source} (h : x.Fits) :
    Allows (schema [type .object, properties [
      (txt "repository", schema [type .string, maxLength 2048]),
      (txt "revision", EventSchema.shortText), (txt "branch", EventSchema.shortText)]])
      (writeSource x) := by
  intro w hw
  obtain rfl := Option.some.inj hw
  refine accepts_object_optional (by simp only [List.map]; decide) ?_ (by simp)
  refine List.forall_mem_cons.mpr ⟨?_, List.forall_mem_cons.mpr ⟨?_,
    List.forall_mem_cons.mpr ⟨?_, nofun⟩⟩⟩
  · exact allows_optional (fun t ht => allows_upTo (h.repository t ht))
  · exact allows_optional (fun t ht => allows_within (h.revision t ht))
  · exact allows_optional (fun t ht => allows_within (h.branch t ht))

/-- The identity is there exactly when it is available. -/
theorem accepts_historicalId {ms : List (Text × Option Json)} (hnodup : (ms.map Prod.fst).Nodup)
    {stability : HistoricalIdStability} {historicalId : Option Text}
    (hs : field ms (txt "historicalIdStability") = writeText stability.text)
    (hh : field ms (txt "historicalId") = historicalId.bind writeText)
    (h : stability = .unavailable ↔ historicalId = none) :
    ifThenElse (properties [(txt "historicalIdStability", const (txt "unavailable"))])
      (properties [(txt "historicalId", never)]) (Schema.required [txt "historicalId"])
      (.obj (omitUndefined ms)) = true := by
  have hmember := memberOf_omitUndefined ms hnodup
  unfold ifThenElse
  cases historicalId with
  | none =>
      obtain rfl := h.mpr rfl
      have hif : properties [(txt "historicalIdStability", const (txt "unavailable"))]
          (.obj (omitUndefined ms)) = true := by
        simp only [properties, List.all_cons, List.all_nil, hmember, hs]
        rfl
      rw [if_pos hif]
      simp only [properties, List.all_cons, List.all_nil, hmember, hh]
      rfl
  | some t =>
      have hif : ¬ properties [(txt "historicalIdStability", const (txt "unavailable"))]
          (.obj (omitUndefined ms)) = true := by
        simp only [properties, List.all_cons, List.all_nil, hmember, hs]
        cases stability with
        | stable => decide
        | uncertain => decide
        | unavailable => exact absurd (h.mp rfl) (by simp)
      rw [if_neg hif]
      simp only [Schema.required, List.all_cons, List.all_nil, hmember, hh]
      rfl

theorem allows_path {path : List PathSegment} (h : PathFits path) :
    Allows (schema [type .array, maxItems 32, items EventSchema.pathSegment]) (writePath path) := by
  intro w hw
  obtain rfl := Option.some.inj hw
  obtain ⟨hitems, hmax⟩ := accepts_items (fun x hx => accepts_pathSegment (h.each x hx)) h.length
  refine schema_eq_true.mpr ?_
  simp only [List.forall_mem_cons]
  exact ⟨rfl, hmax, hitems, nofun⟩

theorem allows_test {t : TestCase} (h : t.Fits) : Allows EventSchema.testCase (writeTest t) := by
  intro w hw
  obtain rfl := Option.some.inj hw
  have hnodup : ([(txt "executionId", writeText t.executionId),
      (txt "historicalId", t.historicalId.bind writeText),
      (txt "historicalIdStability", writeText t.historicalIdStability.text),
      (txt "displayName", writeText t.displayName), (txt "path", writePath t.path),
      (txt "location", t.location.bind writeLocation), (txt "tags", t.tags.bind writeTags),
      (txt "labels", t.labels.bind writeRecord)].map Prod.fst).Nodup := by
    simp only [List.map]
    decide
  refine accepts_object hnodup rfl ?_ (List.forall_mem_cons.mpr ⟨?_, nofun⟩)
  · simp only [List.forall_mem_cons]
    refine ⟨allows_identifier h.executionId, ?_, ?_, allows_within h.displayName,
      allows_path h.path, ?_, ?_, ?_, nofun⟩
    · exact allows_optional (fun t ht => allows_within (h.historicalId t ht))
    · refine allows_text (accepts_word ?_)
      cases t.historicalIdStability <;> decide
    · exact allows_optional (fun l hl => allows_location (h.location l hl))
    · exact allows_optional (fun l hl => allows_tags (h.tags l hl))
    · exact allows_optional (fun r hr => allows_record (h.labels r hr))
  · exact accepts_historicalId hnodup rfl rfl h.stability

/-! ### Payloads -/

structure SessionStartedPayload.Fits (p : SessionStartedPayload) : Prop where
  producer : p.producer.Fits
  runner : ∀ c ∈ p.runner, c.Fits
  environment : ∀ r ∈ p.environment, RecordFits r
  executor : ∀ x ∈ p.executor, x.Fits
  source : ∀ x ∈ p.source, x.Fits
  labels : ∀ r ∈ p.labels, RecordFits r

/-- The rules between the fields of an outcome among its bounds. -/
structure SessionFinishedPayload.Fits (p : SessionFinishedPayload) : Prop where
  rawStatus : ∀ t ∈ p.rawStatus, RawStatusFits t
  failures : ∀ fs ∈ p.failures, FailuresFit fs
  status : p.status = none → p.rawStatus = none ∧ p.failures.getD [] = []
  passed : p.status = some .passed → p.failures.getD [] = []

structure AttemptStartedPayload.Fits (p : AttemptStartedPayload) : Prop where
  attemptId : IdentifierFits p.attemptId
  attemptNumber : Between 1 1000 p.attemptNumber
  test : p.test.Fits

structure AttemptFinishedPayload.Fits (p : AttemptFinishedPayload) : Prop where
  attemptId : IdentifierFits p.attemptId
  rawStatus : ∀ t ∈ p.rawStatus, RawStatusFits t
  durationMs : ∀ i ∈ p.durationMs, Between 0 9007199254740991 i
  failures : ∀ fs ∈ p.failures, FailuresFit fs

structure StepStartedPayload.Fits (p : StepStartedPayload) : Prop where
  stepId : IdentifierFits p.stepId
  attemptId : IdentifierFits p.attemptId
  parentStepId : ∀ t ∈ p.parentStepId, IdentifierFits t
  name : Within 1 1024 p.name
  kind : ∀ t ∈ p.kind, Within 1 64 t
  location : ∀ l ∈ p.location, l.Fits

structure StepFinishedPayload.Fits (p : StepFinishedPayload) : Prop where
  stepId : IdentifierFits p.stepId
  attemptId : IdentifierFits p.attemptId
  rawStatus : ∀ t ∈ p.rawStatus, RawStatusFits t
  durationMs : ∀ i ∈ p.durationMs, Between 0 9007199254740991 i
  failures : ∀ fs ∈ p.failures, FailuresFit fs

structure AttachmentAddedPayload.Fits (p : AttachmentAddedPayload) : Prop where
  attemptId : IdentifierFits p.attemptId
  stepId : ∀ t ∈ p.stepId, IdentifierFits t
  name : Within 1 512 p.name
  mediaType : Within 0 255 p.mediaType ∧ EventSchema.isMediaType p.mediaType = true
  sizeBytes : Between 0 9007199254740991 p.sizeBytes
  sha256 : EventSchema.isSha256 p.sha256 = true

structure ScopeFailedPayload.Fits (p : ScopeFailedPayload) : Prop where
  path : PathFits p.path
  scope : p.path ≠ []
  displayName : ∀ t ∈ p.displayName, Within 1 1024 t
  rawStatus : ∀ t ∈ p.rawStatus, RawStatusFits t
  location : ∀ l ∈ p.location, l.Fits
  failures : FailuresFit p.failures
  failed : p.failures ≠ []

/-- A payload within the bounds of the schema. -/
def Payload.Fits : Payload → Prop
  | .sessionStarted p => p.Fits
  | .sessionFinished p => p.Fits
  | .runFinished => True
  | .attemptStarted p => p.Fits
  | .attemptFinished p => p.Fits
  | .stepStarted p => p.Fits
  | .stepFinished p => p.Fits
  | .attachmentAdded p => p.Fits
  | .scopeFailed p => p.Fits

theorem allows_optional_location {x : Option Location} (h : ∀ l ∈ x, l.Fits) :
    Allows EventSchema.location (x.bind writeLocation) :=
  allows_optional (fun l hl => allows_location (h l hl))

theorem allows_optional_failures {x : Option (List Failure)} (h : ∀ fs ∈ x, FailuresFit fs) :
    Allows EventSchema.failures (x.bind writeFailures) :=
  allows_optional (fun fs hfs => allows_failures (h fs hfs))

theorem allows_optional_rawStatus {x : Option Text} (h : ∀ t ∈ x, RawStatusFits t) :
    Allows EventSchema.rawStatus (x.bind writeText) :=
  allows_optional (fun t ht => allows_rawStatus (h t ht))

theorem allows_optional_identifier {x : Option Text} (h : ∀ t ∈ x, IdentifierFits t) :
    Allows EventSchema.identifier (x.bind writeText) :=
  allows_optional (fun t ht => allows_identifier (h t ht))

theorem allows_optional_record {x : Option Record} (h : ∀ r ∈ x, RecordFits r) :
    Allows EventSchema.stringMap (x.bind writeRecord) :=
  allows_optional (fun r hr => allows_record (h r hr))

theorem allows_optional_integer {x : Option ℤ} {low high : ℤ} (h : ∀ i ∈ x, Between low high i)
    (hsafe : -9007199254740991 ≤ low ∧ high ≤ 9007199254740991) :
    Allows (schema [type .integer, minimum low, maximum high]) (x.bind writeInt) :=
  allows_optional (fun i hi => allows_integer (h i hi) hsafe)

theorem allows_status (status : Status) : Allows EventSchema.status (writeText status.text) := by
  refine allows_text (accepts_word ?_)
  cases status <;> decide

theorem accepts_sessionStarted {p : SessionStartedPayload} (h : p.Fits) :
    EventSchema.sessionStarted (.obj (writePayload (.sessionStarted p))) = true := by
  refine accepts_object (by simp only [List.map]; decide) rfl ?_ (by simp)
  simp only [List.forall_mem_cons]
  refine ⟨allows_component h.producer, ?_, allows_optional_record h.environment, ?_, ?_,
    allows_optional_record h.labels, nofun⟩
  · exact allows_optional (fun c hc => allows_component (h.runner c hc))
  · exact allows_optional (fun x hx => allows_executor (h.executor x hx))
  · exact allows_optional (fun x hx => allows_source (h.source x hx))

theorem accepts_attemptStarted {p : AttemptStartedPayload} (h : p.Fits) :
    EventSchema.attemptStarted (.obj (writePayload (.attemptStarted p))) = true := by
  refine accepts_object (by simp only [List.map]; decide) rfl ?_ (by simp)
  simp only [List.forall_mem_cons]
  exact ⟨allows_identifier h.attemptId, allows_integer h.attemptNumber (by decide),
    allows_test h.test, nofun⟩

theorem accepts_attemptFinished {p : AttemptFinishedPayload} (h : p.Fits) :
    EventSchema.attemptFinished (.obj (writePayload (.attemptFinished p))) = true := by
  refine accepts_object (by simp only [List.map]; decide) rfl ?_ (by simp)
  simp only [List.forall_mem_cons]
  refine ⟨allows_identifier h.attemptId, allows_status p.status,
    allows_optional_rawStatus h.rawStatus, ?_, allows_optional_integer h.durationMs (by decide),
    allows_optional_failures h.failures, nofun⟩
  refine allows_optional (fun expected _ => allows_text (accepts_word ?_))
  cases expected <;> decide

theorem accepts_stepStarted {p : StepStartedPayload} (h : p.Fits) :
    EventSchema.stepStarted (.obj (writePayload (.stepStarted p))) = true := by
  refine accepts_object (by simp only [List.map]; decide) rfl ?_ (by simp)
  simp only [List.forall_mem_cons]
  refine ⟨allows_identifier h.stepId, allows_identifier h.attemptId,
    allows_optional_identifier h.parentStepId, allows_within h.name, ?_,
    allows_optional_location h.location, nofun⟩
  exact allows_optional (fun t ht => allows_within (h.kind t ht))

theorem accepts_stepFinished {p : StepFinishedPayload} (h : p.Fits) :
    EventSchema.stepFinished (.obj (writePayload (.stepFinished p))) = true := by
  refine accepts_object (by simp only [List.map]; decide) rfl ?_ (by simp)
  simp only [List.forall_mem_cons]
  exact ⟨allows_identifier h.stepId, allows_identifier h.attemptId, allows_status p.status,
    allows_optional_rawStatus h.rawStatus, allows_optional_integer h.durationMs (by decide),
    allows_optional_failures h.failures, nofun⟩

theorem accepts_attachmentAdded {p : AttachmentAddedPayload} (h : p.Fits) :
    EventSchema.attachmentAdded (.obj (writePayload (.attachmentAdded p))) = true := by
  refine accepts_object (by simp only [List.map]; decide) rfl ?_ (by simp)
  simp only [List.forall_mem_cons]
  refine ⟨allows_identifier h.attemptId, allows_optional_identifier h.stepId, allows_within h.name,
    allows_text ?_, allows_integer h.sizeBytes (by decide), allows_text ?_, nofun⟩
  · simp [type, maxLength, pattern, h.mediaType.1.2, h.mediaType.2]
  · simp [type, pattern, h.sha256]

theorem accepts_scopeFailed {p : ScopeFailedPayload} (h : p.Fits) :
    EventSchema.scopeFailed (.obj (writePayload (.scopeFailed p))) = true := by
  have hfailures : (writeFailures p.failures).isSome = true := by
    cases hf : p.failures with
    | nil => exact absurd hf h.failed
    | cons f fs => rfl
  refine accepts_object (by simp only [List.map]; decide) ?_ ?_ (by simp)
  · rw [List.all_cons, List.all_cons, List.all_nil, Bool.and_true, Bool.and_eq_true]
    exact ⟨rfl, hfailures⟩
  · simp only [List.forall_mem_cons]
    refine ⟨?_, ?_, allows_optional_rawStatus h.rawStatus, allows_optional_location h.location,
      allows_failures h.failures, nofun⟩
    · intro w hw
      have hall := schema_eq_true.mp (allows_path h.path w hw)
      obtain rfl := Option.some.inj hw
      refine schema_eq_true.mpr ?_
      simp only [List.forall_mem_cons]
      refine ⟨rfl, ?_, hall _ (by simp), hall _ (by simp), nofun⟩
      have hpos := List.length_pos_of_ne_nil h.scope
      simp only [minItems, List.length_map, decide_eq_true_eq]
      omega
    · exact allows_optional (fun t ht => allows_within (h.displayName t ht))

/-- The rules between the fields of an outcome. -/
theorem accepts_outcome {o : List (Text × Json)} {status : Option SessionStatus}
    {rawStatus failures : Option Json}
    (hstatus : memberOf o (txt "status") = status.bind (fun s => writeText s.text))
    (hrawStatus : memberOf o (txt "rawStatus") = rawStatus)
    (hfailures : memberOf o (txt "failures") = failures)
    (hnone : status = none → rawStatus = none ∧ failures = none)
    (hpassed : status = some .passed → failures = none) :
    dependentRequired [(txt "rawStatus", [txt "status"]), (txt "failures", [txt "status"])] (.obj o) =
      true ∧
    ifThen (schema [properties [(txt "status", const (txt "passed"))], Schema.required [txt "status"]])
      (Schema.not (Schema.required [txt "failures"])) (.obj o) = true := by
  cases status with
  | none =>
      obtain ⟨rfl, rfl⟩ := hnone rfl
      rw [Option.bind_none] at hstatus
      simp [dependentRequired, ifThen, schema, Schema.required, hstatus, hrawStatus, hfailures]
  | some s =>
      rw [Option.bind_some, writeText] at hstatus
      constructor
      · simp [dependentRequired, hstatus]
      · cases s with
        | passed =>
            rw [hpassed rfl] at hfailures
            simp [ifThen, Schema.not, Schema.required, hfailures]
        | failed =>
            have hword : txt "failed" ≠ txt "passed" := by decide
            simp [ifThen, schema, properties, const, enum, hstatus, SessionStatus.text, hword]
        | inconclusive =>
            have hword : txt "inconclusive" ≠ txt "passed" := by decide
            simp [ifThen, schema, properties, const, enum, hstatus, SessionStatus.text, hword]

theorem accepts_sessionFinished {p : SessionFinishedPayload} (h : p.Fits) :
    EventSchema.sessionFinished (.obj (writePayload (.sessionFinished p))) = true := by
  have hnodup : ([(txt "status", p.status.bind (fun s => writeText s.text)),
      (txt "rawStatus", p.rawStatus.bind writeText),
      (txt "failures", p.failures.bind writeFailures)].map Prod.fst).Nodup := by
    simp only [List.map]
    decide
  have hmember := memberOf_omitUndefined _ hnodup
  have hfailures : p.failures.getD [] = [] → p.failures.bind writeFailures = none := by
    intro hnil
    rcases hp : p.failures with _ | _ | ⟨f, fs⟩
    · rfl
    · rfl
    · rw [hp] at hnil
      cases hnil
  obtain ⟨hdependent, hifThen⟩ := accepts_outcome ((hmember _).trans rfl) ((hmember _).trans rfl)
    ((hmember _).trans rfl)
    (fun hs => ⟨by rw [(h.status hs).1]; rfl, hfailures (h.status hs).2⟩)
    (fun hs => hfailures (h.passed hs))
  refine accepts_object_optional hnodup ?_ ?_
  · simp only [List.forall_mem_cons]
    refine ⟨?_, allows_optional_rawStatus h.rawStatus, allows_optional_failures h.failures, nofun⟩
    refine allows_optional (fun status _ => allows_text (accepts_word ?_))
    cases status <;> decide
  · simp only [List.forall_mem_cons]
    exact ⟨hdependent, hifThen, nofun⟩

/-- A payload within its bounds is accepted. -/
theorem accepts_payload {p : Payload} (h : p.Fits) :
    EventSchema.payload p.eventType (.obj (writePayload p)) = true := by
  cases p with
  | sessionStarted p => exact accepts_sessionStarted h
  | sessionFinished p => exact accepts_sessionFinished h
  | runFinished => rfl
  | attemptStarted p => exact accepts_attemptStarted h
  | attemptFinished p => exact accepts_attemptFinished h
  | stepStarted p => exact accepts_stepStarted h
  | stepFinished p => exact accepts_stepFinished h
  | attachmentAdded p => exact accepts_attachmentAdded h
  | scopeFailed p => exact accepts_scopeFailed h

/-! ### Events -/

/-- An envelope within the bounds of the schema. -/
structure Envelope.Fits (dateTime : Text → Bool) (e : Envelope) : Prop where
  version : EventSchema.isLineVersion e.protocolVersion = true
  eventId : IdentifierFits e.eventId
  runId : IdentifierFits e.runId
  sessionId : IdentifierFits e.sessionId
  sequence : Between 1 9007199254740991 e.sequence
  occurredAt : isTimestamp e.occurredAt = true ∧ dateTime e.occurredAt = true

/-- An event within the bounds of the schema is accepted. -/
theorem accepts_event {dateTime : Text → Bool} {e : Event} (he : e.toEnvelope.Fits dateTime)
    (hp : e.payload.Fits) :
    EventSchema.byType dateTime e.payload.eventType (eventToObject (.known e)) = true := by
  have hnodup : ([(txt "protocolVersion", writeText e.protocolVersion),
      (txt "eventId", writeText e.eventId), (txt "eventType", writeText e.payload.eventType.text),
      (txt "runId", writeText e.runId), (txt "sessionId", writeText e.sessionId),
      (txt "sequence", writeInt e.sequence), (txt "occurredAt", writeText e.occurredAt),
      (txt "ignorable", e.ignorable.map .bool),
      (txt "payload", some (.obj (writePayload e.payload)))].map Prod.fst).Nodup := by
    simp only [List.map]
    decide
  have htype : ∀ t : EventType, schema [type .string, minLength 1, maxLength 64,
      pattern isEventTypeName] (.str t.text) = true := by
    intro t
    cases t <;> decide
  have hconst : ∀ t : EventType, const t.text (.str t.text) = true := fun t => by
    simp [const, enum]
  refine schema_eq_true.mpr ?_
  simp only [List.forall_mem_cons]
  refine ⟨?_, ?_, List.forall_mem_nil _⟩
  · refine accepts_object hnodup rfl ?_ (by simp)
    simp only [List.forall_mem_cons]
    refine ⟨allows_text ?_, allows_identifier he.eventId, allows_text (htype _),
      allows_identifier he.runId, allows_identifier he.sessionId,
      allows_integer he.sequence (by decide), allows_text ?_, ?_, ?_, List.forall_mem_nil _⟩
    · simp [type, pattern, he.version]
    · simp [EventSchema.timestamp, type, format, pattern, he.occurredAt.1, he.occurredAt.2]
    · intro w hw
      obtain ⟨b, -, rfl⟩ := Option.map_eq_some_iff.mp (show e.ignorable.map Json.bool = some w from hw)
      rfl
    · intro w hw
      obtain rfl := Option.some.inj hw
      rfl
  · refine accepts_object_optional hnodup ?_ (by simp)
    simp only [List.forall_mem_cons]
    refine ⟨allows_text (hconst _), ?_, List.forall_mem_nil _⟩
    intro w hw
    obtain rfl := Option.some.inj hw
    exact accepts_payload hp

end QeReport

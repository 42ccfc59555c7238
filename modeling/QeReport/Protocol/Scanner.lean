import QeReport.Lib.Scan
import QeReport.Protocol.RoundTrip

/-! # What both codecs read

The two codecs read an event alike except for its integers, and for the numbers of its protocol
version: `scanPayload` and `scanEnvelope` read everything else and leave the integers open, each a
question for the number that stands there (`IntField`).  The codec of the TypeScript binding is
the scan with the integers `JSON.parse` makes of the lexemes, the codec of the Java binding the
same scan with the integers Jackson makes of them. -/

namespace QeReport

/-! ### Integers -/

/-- What is asked of an integer beyond its being one. -/
inductive IntRange where
  | any | positive | attempt
deriving DecidableEq

def IntRange.admits : IntRange → ℤ → Bool
  | .any, _ => true
  | .positive, i => 1 ≤ i
  | .attempt, i => 1 ≤ i && i ≤ 1000

/-- A number that stands where an integer is read. -/
structure IntField where
  number : JsNumber
  range : IntRange
deriving DecidableEq

/-- The integers a binding makes of the numbers of a text, within their ranges. -/
def answers (int : JsNumber → Option ℤ) (q : IntField) : Option ℤ :=
  (int q.number).filter q.range.admits

/-! ### The scans -/

abbrev Scanner (α : Type) := Scan IntField ℤ α

section values
variable {α : Type}

def text? : Json → Option Text
  | .str s => some s
  | _ => none

def identifier? (v : Json) : Option Text := (text? v).filter isIdentifier

/-- One of the words of an enumeration. -/
def word? (values : List α) (text : α → Text) (v : Json) : Option α :=
  (text? v).bind (fun s => values.find? (fun a => text a = s))

/-- A required member. -/
def req? (o : Obj) (field : Text) (read : Json → Option α) : Option α :=
  (present o field).bind read

/-- An optional member. -/
def opt? (o : Obj) (field : Text) (read : Json → Option α) : Option (Option α) :=
  match present o field with
  | none => some none
  | some v => (read v).map some

def scanInt (range : IntRange) : Json → Scanner ℤ
  | .num n => .ask ⟨n, range⟩
  | _ => .fail

def scanObject (scan : Obj → Scanner α) : Json → Scanner α
  | .obj o => scan o
  | _ => .fail

def scanItems (scan : Json → Scanner α) : Json → Scanner (List α)
  | .arr items => .list scan items
  | _ => .fail

def texts? : Json → Option (List Text)
  | .arr items => items.mapM text?
  | _ => none

def record? : Json → Option Record
  | .obj members => members.mapM (fun m => (text? m.2).map (fun s => (m.1, s)))
  | _ => none

variable (o : Obj) (field : Text)

def req (scan : Json → Scanner α) : Scanner α :=
  match present o field with
  | none => .fail
  | some v => scan v

def opt (scan : Json → Scanner α) : Scanner (Option α) :=
  match present o field with
  | none => pure none
  | some v => some <$> scan v

/-- The member is an array with items in it. -/
def hasItems : Bool :=
  match present o field with
  | some (.arr (_ :: _)) => true
  | _ => false

end values

section scans
variable (o : Obj)

def component? : Option Component :=
  Component.mk <$> req? o (txt "name") text? <*> opt? o (txt "version") text?

def executor? : Option Executor :=
  Executor.mk <$> opt? o (txt "name") text? <*> opt? o (txt "buildId") text? <*>
    opt? o (txt "buildUrl") text?

def source? : Option Source :=
  Source.mk <$> opt? o (txt "repository") text? <*> opt? o (txt "revision") text? <*>
    opt? o (txt "branch") text?

def scanLocation : Scanner Location :=
  Location.mk <$> .lift (req? o (txt "file") text?) <*> opt o (txt "line") (scanInt .any) <*>
    opt o (txt "column") (scanInt .any)

def scanFailure : Scanner Failure :=
  Failure.mk <$> .lift (req? o (txt "message") text?) <*> .lift (opt? o (txt "type") text?) <*>
    .lift (opt? o (txt "stackTrace") text?) <*>
    .lift (opt? o (txt "phase") (word? failurePhases FailurePhase.text)) <*>
    opt o (txt "location") (scanObject scanLocation)

/-- The failures of a payload; an absent list is the empty one. -/
def scanFailures : Scanner (List Failure) :=
  (fun fs => fs.getD []) <$> opt o (txt "failures") (scanItems (scanObject scanFailure))

def segment? : Option PathSegment :=
  PathSegment.mk <$> req? o (txt "kind") text? <*> req? o (txt "name") text?

def object? {α : Type} (read : Obj → Option α) : Json → Option α
  | .obj o => read o
  | _ => none

def path? : Json → Option (List PathSegment)
  | .arr items => items.mapM (object? segment?)
  | _ => none

/-- A historical id stands there exactly when its stability is not `unavailable`. -/
def identity? : Option (HistoricalIdStability × Option Text) := do
  let stability ← req? o (txt "historicalIdStability")
    (word? historicalIdStabilities HistoricalIdStability.text)
  let historicalId ← opt? o (txt "historicalId") text?
  if (stability == .unavailable) == historicalId.isNone then some (stability, historicalId)
  else none

def scanTest : Scanner TestCase :=
  (fun identity executionId displayName path location tags labels =>
    ⟨executionId, identity.2, identity.1, displayName, path, location, nonEmpty tags,
      nonEmpty labels⟩) <$>
    .lift (identity? o) <*> .lift (req? o (txt "executionId") identifier?) <*>
    .lift (req? o (txt "displayName") text?) <*> .lift (req? o (txt "path") path?) <*>
    opt o (txt "location") (scanObject scanLocation) <*>
    .lift (opt? o (txt "tags") texts?) <*> .lift (opt? o (txt "labels") record?)

/-- Status and raw status of an outcome that breaks none of the rules. -/
def outcome? : Option (Option SessionStatus × Option Text) := do
  let status ← opt? o (txt "status") (word? sessionStatuses SessionStatus.text)
  let rawStatus ← opt? o (txt "rawStatus") text?
  if status = none ∧ (rawStatus ≠ none ∨ hasItems o (txt "failures") = true) then none
  else if status = some .passed ∧ hasItems o (txt "failures") = true then none
  else some (status, rawStatus)

/-- The payload of a known event, its empty collections left out. -/
def scanPayload : EventType → Scanner Payload
  | .sessionStarted =>
      (fun producer runner environment executor source labels => .sessionStarted
        ⟨producer, runner, nonEmpty environment, executor, source, nonEmpty labels⟩) <$>
        .lift (req? o (txt "producer") (object? component?)) <*>
        .lift (opt? o (txt "runner") (object? component?)) <*>
        .lift (opt? o (txt "environment") record?) <*>
        .lift (opt? o (txt "executor") (object? executor?)) <*>
        .lift (opt? o (txt "source") (object? source?)) <*> .lift (opt? o (txt "labels") record?)
  | .sessionFinished =>
      (fun outcome fs => .sessionFinished ⟨outcome.1, outcome.2, nonEmpty (some fs)⟩) <$>
        .lift (outcome? o) <*> scanFailures o
  | .runFinished => pure .runFinished
  | .attemptStarted =>
      (fun number attemptId test => .attemptStarted ⟨attemptId, number.toNat, test⟩) <$>
        req o (txt "attemptNumber") (scanInt .attempt) <*>
        .lift (req? o (txt "attemptId") identifier?) <*> req o (txt "test") (scanObject scanTest)
  | .attemptFinished =>
      (fun attemptId status rawStatus expectedStatus durationMs fs => .attemptFinished
        ⟨attemptId, status, rawStatus, expectedStatus, durationMs, nonEmpty (some fs)⟩) <$>
        .lift (req? o (txt "attemptId") identifier?) <*>
        .lift (req? o (txt "status") (word? statuses Status.text)) <*>
        .lift (opt? o (txt "rawStatus") text?) <*>
        .lift (opt? o (txt "expectedStatus") (word? expectedStatuses ExpectedStatus.text)) <*>
        opt o (txt "durationMs") (scanInt .any) <*> scanFailures o
  | .stepStarted =>
      (fun stepId attemptId parentStepId name kind location => .stepStarted
        ⟨stepId, attemptId, parentStepId, name, kind, location⟩) <$>
        .lift (req? o (txt "stepId") identifier?) <*>
        .lift (req? o (txt "attemptId") identifier?) <*>
        .lift (opt? o (txt "parentStepId") identifier?) <*>
        .lift (req? o (txt "name") text?) <*> .lift (opt? o (txt "kind") text?) <*>
        opt o (txt "location") (scanObject scanLocation)
  | .stepFinished =>
      (fun stepId attemptId status rawStatus durationMs fs => .stepFinished
        ⟨stepId, attemptId, status, rawStatus, durationMs, nonEmpty (some fs)⟩) <$>
        .lift (req? o (txt "stepId") identifier?) <*>
        .lift (req? o (txt "attemptId") identifier?) <*>
        .lift (req? o (txt "status") (word? statuses Status.text)) <*>
        .lift (opt? o (txt "rawStatus") text?) <*> opt o (txt "durationMs") (scanInt .any) <*>
        scanFailures o
  | .attachmentAdded =>
      (fun attemptId stepId name mediaType sizeBytes sha256 => .attachmentAdded
        ⟨attemptId, stepId, name, mediaType, sizeBytes, sha256⟩) <$>
        .lift (req? o (txt "attemptId") identifier?) <*>
        .lift (opt? o (txt "stepId") identifier?) <*> .lift (req? o (txt "name") text?) <*>
        .lift (req? o (txt "mediaType") text?) <*> req o (txt "sizeBytes") (scanInt .any) <*>
        .lift (req? o (txt "sha256") text?)
  | .scopeFailed =>
      if hasItems o (txt "path") && hasItems o (txt "failures") then
        (fun path displayName rawStatus location fs => .scopeFailed
          ⟨path, displayName, rawStatus, location, fs⟩) <$>
          .lift (req? o (txt "path") path?) <*> .lift (opt? o (txt "displayName") text?) <*>
          .lift (opt? o (txt "rawStatus") text?) <*>
          opt o (txt "location") (scanObject scanLocation) <*> scanFailures o
      else .fail

def ignorable? : Option (Option Bool) :=
  opt? o (txt "ignorable") (fun v => match v with | .bool b => some b | _ => none)

/-- The envelope and the event type, without the support of the version. -/
def scanEnvelope : Scanner (Envelope × Text) :=
  (fun protocolVersion eventType eventId runId sessionId sequence occurredAt ignorable =>
    (⟨protocolVersion, eventId, runId, sessionId, sequence.toNat, occurredAt, ignorable⟩,
      eventType)) <$>
    .lift (req? o (txt "protocolVersion") text?) <*>
    .lift ((req? o (txt "eventType") text?).filter isEventTypeName) <*>
    .lift (req? o (txt "eventId") identifier?) <*> .lift (req? o (txt "runId") identifier?) <*>
    .lift (req? o (txt "sessionId") identifier?) <*>
    req o (txt "sequence") (scanInt .positive) <*>
    .lift ((req? o (txt "occurredAt") text?).filter isTimestamp) <*> .lift (ignorable? o)

end scans

/-! ### Reads as options -/

section toOption
variable {α β : Type}

theorem toOption_bind (x : Read α) (f : α → Read β) :
    (x >>= f).toOption = x.toOption.bind (fun a => (f a).toOption) := by
  cases x <;> rfl

theorem toOption_map (f : α → β) (x : Read α) : (f <$> x).toOption = x.toOption.map f := by
  cases x <;> rfl

theorem toOption_pure (a : α) : (pure a : Read α).toOption = some a := rfl

theorem toOption_ok (a : α) : (Except.ok a : Read α).toOption = some a := rfl

theorem toOption_invalid (pointer message : Text) :
    (invalid pointer message : Read α).toOption = none := rfl

theorem toOption_ite (c : Prop) [Decidable c] (x y : Read α) :
    (if c then x else y).toOption = if c then x.toOption else y.toOption := by
  split_ifs <;> rfl

theorem toOption_mapM (f : α → Read β) (l : List α) :
    (l.mapM f).toOption = l.mapM (fun a => (f a).toOption) := by
  induction l with
  | nil => rfl
  | cons a l ih =>
      rw [List.mapM_cons, List.mapM_cons, toOption_bind]
      congr 1
      funext b
      rw [toOption_bind, ih]
      rfl

/-- Items read one by one, whatever their index. -/
theorem toOption_mapItems {read : Json → Text → Read α} {read? : Json → Option α} {g : Json → Json}
    (h : ∀ v ptr, (read (g v) ptr).toOption = read? v) (at_ : Text) (items : List Json) :
    (mapItems read at_ (items.map g)).toOption = items.mapM read? := by
  have hall : ∀ n, (((items.map g).zipIdx n).mapM
      (fun (v, i) => read v (child at_ (natText i)))).toOption = items.mapM read? := by
    induction items with
    | nil => exact fun _ => rfl
    | cons v items ih =>
        intro n
        rw [List.map_cons, List.zipIdx_cons, List.mapM_cons, List.mapM_cons, toOption_bind, h]
        congr 1
        funext a
        rw [toOption_bind, ih]
        rfl
  exact hall 0

theorem toOption_optionMapM (f : β → Read α) (x : Option β) :
    (x.mapM f).toOption = x.mapM (fun b => (f b).toOption) := by
  cases x with
  | none => rfl
  | some b =>
      change (some <$> f b).toOption = _
      rw [toOption_map]
      rfl

end toOption

/-! ### Scans under answers -/

/-- The empty collections of a test left out. -/
def TestCase.normal (t : TestCase) : TestCase :=
  { t with tags := nonEmpty t.tags, labels := nonEmpty t.labels }

section answered
variable {α : Type} {o : Obj} {field : Text} {int : JsNumber → Option ℤ}

theorem seq_none {β : Type} (f : Option (α → β)) : f <*> none = none := by
  cases f <;> rfl

theorem filter_admits {range : IntRange} {i : ℤ} (h : range.admits i = true) :
    (some i).filter range.admits = some i := by
  simp [Option.filter, h]

theorem filter_admits_neg {range : IntRange} {i : ℤ} (h : range.admits i = false) :
    (some i).filter range.admits = none := by
  simp [Option.filter, h]

/-- The range of an integer is asked after the integer is read. -/
theorem req_scanInt (range : IntRange) : (req o field (scanInt range)).run (answers int) =
    ((req o field (scanInt .any)).run (answers int)).filter range.admits := by
  unfold req
  cases present o field with
  | none => rfl
  | some v =>
      cases v with
      | num n =>
          simp only [scanInt, Scan.run_ask, answers, Option.filter_filter,
            show ∀ i, IntRange.any.admits i = true from fun _ => rfl, Bool.true_and]
      | _ => rfl

/-- A text that is checked after it is read. -/
theorem bind_check (x : Option Text) (p : Text → Bool) (pointer message : Text) :
    (x.bind fun s => (if p s then .ok s else invalid pointer message : Read Text).toOption) =
      x.filter p := by
  cases x with
  | none => rfl
  | some s =>
      cases h : p s with
      | false => simp [Option.filter, h, toOption_invalid]
      | true => simp [Option.filter, h, toOption_ok]

/-- A sequence number is at least one. -/
theorem bind_positive (x : Option ℤ) (pointer message : Text) :
    (x.bind fun i => (if i < 1 then invalid pointer message else .ok i.toNat : Read ℕ).toOption) =
      (x.filter IntRange.positive.admits).map Int.toNat := by
  cases x with
  | none => rfl
  | some i =>
      rw [Option.bind_some, toOption_ite]
      by_cases hi : i < 1
      · have hout : IntRange.positive.admits i = false := by simp [IntRange.admits, hi]
        rw [if_pos hi, filter_admits_neg hout]
        rfl
      · have hin : IntRange.positive.admits i = true := by simpa [IntRange.admits] using hi
        rw [if_neg hi, filter_admits hin]
        rfl

theorem mapM_eq_nil {β : Type} {f : β → Option α} {bs : List β} {as : List α}
    (h : bs.mapM f = some as) : as = [] ↔ bs = [] := by
  cases bs with
  | nil =>
      cases h
      simp
  | cons b bs =>
      rw [List.mapM_cons] at h
      obtain ⟨a, -, h⟩ := Option.bind_eq_some_iff.mp h
      obtain ⟨rest, -, h⟩ := Option.bind_eq_some_iff.mp h
      cases h
      simp

/-- There are failures exactly when the array has items. -/
theorem scanFailures_nil {fs : List Failure} (int : JsNumber → Option ℤ)
    (h : (scanFailures o).run (answers int) = some fs) :
    fs = [] ↔ hasItems o (txt "failures") = false := by
  unfold scanFailures opt at h
  unfold hasItems
  rw [Scan.run_map] at h
  cases hp : present o (txt "failures") with
  | none =>
      rw [hp, Scan.run_pure] at h
      cases h
      simp
  | some v =>
      rw [hp] at h
      dsimp only at h
      rw [Scan.run_map, Option.map_map] at h
      obtain ⟨l, hl, rfl⟩ := Option.map_eq_some_iff.mp h
      cases v with
      | arr items =>
          rw [scanItems, Scan.run_list] at hl
          change l = [] ↔ _
          rw [mapM_eq_nil hl]
          cases items <;> simp
      | _ => cases hl

theorem req?_path_nil {path : List PathSegment} (h : req? o field path? = some path) :
    path = [] ↔ hasItems o field = false := by
  unfold req? at h
  unfold hasItems
  obtain ⟨v, hv, h⟩ := Option.bind_eq_some_iff.mp h
  rw [hv]
  cases v with
  | arr items =>
      rw [mapM_eq_nil h]
      cases items <;> simp
  | _ => cases h

/-- A required word of an enumeration. -/
theorem req?_word (values : List α) (text : α → Text) :
    (req? o field text?).bind (fun raw => values.find? (fun a => text a = raw)) =
      req? o field (word? values text) := by
  unfold req? word?
  rw [Option.bind_assoc]

/-- An optional word of an enumeration. -/
theorem opt?_word (values : List α) (text : α → Text) :
    (opt? o field text?).bind (fun raw => raw.mapM (fun raw => values.find? (fun a => text a = raw))) =
      opt? o field (word? values text) := by
  unfold opt? word?
  cases present o field with
  | none => rfl
  | some v =>
      dsimp only
      cases text? v with
      | none => rfl
      | some raw =>
          simp only [Option.map_some, Option.bind_some]
          change Option.map _ _ = _
          rfl

end answered

/-! ### The code of an error -/

/-- Every failure is one of the schema. -/
def SchemaOnly {α : Type} (r : Read α) : Prop := ∀ e, r = .error e → e.code = .schemaInvalid

namespace SchemaOnly
variable {α β : Type}

theorem ok (a : α) : SchemaOnly (.ok a) := nofun

theorem invalid (pointer message : Text) : SchemaOnly (invalid pointer message : Read α) := by
  intro e h
  rw [← Except.error.inj h]

theorem bind {x : Read α} {f : α → Read β} (hx : SchemaOnly x) (hf : ∀ a, SchemaOnly (f a)) :
    SchemaOnly (x >>= f) := by
  cases x with
  | error e' =>
      intro e h
      exact hx e (congrArg Except.error (Except.error.inj h))
  | ok a => exact hf a

theorem map {x : Read α} (f : α → β) (hx : SchemaOnly x) : SchemaOnly (f <$> x) := by
  cases x with
  | error e' =>
      intro e h
      exact hx e (congrArg Except.error (Except.error.inj h))
  | ok a => exact ok (f a)

theorem ite {c : Prop} [Decidable c] {x y : Read α} (hx : SchemaOnly x) (hy : SchemaOnly y) :
    SchemaOnly (if c then x else y) := by
  split_ifs
  · exact hx
  · exact hy

theorem mapM {f : α → Read β} (h : ∀ a, SchemaOnly (f a)) (l : List α) :
    SchemaOnly (l.mapM f) := by
  induction l with
  | nil => exact ok []
  | cons a l ih =>
      rw [List.mapM_cons]
      exact (h a).bind (fun b => ih.bind (fun bs => ok _))

theorem mapItems {read : Json → Text → Read α} (h : ∀ v ptr, SchemaOnly (read v ptr)) (at_ : Text)
    (items : List Json) : SchemaOnly (mapItems read at_ items) :=
  mapM (fun _ => h _ _) _

theorem optionMapM {f : α → Read β} (h : ∀ a, SchemaOnly (f a)) (x : Option α) :
    SchemaOnly (x.mapM f) := by
  cases x with
  | none => exact ok none
  | some a => exact map some (h a)

end SchemaOnly

end QeReport

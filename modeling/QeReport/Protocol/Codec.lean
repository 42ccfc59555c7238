import QeReport.Lib.JsonReading
import QeReport.Protocol.Model

/-! # Reading events

`eventFromObject` reads a parsed JSON value as an event: required fields, JSON types,
enumerations and the protocol version, in the order in which the codec checks them, each failure
with its code, message and JSON pointer.  Lengths and formats are the schema's business.

The main fact is `eventFromObject_envelope`: session id, run id and sequence of the event are
the members of these names, so that two values with one canonical text are read as events of one
session, one sequence and one run (`envelope_of_canonText`). -/

namespace QeReport

inductive ProtocolErrorCode where
  | malformedJson | schemaInvalid | unsupportedProtocolVersion | unsupportedEventType
deriving DecidableEq

/-- Why a JSON value could not be read as an event. -/
structure ProtocolError where
  code : ProtocolErrorCode
  message : Text
  pointer : Option Text

/-- An object of the parsed value. -/
abbrev Obj := List (Text × Json)

abbrev Read (α : Type) := Except ProtocolError α

def invalid {α : Type} (pointer message : Text) : Read α :=
  .error ⟨.schemaInvalid, pointer ++ txt ": " ++ message, some pointer⟩

/-- `${at}/${field}`. -/
def child (at_ field : Text) : Text := at_ ++ unit '/' :: field

/-- A producer-supplied value quoted for a diagnostic, cut at 64 units. -/
def shown (value : Text) : Text :=
  if value.length > 64 then quote (value.take 64) ++ txt "..." else quote value

/-! ### The patterns -/

/-- `/^[\x21-\x7E]+$/`. -/
def isIdentifier (t : Text) : Bool := !t.isEmpty && t.all (fun u => 0x21 ≤ u && u ≤ 0x7E)

def isLower (u : CodeUnit) : Bool := unit 'a' ≤ u && u ≤ unit 'z'

def isAlphaNumeric (u : CodeUnit) : Bool :=
  isLower u || (unit 'A' ≤ u && u ≤ unit 'Z') || isDigit u

/-- `[a-z][a-zA-Z0-9]*`. -/
def isWord : Text → Bool
  | [] => false
  | u :: t => isLower u && t.all isAlphaNumeric

/-- `/^[a-z][a-zA-Z0-9]*(\.[a-z][a-zA-Z0-9]*)+$/`. -/
def isEventTypeName (t : Text) : Bool :=
  let words := t.splitOn (unit '.')
  2 ≤ words.length && words.all isWord

def eatDigits : ℕ → Text → Option Text
  | 0, t => some t
  | _ + 1, [] => none
  | n + 1, u :: t => if isDigit u then eatDigits n t else none

def eatChar (c : Char) : Text → Option Text
  | [] => none
  | u :: t => if u == unit c then some t else none

/-- `(\.[0-9]{1,9})?`. -/
def eatFraction (t : Text) : Option Text :=
  match eatChar '.' t with
  | none => some t
  | some t =>
      let n := (t.takeWhile isDigit).length
      if 1 ≤ n ∧ n ≤ 9 then some (t.drop n) else none

/-- `(Z|[+-][0-9]{2}:[0-9]{2})`. -/
def eatZone (t : Text) : Option Text :=
  match eatChar 'Z' t with
  | some t => some t
  | none => do
      let t ← (eatChar '+' t).or (eatChar '-' t)
      eatDigits 2 (← eatChar ':' (← eatDigits 2 t))

/-- The timestamp pattern of the codec. -/
def isTimestamp (t : Text) : Bool :=
  let rest : Option Text := do
    let t ← eatChar '-' (← eatDigits 4 t)
    let t ← eatChar '-' (← eatDigits 2 t)
    let t ← eatChar 'T' (← eatDigits 2 t)
    let t ← eatChar ':' (← eatDigits 2 t)
    let t ← eatChar ':' (← eatDigits 2 t)
    let t ← eatFraction (← eatDigits 2 t)
    eatZone t
  rest = some []

structure ParsedVersion where
  major : ℕ
  minor : ℕ
  patch : ℕ
deriving DecidableEq

/-- `(0|[1-9][0-9]*)`. -/
def isVersionNumber (t : Text) : Bool := isDigits t && (t.length == 1 || t.head? != some (unit '0'))

/-- `major.minor.patch`. -/
def parseProtocolVersion (version : Text) : Option ParsedVersion :=
  match version.splitOn (unit '.') with
  | [major, minor, patch] =>
      if isVersionNumber major && isVersionNumber minor && isVersionNumber patch then
        some ⟨readDigits major, readDigits minor, readDigits patch⟩
      else none
  | _ => none

/-- A consumer of line 0.3 reads any 0.3.x and nothing else. -/
def isSupportedProtocolVersion (v : ParsedVersion) : Bool := v.major == 0 && v.minor == 3

/-! ### Fields -/

section fields
variable (o : Obj) (field at_ : Text)

/-- `o[field]`, with `undefined` and `null` identified. -/
def present : Option Json :=
  match memberOf o field with
  | none => none
  | some .null => none
  | some v => some v

def required : Read Json :=
  match present o field with
  | none => invalid at_ (txt "missing required property " ++ field)
  | some v => .ok v

def asString (at_ : Text) : Json → Read Text
  | .str s => .ok s
  | _ => invalid at_ (txt "must be a string")

def requiredString : Read Text := do
  asString (child at_ field) (← required o field at_)

def optionalString : Read (Option Text) :=
  match present o field with
  | none => .ok none
  | some v => some <$> asString (child at_ field) v

def checkIdentifier (at_ s : Text) : Read Text :=
  if isIdentifier s then .ok s else invalid at_ (txt "must be printable ASCII without spaces")

def identifier : Read Text := do
  checkIdentifier (child at_ field) (← requiredString o field at_)

def optionalIdentifier : Read (Option Text) := do
  match ← optionalString o field at_ with
  | none => .ok none
  | some s => some <$> checkIdentifier (child at_ field) s

def asInteger (at_ : Text) : Json → Read ℤ
  | .num n =>
      match n.safeInteger? with
      | some i => .ok i
      | none => invalid at_ (txt "must be an integer")
  | _ => invalid at_ (txt "must be an integer")

def integral : Read ℤ := do
  asInteger (child at_ field) (← required o field at_)

def optionalIntegral : Read (Option ℤ) :=
  match present o field with
  | none => .ok none
  | some v => some <$> asInteger (child at_ field) v

/-- `oneOf`: the word among the allowed ones. -/
def oneOf {α : Type} (value : Text) (allowed : List α) (text : α → Text) (at_ : Text) : Read α :=
  match allowed.find? (fun a => text a = value) with
  | some a => .ok a
  | none => invalid at_ (txt "unknown value " ++ shown value)

/-- `v.map((item, i) => ...)` with a reader that may fail. -/
def mapItems {α : Type} (read : Json → Text → Read α) (at_ : Text) (items : List Json) :
    Read (List α) :=
  items.zipIdx.mapM (fun (v, i) => read v (child at_ (natText i)))

def stringMap : Read (Option Record) :=
  match present o field with
  | none => .ok none
  | some (.obj members) =>
      some <$> members.mapM (fun (k, v) =>
        (fun s => (k, s)) <$> asString (child (child at_ field) k) v)
  | some _ => invalid (child at_ field) (txt "must be an object of strings")

def stringList : Read (Option (List Text)) :=
  match present o field with
  | none => .ok none
  | some (.arr items) => some <$> mapItems (fun v ptr => asString ptr v) (child at_ field) items
  | some _ => invalid (child at_ field) (txt "must be an array of strings")

def asObject (at_ : Text) : Json → Read Obj
  | .obj members => .ok members
  | _ => invalid at_ (txt "must be an object")

def optionalObject {α : Type} (read : Obj → Text → Read α) : Read (Option α) :=
  match present o field with
  | none => .ok none
  | some v => do
      some <$> read (← asObject (child at_ field) v) (child at_ field)

end fields

/-! ### Parts of payloads -/

section parts
variable (o : Obj) (at_ : Text)

def component : Read Component := do
  let name ← requiredString o (txt "name") at_
  let version ← optionalString o (txt "version") at_
  return ⟨name, version⟩

def executor : Read Executor := do
  let name ← optionalString o (txt "name") at_
  let buildId ← optionalString o (txt "buildId") at_
  let buildUrl ← optionalString o (txt "buildUrl") at_
  return ⟨name, buildId, buildUrl⟩

def source : Read Source := do
  let repository ← optionalString o (txt "repository") at_
  let revision ← optionalString o (txt "revision") at_
  let branch ← optionalString o (txt "branch") at_
  return ⟨repository, revision, branch⟩

def location : Read Location := do
  let file ← requiredString o (txt "file") at_
  let line ← optionalIntegral o (txt "line") at_
  let column ← optionalIntegral o (txt "column") at_
  return ⟨file, line, column⟩

def failure (f : Json) (fAt : Text) : Read Failure := do
  let f ← asObject fAt f
  let phaseRaw ← optionalString f (txt "phase") fAt
  let message ← requiredString f (txt "message") fAt
  let type ← optionalString f (txt "type") fAt
  let stackTrace ← optionalString f (txt "stackTrace") fAt
  let phase ← phaseRaw.mapM (fun raw =>
    oneOf raw failurePhases FailurePhase.text (child fAt (txt "phase")))
  let location ← optionalObject f (txt "location") fAt location
  return ⟨message, type, stackTrace, phase, location⟩

def failures : Read (Option (List Failure)) :=
  match present o (txt "failures") with
  | none => .ok none
  | some (.arr items) => some <$> mapItems failure (child at_ (txt "failures")) items
  | some _ => invalid (child at_ (txt "failures")) (txt "must be an array")

def pathSegment (seg : Json) (segAt : Text) : Read PathSegment := do
  let seg ← asObject segAt seg
  let kind ← requiredString seg (txt "kind") segAt
  let name ← requiredString seg (txt "name") segAt
  return ⟨kind, name⟩

def pathSegments (raw : Json) (at_ : Text) : Read (List PathSegment) :=
  match raw with
  | .arr items => mapItems pathSegment at_ items
  | _ => invalid at_ (txt "must be an array")

def testCase : Read TestCase := do
  let stability ← oneOf (← requiredString o (txt "historicalIdStability") at_)
    historicalIdStabilities HistoricalIdStability.text (child at_ (txt "historicalIdStability"))
  let historicalId ← optionalString o (txt "historicalId") at_
  if stability = .unavailable ∧ historicalId.isSome then
    invalid (child at_ (txt "historicalId"))
      (txt "must be absent when historicalIdStability is unavailable")
  else if stability ≠ .unavailable ∧ historicalId.isNone then
    invalid at_ (txt "historicalId is required unless historicalIdStability is unavailable")
  else do
    let path ← pathSegments (← required o (txt "path") at_) (child at_ (txt "path"))
    let executionId ← identifier o (txt "executionId") at_
    let displayName ← requiredString o (txt "displayName") at_
    let location ← optionalObject o (txt "location") at_ location
    let tags ← stringList o (txt "tags") at_
    let labels ← stringMap o (txt "labels") at_
    return ⟨executionId, historicalId, stability, displayName, path, location, tags, labels⟩

end parts

/-! ### Payloads -/

section payloads
variable (p : Obj) (at_ : Text)

def readSessionStarted : Read SessionStartedPayload := do
  let producerRaw ← required p (txt "producer") at_
  let producerRaw ← asObject (child at_ (txt "producer")) producerRaw
  let producer ← component producerRaw (child at_ (txt "producer"))
  let runner ← optionalObject p (txt "runner") at_ component
  let environment ← stringMap p (txt "environment") at_
  let executor ← optionalObject p (txt "executor") at_ executor
  let source ← optionalObject p (txt "source") at_ source
  let labels ← stringMap p (txt "labels") at_
  return ⟨producer, runner, environment, executor, source, labels⟩

def readSessionStatus (raw : Text) : Read SessionStatus :=
  match sessionStatuses.find? (fun s => s.text = raw) with
  | some s => .ok s
  | none => invalid (child at_ (txt "status")) (txt "must be passed, failed, or inconclusive")

def readSessionFinished : Read SessionFinishedPayload := do
  let status ← (← optionalString p (txt "status") at_).mapM (readSessionStatus at_)
  let rawStatus ← optionalString p (txt "rawStatus") at_
  let fs := (← failures p at_).getD []
  if status = none ∧ rawStatus ≠ none then invalid at_ (txt "rawStatus requires status")
  else if status = none ∧ fs ≠ [] then invalid at_ (txt "failures require status")
  else if status = some .passed ∧ fs ≠ [] then
    invalid at_ (txt "a passed session carries no failures")
  else return ⟨status, rawStatus, if fs = [] then none else some fs⟩

def readAttemptStarted : Read AttemptStartedPayload := do
  let n ← integral p (txt "attemptNumber") at_
  if n < 1 ∨ n > 1000 then
    invalid (child at_ (txt "attemptNumber")) (txt "must be between 1 and 1000")
  else do
    let testRaw ← required p (txt "test") at_
    let testRaw ← asObject (child at_ (txt "test")) testRaw
    let attemptId ← identifier p (txt "attemptId") at_
    let test ← testCase testRaw (child at_ (txt "test"))
    return ⟨attemptId, n.toNat, test⟩

def readAttemptFinished : Read AttemptFinishedPayload := do
  let expectedRaw ← optionalString p (txt "expectedStatus") at_
  let attemptId ← identifier p (txt "attemptId") at_
  let status ← oneOf (← requiredString p (txt "status") at_) statuses Status.text
    (child at_ (txt "status"))
  let rawStatus ← optionalString p (txt "rawStatus") at_
  let expectedStatus ← expectedRaw.mapM (fun raw =>
    oneOf raw expectedStatuses ExpectedStatus.text (child at_ (txt "expectedStatus")))
  let durationMs ← optionalIntegral p (txt "durationMs") at_
  let failures ← failures p at_
  return ⟨attemptId, status, rawStatus, expectedStatus, durationMs, failures⟩

def readStepStarted : Read StepStartedPayload := do
  let stepId ← identifier p (txt "stepId") at_
  let attemptId ← identifier p (txt "attemptId") at_
  let name ← requiredString p (txt "name") at_
  let parentStepId ← optionalIdentifier p (txt "parentStepId") at_
  let kind ← optionalString p (txt "kind") at_
  let location ← optionalObject p (txt "location") at_ location
  return ⟨stepId, attemptId, parentStepId, name, kind, location⟩

def readStepFinished : Read StepFinishedPayload := do
  let stepId ← identifier p (txt "stepId") at_
  let attemptId ← identifier p (txt "attemptId") at_
  let status ← oneOf (← requiredString p (txt "status") at_) statuses Status.text
    (child at_ (txt "status"))
  let rawStatus ← optionalString p (txt "rawStatus") at_
  let durationMs ← optionalIntegral p (txt "durationMs") at_
  let failures ← failures p at_
  return ⟨stepId, attemptId, status, rawStatus, durationMs, failures⟩

def readAttachmentAdded : Read AttachmentAddedPayload := do
  let attemptId ← identifier p (txt "attemptId") at_
  let name ← requiredString p (txt "name") at_
  let mediaType ← requiredString p (txt "mediaType") at_
  let sizeBytes ← integral p (txt "sizeBytes") at_
  let sha256 ← requiredString p (txt "sha256") at_
  let stepId ← optionalIdentifier p (txt "stepId") at_
  return ⟨attemptId, stepId, name, mediaType, sizeBytes, sha256⟩

def readScopeFailed : Read ScopeFailedPayload := do
  let path ← pathSegments (← required p (txt "path") at_) (child at_ (txt "path"))
  if path = [] then invalid (child at_ (txt "path")) (txt "must identify the failing scope")
  else do
    match ← failures p at_ with
    | none | some [] =>
        invalid (child at_ (txt "failures")) (txt "a scope failure carries at least one failure")
    | some fs => do
        let displayName ← optionalString p (txt "displayName") at_
        let rawStatus ← optionalString p (txt "rawStatus") at_
        let location ← optionalObject p (txt "location") at_ location
        return ⟨path, displayName, rawStatus, location, fs⟩

end payloads

/-- `readPayload` for a known event type. -/
def readPayload (t : EventType) (p : Obj) : Read Payload :=
  let at_ := txt "/payload"
  match t with
  | .sessionStarted => .sessionStarted <$> readSessionStarted p at_
  | .sessionFinished => .sessionFinished <$> readSessionFinished p at_
  | .runFinished => .ok .runFinished
  | .attemptStarted => .attemptStarted <$> readAttemptStarted p at_
  | .attemptFinished => .attemptFinished <$> readAttemptFinished p at_
  | .stepStarted => .stepStarted <$> readStepStarted p at_
  | .stepFinished => .stepFinished <$> readStepFinished p at_
  | .attachmentAdded => .attachmentAdded <$> readAttachmentAdded p at_
  | .scopeFailed => .scopeFailed <$> readScopeFailed p at_

/-- `isKnownEventType`, with the type it is. -/
def knownEventType (t : Text) : Option EventType := eventTypes.find? (fun e => e.text = t)

def readVersion (protocolVersion : Text) : Read Unit :=
  match parseProtocolVersion protocolVersion with
  | none => invalid (txt "/protocolVersion") (txt "must be a semantic version")
  | some v =>
      if isSupportedProtocolVersion v then .ok ()
      else .error ⟨.unsupportedProtocolVersion,
        txt "protocol version " ++ protocolVersion ++ txt " is outside the supported line 0.3",
        some (txt "/protocolVersion")⟩

def readIgnorable (root : Obj) : Read (Option Bool) :=
  match present root (txt "ignorable") with
  | none => .ok none
  | some (.bool b) => .ok (some b)
  | some _ => invalid (txt "/ignorable") (txt "must be a boolean")

def readSequence (root : Obj) : Read ℕ := do
  let sequence ← integral root (txt "sequence") []
  if sequence < 1 then invalid (txt "/sequence") (txt "must be >= 1") else .ok sequence.toNat

def readOccurredAt (root : Obj) : Read Text := do
  let occurredAt ← requiredString root (txt "occurredAt") []
  if isTimestamp occurredAt then .ok occurredAt
  else invalid (txt "/occurredAt") (txt "must be an ISO-8601 timestamp with offset")

def readEventType (root : Obj) : Read Text := do
  let eventType ← requiredString root (txt "eventType") []
  if isEventTypeName eventType then .ok eventType
  else invalid (txt "/eventType") (txt "must be dotted lower-case words")

/-- The fields of the envelope and the event type, in the order the codec checks them. -/
def readEnvelope (root : Obj) : Read (Envelope × Text) := do
  let protocolVersion ← requiredString root (txt "protocolVersion") []
  readVersion protocolVersion
  let eventType ← readEventType root
  let eventId ← identifier root (txt "eventId") []
  let runId ← identifier root (txt "runId") []
  let sessionId ← identifier root (txt "sessionId") []
  let sequence ← readSequence root
  let occurredAt ← readOccurredAt root
  let ignorable ← readIgnorable root
  return (⟨protocolVersion, eventId, runId, sessionId, sequence, occurredAt, ignorable⟩, eventType)

/-- An event of a parsed JSON value. -/
def eventFromObject : Json → Read AnyEvent
  | .obj root => do
      let (envelope, eventType) ← readEnvelope root
      match memberOf root (txt "payload") with
      | some (.obj payload) =>
          match knownEventType eventType with
          | some t => (fun p => .known ⟨envelope, p⟩) <$> readPayload t payload
          | none =>
              if envelope.ignorable = some true then .ok (.unknown ⟨envelope, eventType, payload⟩)
              else .error ⟨.unsupportedEventType,
                txt "event type " ++ eventType ++ txt " is not known and not marked ignorable",
                some (txt "/eventType")⟩
      | _ => invalid (txt "/payload") (txt "must be an object")
  | _ => .error ⟨.malformedJson, txt "event must be a JSON object", some []⟩

/-! ### What the envelope says about the value -/

theorem bind_eq_ok {ε α β : Type} {x : Except ε α} {f : α → Except ε β} {b : β} :
    x >>= f = .ok b ↔ ∃ a, x = .ok a ∧ f a = .ok b := by
  cases x with
  | error e => simp [bind, Except.bind]
  | ok a => simp [bind, Except.bind]

theorem map_eq_ok {ε α β : Type} {x : Except ε α} {f : α → β} {b : β} :
    f <$> x = .ok b ↔ ∃ a, x = .ok a ∧ f a = b := by
  cases x with
  | error e => simp [Functor.map, Except.map]
  | ok a => simp [Functor.map, Except.map]

theorem memberOf_of_present {o : Obj} {field : Text} {v : Json} (h : present o field = some v) :
    memberOf o field = some v := by
  unfold present at h
  split at h
  · cases h
  · cases h
  · rwa [← h]

theorem required_eq_ok {o : Obj} {field at_ : Text} {v : Json} (h : required o field at_ = .ok v) :
    memberOf o field = some v := by
  unfold required at h
  split at h
  · cases h
  · rename_i w hw
    rw [memberOf_of_present hw, Except.ok.inj h]

theorem requiredString_eq_ok {o : Obj} {field at_ s : Text}
    (h : requiredString o field at_ = .ok s) : memberOf o field = some (.str s) := by
  obtain ⟨v, hv, hs⟩ := bind_eq_ok.mp h
  rw [required_eq_ok hv]
  cases v with
  | str s' => rw [Except.ok.inj hs]
  | null => cases hs
  | bool b => cases hs
  | num n => cases hs
  | arr items => cases hs
  | obj members => cases hs

theorem identifier_eq_ok {o : Obj} {field at_ s : Text} (h : identifier o field at_ = .ok s) :
    memberOf o field = some (.str s) ∧ isIdentifier s = true := by
  obtain ⟨t, ht, hs⟩ := bind_eq_ok.mp h
  unfold checkIdentifier at hs
  split at hs
  · rename_i hi
    obtain rfl := Except.ok.inj hs
    exact ⟨requiredString_eq_ok ht, hi⟩
  · cases hs

theorem integral_eq_ok {o : Obj} {field at_ : Text} {i : ℤ} (h : integral o field at_ = .ok i) :
    ∃ n : JsNumber, memberOf o field = some (.num n) ∧ n.safeInteger? = some i := by
  obtain ⟨v, hv, hi⟩ := bind_eq_ok.mp h
  cases v with
  | num n =>
      refine ⟨n, required_eq_ok hv, ?_⟩
      simp only [asInteger] at hi
      split at hi
      · rename_i j hj
        rw [hj, Except.ok.inj hi]
      · cases hi
  | str s => cases hi
  | null => cases hi
  | bool b => cases hi
  | arr items => cases hi
  | obj members => cases hi

theorem readSequence_eq_ok {root : Obj} {n : ℕ} (h : readSequence root = .ok n) :
    1 ≤ n ∧ ∃ x : JsNumber, memberOf root (txt "sequence") = some (.num x) ∧
      x.safeInteger? = some (n : ℤ) := by
  obtain ⟨i, hi, hn⟩ := bind_eq_ok.mp h
  split at hn
  · cases hn
  · rename_i hlt
    obtain rfl := Except.ok.inj hn
    obtain ⟨x, hx, hx'⟩ := integral_eq_ok hi
    exact ⟨by omega, x, hx, by rw [hx']; congr; omega⟩

theorem readEnvelope_eq_ok {root : Obj} {envelope : Envelope} {t : Text}
    (h : readEnvelope root = .ok (envelope, t)) :
    memberOf root (txt "runId") = some (.str envelope.runId) ∧
    memberOf root (txt "sessionId") = some (.str envelope.sessionId) ∧
    readSequence root = .ok envelope.sequence := by
  obtain ⟨version, -, h⟩ := bind_eq_ok.mp h
  obtain ⟨-, -, h⟩ := bind_eq_ok.mp h
  obtain ⟨eventType, -, h⟩ := bind_eq_ok.mp h
  obtain ⟨eventId, -, h⟩ := bind_eq_ok.mp h
  obtain ⟨runId, hr, h⟩ := bind_eq_ok.mp h
  obtain ⟨sessionId, hs, h⟩ := bind_eq_ok.mp h
  obtain ⟨sequence, hseq, h⟩ := bind_eq_ok.mp h
  obtain ⟨occurredAt, -, h⟩ := bind_eq_ok.mp h
  obtain ⟨ignorable, -, h⟩ := bind_eq_ok.mp h
  cases h
  exact ⟨(identifier_eq_ok hr).1, (identifier_eq_ok hs).1, hseq⟩

/-- An event has the envelope that was read of its object. -/
theorem eventFromObject_read {v : Json} {e : AnyEvent} (h : eventFromObject v = .ok e) :
    ∃ root t, v = .obj root ∧ readEnvelope root = .ok (e.envelope, t) := by
  cases v with
  | obj root =>
      obtain ⟨⟨envelope, t⟩, henv, h⟩ := bind_eq_ok.mp h
      have he : e.envelope = envelope := by
        simp only at h
        split at h
        · split at h
          · rename_i t' _
            cases hp : readPayload t' _ with
            | error err => rw [hp] at h; cases h
            | ok p => rw [hp] at h; cases h; rfl
          · split at h
            · cases h; rfl
            · cases h
        · cases h
      rw [he]
      exact ⟨root, t, rfl, henv⟩
  | null => cases h
  | bool b => cases h
  | num n => cases h
  | str s => cases h
  | arr items => cases h

/-- The envelope of an event stands in the members of the object it was read from. -/
theorem eventFromObject_envelope {v : Json} {e : AnyEvent} (h : eventFromObject v = .ok e) :
    ∃ root, v = .obj root ∧ memberOf root (txt "runId") = some (.str e.envelope.runId) ∧
      memberOf root (txt "sessionId") = some (.str e.envelope.sessionId) ∧
      readSequence root = .ok e.envelope.sequence := by
  obtain ⟨root, t, hv, henv⟩ := eventFromObject_read h
  exact ⟨root, hv, readEnvelope_eq_ok henv⟩

/-- The event id stands in the member of this name. -/
theorem eventFromObject_eventId {v : Json} {e : AnyEvent} (h : eventFromObject v = .ok e) :
    ∃ root, v = .obj root ∧ memberOf root (txt "eventId") = some (.str e.envelope.eventId) := by
  obtain ⟨root, t, hv, henv⟩ := eventFromObject_read h
  obtain ⟨version, -, henv⟩ := bind_eq_ok.mp henv
  obtain ⟨-, -, henv⟩ := bind_eq_ok.mp henv
  obtain ⟨eventType, -, henv⟩ := bind_eq_ok.mp henv
  obtain ⟨eventId, hi, henv⟩ := bind_eq_ok.mp henv
  obtain ⟨runId, -, henv⟩ := bind_eq_ok.mp henv
  obtain ⟨sessionId, -, henv⟩ := bind_eq_ok.mp henv
  obtain ⟨sequence, -, henv⟩ := bind_eq_ok.mp henv
  obtain ⟨occurredAt, -, henv⟩ := bind_eq_ok.mp henv
  obtain ⟨ignorable, -, henv⟩ := bind_eq_ok.mp henv
  have hid : e.envelope.eventId = eventId :=
    congrArg (fun r => r.1.eventId) (Except.ok.inj henv).symm
  exact ⟨root, hv, by rw [(identifier_eq_ok hi).1, hid]⟩

/-- Values with one canonical text are events of one session, one sequence and one run. -/
theorem envelope_of_canonText {v w : Json} {e f : AnyEvent} (hv : eventFromObject v = .ok e)
    (hw : eventFromObject w = .ok f) (h : canonText v = canonText w) :
    e.envelope.sessionId = f.envelope.sessionId ∧ e.envelope.sequence = f.envelope.sequence ∧
      e.envelope.runId = f.envelope.runId := by
  obtain ⟨rv, rfl, hrv, hsv, hqv⟩ := eventFromObject_envelope hv
  obtain ⟨rw', rfl, hrw, hsw, hqw⟩ := eventFromObject_envelope hw
  obtain ⟨nv, hnv, hmv⟩ := normal_obj rv
  obtain ⟨nw, hnw, hmw⟩ := normal_obj rw'
  have hn : nv = nw := by
    have := canonText_injective h
    rw [hnv, hnw] at this
    exact Json.obj.inj this
  have hmem : ∀ k, (memberOf rv k).map Json.normal = (memberOf rw' k).map Json.normal := by
    intro k
    rw [← hmv, ← hmw, hn]
  obtain ⟨-, x, hx, hxe⟩ := readSequence_eq_ok hqv
  obtain ⟨-, y, hy, hye⟩ := readSequence_eq_ok hqw
  refine ⟨?_, ?_, ?_⟩
  · have := hmem (txt "sessionId")
    rw [hsv, hsw] at this
    simpa [Json.normal] using this
  · have := hmem (txt "sequence")
    rw [hx, hy] at this
    have hxy : x = y := by simpa [Json.normal] using this
    rw [hxy, hye] at hxe
    exact (Int.ofNat.inj (Option.some.inj hxe)).symm
  · have := hmem (txt "runId")
    rw [hrv, hrw] at this
    simpa [Json.normal] using this

end QeReport

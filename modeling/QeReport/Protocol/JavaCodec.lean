import QeReport.Lib.Double
import QeReport.Protocol.Codec

/-! # Reading events in the Java binding

`JsonCodec.read` of the Java binding, over the tree of the text as `readTree` gives it: a number
is its lexeme, integral when it has neither a fraction nor an exponent.  The records of the
binding are those of the protocol; its collections are never null, so an absent one is the empty
one, and the payload of an event of an unknown type is kept as the tree it is the text of. -/

namespace QeReport.Java

/-! ### Fields -/

/-- `p.get(field)`, null when the member is missing or null. -/
def get (p : Json) (field : Text) : Option Json :=
  match p with
  | .obj members =>
      match memberOf members field with
      | some .null => none
      | n => n
  | _ => none

def isObject : Json → Bool
  | .obj _ => true
  | _ => false

/-- A producer-supplied value quoted for a diagnostic. -/
def shown (value : Text) : Text :=
  let escaped := (value.take 64).flatMap (fun c =>
    if c < 0x20 || c == 0x7F then escapeHex c
    else if c == unit '"' || c == unit '\\' then [unit '\\', c]
    else [c])
  unit '"' :: escaped ++ (if value.length > 64 then txt "\"..." else txt "\"")

section fields
variable (p : Json) (field at_ : Text)

def required : Read Json :=
  match get p field with
  | none => invalid at_ (txt "missing required property " ++ field)
  | some n => .ok n

def textValue (at_ : Text) : Json → Read Text
  | .str s => .ok s
  | _ => invalid at_ (txt "must be a string")

def requiredString : Read Text := do
  textValue (child at_ field) (← required p field at_)

def optionalString : Read (Option Text) :=
  match get p field with
  | none => .ok none
  | some n => some <$> textValue (child at_ field) n

def identifier : Read Text := do
  let s ← requiredString p field at_
  if isIdentifier s then .ok s
  else invalid (child at_ field) (txt "must be printable ASCII without spaces")

def optionalIdentifier : Read (Option Text) := do
  match ← optionalString p field at_ with
  | none => .ok none
  | some s =>
      if isIdentifier s then .ok (some s)
      else invalid (child at_ field) (txt "must be printable ASCII without spaces")

/-- `n.isIntegralNumber() && n.canConvertToLong()`, with `n.longValue()`. -/
def long? (n : JsNumber) : Option ℤ :=
  if n.isPlain ∧ -2 ^ 63 ≤ n.integer ∧ n.integer < 2 ^ 63 then some n.integer else none

def longValue (at_ : Text) : Json → Read ℤ
  | .num n =>
      match long? n with
      | some i => .ok i
      | none => invalid at_ (txt "must be an integer")
  | _ => invalid at_ (txt "must be an integer")

def integral : Read ℤ := do
  longValue (child at_ field) (← required p field at_)

def optionalIntegral : Read (Option ℤ) :=
  match get p field with
  | none => .ok none
  | some n => some <$> longValue (child at_ field) n

def stringMap : Read Record :=
  match get p field with
  | none => .ok []
  | some (.obj members) =>
      members.mapM (fun (k, v) =>
        (fun s => (k, s)) <$> textValue (child (child at_ field) k) v)
  | some _ => invalid (child at_ field) (txt "must be an object of strings")

def stringList : Read (List Text) :=
  match get p field with
  | none => .ok []
  | some (.arr items) => mapItems (fun v ptr => textValue ptr v) (child at_ field) items
  | some _ => invalid (child at_ field) (txt "must be an array of strings")

def optionalObject {α : Type} (reader : Json → Read α) : Read (Option α) :=
  match get p field with
  | none => .ok none
  | some n =>
      if isObject n then some <$> reader n
      else invalid (child at_ field) (txt "must be an object")

end fields

/-! ### Parts of payloads -/

section parts
variable (n : Json) (at_ : Text)

def component : Read Component :=
  if isObject n then do
    let name ← requiredString n (txt "name") at_
    let version ← optionalString n (txt "version") at_
    return ⟨name, version⟩
  else invalid at_ (txt "must be an object")

def executor : Read Executor :=
  if isObject n then do
    let name ← optionalString n (txt "name") at_
    let buildId ← optionalString n (txt "buildId") at_
    let buildUrl ← optionalString n (txt "buildUrl") at_
    return ⟨name, buildId, buildUrl⟩
  else invalid at_ (txt "must be an object")

def source : Read Source :=
  if isObject n then do
    let repository ← optionalString n (txt "repository") at_
    let revision ← optionalString n (txt "revision") at_
    let branch ← optionalString n (txt "branch") at_
    return ⟨repository, revision, branch⟩
  else invalid at_ (txt "must be an object")

def location : Read Location :=
  if isObject n then do
    let file ← requiredString n (txt "file") at_
    let line ← optionalIntegral n (txt "line") at_
    let column ← optionalIntegral n (txt "column") at_
    return ⟨file, line, column⟩
  else invalid at_ (txt "must be an object")

/-- `fromWireName` of an enumeration, with the error for an unknown value. -/
def fromWireName {α : Type} (values : List α) (wireName : α → Text) (at_ raw : Text) : Read α :=
  match values.find? (fun a => wireName a = raw) with
  | some a => .ok a
  | none => invalid at_ (txt "unknown value " ++ shown raw)

def failure (f : Json) (fAt : Text) : Read Failure :=
  if isObject f then do
    let phaseRaw ← optionalString f (txt "phase") fAt
    let phase ← phaseRaw.mapM
      (fromWireName failurePhases FailurePhase.text (child fAt (txt "phase")))
    let message ← requiredString f (txt "message") fAt
    let type ← optionalString f (txt "type") fAt
    let stackTrace ← optionalString f (txt "stackTrace") fAt
    let location ← optionalObject f (txt "location") fAt
      (fun l => location l (child fAt (txt "location")))
    return ⟨message, type, stackTrace, phase, location⟩
  else invalid fAt (txt "must be an object")

def failures : Read (List Failure) :=
  match get n (txt "failures") with
  | none => .ok []
  | some (.arr items) => mapItems failure (child at_ (txt "failures")) items
  | some _ => invalid (child at_ (txt "failures")) (txt "must be an array")

def pathSegment (seg : Json) (segAt : Text) : Read PathSegment :=
  if isObject seg then do
    let kind ← requiredString seg (txt "kind") segAt
    let name ← requiredString seg (txt "name") segAt
    return ⟨kind, name⟩
  else invalid segAt (txt "must be an object")

def pathSegments (pathNode : Json) (at_ : Text) : Read (List PathSegment) :=
  match pathNode with
  | .arr items => mapItems pathSegment at_ items
  | _ => invalid at_ (txt "must be an array")

def testCase : Read TestCase :=
  if isObject n then do
    let stabilityRaw ← requiredString n (txt "historicalIdStability") at_
    let stability ← fromWireName historicalIdStabilities HistoricalIdStability.text
      (child at_ (txt "historicalIdStability")) stabilityRaw
    let historicalId ← optionalString n (txt "historicalId") at_
    if stability = .unavailable ∧ historicalId.isSome then
      invalid (child at_ (txt "historicalId"))
        (txt "must be absent when historicalIdStability is unavailable")
    else if stability ≠ .unavailable ∧ historicalId.isNone then
      invalid at_ (txt "historicalId is required unless historicalIdStability is unavailable")
    else do
      let path ← pathSegments (← required n (txt "path") at_) (child at_ (txt "path"))
      let executionId ← identifier n (txt "executionId") at_
      let displayName ← requiredString n (txt "displayName") at_
      let location ← optionalObject n (txt "location") at_
        (fun l => location l (child at_ (txt "location")))
      let tags ← stringList n (txt "tags") at_
      let labels ← stringMap n (txt "labels") at_
      return ⟨executionId, historicalId, stability, displayName, path, location, some tags,
        some labels⟩
  else invalid at_ (txt "must be an object")

end parts

/-! ### Payloads -/

section payloads
variable (p : Json) (at_ : Text)

def sessionStatus : Read (Option SessionStatus) := do
  match ← optionalString p (txt "status") at_ with
  | none => .ok none
  | some raw =>
      match sessionStatuses.find? (fun s => s.text = raw) with
      | some s => .ok (some s)
      | none => invalid (child at_ (txt "status")) (txt "must be passed, failed, or inconclusive")

def status : Read Status := do
  let raw ← requiredString p (txt "status") at_
  fromWireName statuses Status.text (child at_ (txt "status")) raw

def expectedStatus : Read (Option ExpectedStatus) := do
  let raw ← optionalString p (txt "expectedStatus") at_
  raw.mapM (fromWireName expectedStatuses ExpectedStatus.text (child at_ (txt "expectedStatus")))

def readSessionStarted : Read SessionStartedPayload := do
  let producer ← component (← required p (txt "producer") at_) (child at_ (txt "producer"))
  let runner ← optionalObject p (txt "runner") at_ (fun n => component n (child at_ (txt "runner")))
  let environment ← stringMap p (txt "environment") at_
  let executor ← optionalObject p (txt "executor") at_
    (fun n => executor n (child at_ (txt "executor")))
  let source ← optionalObject p (txt "source") at_ (fun n => source n (child at_ (txt "source")))
  let labels ← stringMap p (txt "labels") at_
  return ⟨producer, runner, some environment, executor, source, some labels⟩

def readSessionFinished : Read SessionFinishedPayload := do
  let status ← sessionStatus p at_
  let rawStatus ← optionalString p (txt "rawStatus") at_
  let failures ← failures p at_
  if status = none ∧ rawStatus ≠ none then invalid at_ (txt "rawStatus requires status")
  else if status = none ∧ failures ≠ [] then invalid at_ (txt "failures require status")
  else if status = some .passed ∧ failures ≠ [] then
    invalid at_ (txt "a passed session carries no failures")
  else return ⟨status, rawStatus, some failures⟩

def readAttemptStarted : Read AttemptStartedPayload := do
  let n ← integral p (txt "attemptNumber") at_
  if n < 1 ∨ n > 1000 then
    invalid (child at_ (txt "attemptNumber")) (txt "must be between 1 and 1000")
  else do
    let attemptId ← identifier p (txt "attemptId") at_
    let test ← testCase (← required p (txt "test") at_) (child at_ (txt "test"))
    return ⟨attemptId, n.toNat, test⟩

def readAttemptFinished : Read AttemptFinishedPayload := do
  let attemptId ← identifier p (txt "attemptId") at_
  let status ← status p at_
  let rawStatus ← optionalString p (txt "rawStatus") at_
  let expectedStatus ← expectedStatus p at_
  let durationMs ← optionalIntegral p (txt "durationMs") at_
  let failures ← failures p at_
  return ⟨attemptId, status, rawStatus, expectedStatus, durationMs, some failures⟩

def readStepStarted : Read StepStartedPayload := do
  let stepId ← identifier p (txt "stepId") at_
  let attemptId ← identifier p (txt "attemptId") at_
  let parentStepId ← optionalIdentifier p (txt "parentStepId") at_
  let name ← requiredString p (txt "name") at_
  let kind ← optionalString p (txt "kind") at_
  let location ← optionalObject p (txt "location") at_
    (fun n => location n (child at_ (txt "location")))
  return ⟨stepId, attemptId, parentStepId, name, kind, location⟩

def readStepFinished : Read StepFinishedPayload := do
  let stepId ← identifier p (txt "stepId") at_
  let attemptId ← identifier p (txt "attemptId") at_
  let status ← status p at_
  let rawStatus ← optionalString p (txt "rawStatus") at_
  let durationMs ← optionalIntegral p (txt "durationMs") at_
  let failures ← failures p at_
  return ⟨stepId, attemptId, status, rawStatus, durationMs, some failures⟩

def readAttachmentAdded : Read AttachmentAddedPayload := do
  let attemptId ← identifier p (txt "attemptId") at_
  let stepId ← optionalIdentifier p (txt "stepId") at_
  let name ← requiredString p (txt "name") at_
  let mediaType ← requiredString p (txt "mediaType") at_
  let sizeBytes ← integral p (txt "sizeBytes") at_
  let sha256 ← requiredString p (txt "sha256") at_
  return ⟨attemptId, stepId, name, mediaType, sizeBytes, sha256⟩

def readScopeFailed : Read ScopeFailedPayload := do
  let path ← pathSegments (← required p (txt "path") at_) (child at_ (txt "path"))
  if path = [] then invalid (child at_ (txt "path")) (txt "must identify the failing scope")
  else do
    let failures ← failures p at_
    if failures = [] then
      invalid (child at_ (txt "failures")) (txt "a scope failure carries at least one failure")
    else do
      let displayName ← optionalString p (txt "displayName") at_
      let rawStatus ← optionalString p (txt "rawStatus") at_
      let location ← optionalObject p (txt "location") at_
        (fun n => location n (child at_ (txt "location")))
      return ⟨path, displayName, rawStatus, location, failures⟩

/-- `readPayload` for a known event type. -/
def readPayload (t : EventType) (p : Json) : Read Payload :=
  let at_ := txt "/payload"
  match t with
  | .sessionStarted => .sessionStarted <$> readSessionStarted p at_
  | .sessionFinished => .sessionFinished <$> readSessionFinished p at_
  | .runFinished => .ok .runFinished
  | .attemptStarted => .attemptStarted <$> readAttemptStarted p at_
  | .attemptFinished => .attemptFinished <$> readAttemptFinished p at_
  | .stepStarted => .stepStarted <$> readStepStarted p at_
  | .stepFinished => .stepFinished <$> readStepFinished p at_
  | .attachmentAdded => .attachmentAdded <$> readAttachmentAdded p at_
  | .scopeFailed => .scopeFailed <$> readScopeFailed p at_

end payloads

/-! ### Events -/

/-- `ProtocolVersion.parse`: the parts are read with `Integer.parseInt`. -/
def parseVersion (version : Text) : Option ParsedVersion :=
  (parseProtocolVersion version).filter
    (fun v => v.major < 2 ^ 31 && v.minor < 2 ^ 31 && v.patch < 2 ^ 31)

def readVersion (protocolVersion : Text) : Read Unit :=
  match parseVersion protocolVersion with
  | none => invalid (txt "/protocolVersion") (txt "must be a semantic version")
  | some v =>
      if isSupportedProtocolVersion v then .ok ()
      else .error ⟨.unsupportedProtocolVersion,
        txt "protocol version " ++ protocolVersion ++ txt " is outside the supported line 0.3",
        some (txt "/protocolVersion")⟩

section event
variable (root : Json)

def readEventType : Read Text := do
  let eventType ← requiredString root (txt "eventType") []
  if isEventTypeName eventType then .ok eventType
  else invalid (txt "/eventType") (txt "must be dotted lower-case words")

def readSequence : Read ℕ := do
  let sequence ← integral root (txt "sequence") []
  if sequence < 1 then invalid (txt "/sequence") (txt "must be >= 1") else .ok sequence.toNat

def readOccurredAt : Read Text := do
  let occurredAt ← requiredString root (txt "occurredAt") []
  if isTimestamp occurredAt then .ok occurredAt
  else invalid (txt "/occurredAt") (txt "must be an ISO-8601 timestamp with offset")

def readIgnorable : Read (Option Bool) :=
  match get root (txt "ignorable") with
  | none => .ok none
  | some (.bool b) => .ok (some b)
  | some _ => invalid (txt "/ignorable") (txt "must be a boolean")

def readEnvelope : Read (Envelope × Text) := do
  let protocolVersion ← requiredString root (txt "protocolVersion") []
  readVersion protocolVersion
  let eventType ← readEventType root
  let eventId ← identifier root (txt "eventId") []
  let runId ← identifier root (txt "runId") []
  let sessionId ← identifier root (txt "sessionId") []
  let sequence ← readSequence root
  let occurredAt ← readOccurredAt root
  let ignorable ← readIgnorable root
  return (⟨protocolVersion, eventId, runId, sessionId, sequence, occurredAt, ignorable⟩, eventType)

/-- `JsonCodec.read` of the tree of a text. -/
def readRoot : Read AnyEvent :=
  if isObject root then do
    let (envelope, eventType) ← readEnvelope root
    match get root (txt "payload") with
    | some (.obj payload) =>
        match knownEventType eventType with
        | some t => (fun p => .known ⟨envelope, p⟩) <$> readPayload t (.obj payload)
        | none =>
            if envelope.ignorable = some true then .ok (.unknown ⟨envelope, eventType, payload⟩)
            else .error ⟨.unsupportedEventType,
              txt "event type " ++ eventType ++ txt " is not known and not marked ignorable",
              some (txt "/eventType")⟩
    | _ => invalid (txt "/payload") (txt "must be an object")
  else .error ⟨.malformedJson, txt "event must be a JSON object", some []⟩

end event

/-- `JsonCodec.read`, with the parser of the text as a parameter. -/
def read (readTree : Text → Except Text Json) (json : Text) : Read AnyEvent :=
  match readTree json with
  | .error message => .error ⟨.malformedJson, txt "not JSON: " ++ message, none⟩
  | .ok root => readRoot root

end QeReport.Java

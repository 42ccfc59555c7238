import QeReport.Sdk.Redactor

/-! # The session of a producer

`ReportSession` writes the events of one session: it fills the envelope, redacts, holds the
event against the size limit and hands it to a sink.  The state is the fields of the session,
what the sink accepted and what the problem handler was told; the events built, the writes asked
of the sink and the attachments given to it are counted, so that the answers of the outside
(`Outside`) are functions of these counts, and every pattern of failures is some outside.

An operation gives its answer, or the error of the codec that escapes it, with the new state. -/

namespace QeReport.Sdk

inductive ReportProblemKind where
  | eventTooLarge | attachmentTooLarge | sinkFailure | sessionFinished | runFinished
  | invalidPayload | terminalOutcomeNotWritten
deriving DecidableEq

structure ReportProblem where
  kind : ReportProblemKind
  message : Text
deriving DecidableEq

inductive SessionState where
  | active | sessionFinished | runFinished | closed
deriving DecidableEq

/-- `lifecycle.replace('-', '.')`. -/
def SessionState.text : SessionState → Text
  | .active => txt "active"
  | .sessionFinished => txt "session.finished"
  | .runFinished => txt "run.finished"
  | .closed => txt "closed"

structure StoredAttachment where
  sha256 : Text
  sizeBytes : ℤ

/-- `AttachmentTooLargeError`, or any other error of the sink. -/
inductive StoreFailure where
  | tooLarge | other

structure AttachmentInput where
  attemptId : Text
  stepId : Option Text
  name : Text
  mediaType : Text

/-- What a session is given, and what the outside answers: the `n`-th event id and time, the
bytes of an event on its line, and whether the `n`-th write, the `n`-th attachment and the end
of the sink succeed. -/
structure Outside where
  runId : Text
  sessionId : Text
  maxEventBytes : ℕ
  maxEventBytes_le : maxEventBytes ≤ QeReport.maxEventBytes
  ids : ℕ → Text
  clock : ℕ → Text
  redactText : Text → Text
  decode : List ℕ → Text
  size : AnyEvent → ℕ
  write : ℕ → Bool
  storeAttachment : ℕ → List ℕ → Except StoreFailure StoredAttachment
  close : Bool
  /-- `sink.maxAttachmentBytes`. -/
  maxAttachmentBytes : ℕ := 67108864

/-- An outside whose ids are distinct identifiers and whose clock gives instants. -/
structure Host extends Outside where
  ids_identifier : ∀ n, isIdentifier (ids n) = true
  ids_injective : Function.Injective ids
  clock_timestamp : ∀ n, isTimestamp (clock n) = true

instance : Coe Host Outside := ⟨Host.toOutside⟩

/-- `Buffer.byteLength(stringifyEvent(event), 'utf8') + 1`. -/
def eventBytes (e : AnyEvent) : ℕ := byteLength (stringifyEvent e) + 1

structure ReportSession where
  sequence : ℕ
  written : ℕ
  dropped : ℕ
  lifecycle : SessionState
  /-- A supplied session outcome could not be written. -/
  terminalOutcomeLost : Bool
  /-- How many events were built, each with an id and a time. -/
  built : ℕ
  /-- How many writes the sink was asked for. -/
  tried : ℕ
  /-- How many attachments the sink was given. -/
  stored : ℕ
  /-- The events the sink accepted. -/
  sunk : List AnyEvent
  problems : List ReportProblem

/-- What an operation gives: its answer or the error that escapes, and the state it leaves. -/
abbrev Answer (α : Type) := Read α × ReportSession

namespace ReportSession

/-- The session before `session.started`. -/
def new : ReportSession where
  sequence := 0
  written := 0
  dropped := 0
  lifecycle := .active
  terminalOutcomeLost := false
  built := 0
  tried := 0
  stored := 0
  sunk := []
  problems := []

/-- `problem(kind, message)`. -/
def problem (s : ReportSession) (kind : ReportProblemKind) (message : Text) : ReportSession :=
  { s with problems := s.problems ++ [⟨kind, message⟩] }

/-- `dropped += 1`. -/
def drop (s : ReportSession) : ReportSession := { s with dropped := s.dropped + 1 }

/-- `terminalOutcomeLost = true`. -/
def lose (s : ReportSession) : ReportSession := { s with terminalOutcomeLost := true }

/-- `lifecycle = state`. -/
def enter (s : ReportSession) (state : SessionState) : ReportSession := { s with lifecycle := state }

/-- The event is built: an id and a time are used. -/
def build (s : ReportSession) : ReportSession := { s with built := s.built + 1 }

/-- `sink.write` was called and refused. -/
def refused (s : ReportSession) : ReportSession := { s with tried := s.tried + 1 }

/-- `sink.write` was called and took the event. -/
def took (s : ReportSession) (e : AnyEvent) : ReportSession :=
  { s with
    sequence := s.sequence + 1
    written := s.written + 1
    tried := s.tried + 1
    sunk := s.sunk ++ [e] }

end ReportSession

/-! ### Writing one event -/

inductive WriteResult where
  | written | tooLarge | sinkFailure
deriving DecidableEq

structure WriteAttempt where
  result : WriteResult
  bytes : ℕ

section session
variable (host : Outside)

/-- The event the session builds for a payload. -/
def candidate (s : ReportSession) (payload : Payload) : Event where
  protocolVersion := txt "0.3.0"
  eventId := host.ids s.built
  runId := host.runId
  sessionId := host.sessionId
  sequence := s.sequence + 1
  occurredAt := host.clock s.built
  ignorable := none
  payload := payload

/-- `${bytes} bytes, limit ${maxEventBytes}`. -/
def sizeText (bytes : ℕ) : Text :=
  natText bytes ++ txt " bytes, limit " ++ natText host.maxEventBytes

/-- `write(input, reportSize)`. -/
def write (s : ReportSession) (payload : Payload) (reportSize : Bool) : Answer WriteAttempt :=
  match redactEvent host.redactText (.known (candidate host s payload)) with
  | .error e => (.error e, s.build)
  | .ok event =>
      let s := s.build
      let bytes := host.size event
      if bytes > host.maxEventBytes then
        (.ok ⟨.tooLarge, bytes⟩,
          if reportSize then s.drop.problem .eventTooLarge
            (txt "event " ++ payload.eventType.text ++ txt " is " ++ sizeText host bytes ++
              txt "; dropped")
          else s.drop)
      else if host.write s.tried then (.ok ⟨.written, bytes⟩, s.took event)
      else (.ok ⟨.sinkFailure, bytes⟩,
        s.refused.drop.problem .sinkFailure (txt "cannot write " ++ payload.eventType.text))

/-- `write(input, true).result === 'written'`. -/
def writeOne (s : ReportSession) (payload : Payload) : Answer Bool :=
  match write host s payload true with
  | (.error e, s) => (.error e, s)
  | (.ok attempt, s) => (.ok (attempt.result == .written), s)

/-- `acceptsSessionEvents(what)`. -/
def acceptsSessionEvents (s : ReportSession) (what : Text) : Bool × ReportSession :=
  if s.terminalOutcomeLost then
    (false, s.drop.problem .terminalOutcomeNotWritten
      (what ++ txt " after a session outcome that could not be written; dropped"))
  else if s.lifecycle = .active then (true, s)
  else (false, s.drop.problem
    (if s.lifecycle = .runFinished then .runFinished else .sessionFinished)
    (what ++ txt " emitted after " ++ s.lifecycle.text ++ txt "; dropped"))

/-! ### Finishing -/

/-- `candidate.failures !== undefined && candidate.failures.length > 0`. -/
def hasFailures (outcome : SessionFinishedPayload) : Bool := (outcome.failures.getD []) ≠ []

@[simp] theorem hasFailures_none (status : Option SessionStatus) (rawStatus : Option Text) :
    hasFailures ⟨status, rawStatus, none⟩ = false := rfl

/-- The rule an outcome breaks, if any. -/
def outcomeViolation (o : SessionFinishedPayload) : Option Text :=
  if o.status = none ∧ o.rawStatus ≠ none then some (txt "rawStatus requires status")
  else if o.status = none ∧ hasFailures o then some (txt "failures require status")
  else if o.status = some .passed ∧ hasFailures o then
    some (txt "a passed session carries no failures")
  else none

/-- How often an outcome can still be reduced. -/
def reductions (o : SessionFinishedPayload) : ℕ :=
  (if hasFailures o then 1 else 0) + (if o.rawStatus.isSome then 1 else 0)

/-- The loop of `finish`: the outcome, then without its failures, then the status alone. -/
def finishLoop (status : SessionStatus) (outcome : SessionFinishedPayload) (s : ReportSession) :
    Answer Bool :=
  match write host s (.sessionFinished outcome) false with
  | (.error e, s) => (.error e, s)
  | (.ok ⟨.written, _⟩, s) => (.ok true, s.enter .sessionFinished)
  | (.ok ⟨.sinkFailure, _⟩, s) =>
      (.ok false, s.lose.problem .terminalOutcomeNotWritten
        (txt "session outcome " ++ status.text ++
          txt " could not be written because the sink failed; no session.finished is emitted and the session stays open"))
  | (.ok ⟨.tooLarge, bytes⟩, s) =>
      if hasFailures outcome then
        finishLoop status ⟨some status, outcome.rawStatus, none⟩ (s.problem .eventTooLarge
          (txt "session.finished with its failures is " ++ sizeText host bytes ++
            txt "; retried without them"))
      else if outcome.rawStatus.isSome then
        finishLoop status ⟨some status, none, none⟩ (s.problem .eventTooLarge
          (txt "session.finished with its rawStatus is " ++ sizeText host bytes ++
            txt "; retried without it"))
      else
        (.ok false, s.lose.problem .terminalOutcomeNotWritten
          (txt "session outcome " ++ status.text ++ txt " alone is " ++ sizeText host bytes ++
            txt " and cannot be written; no session.finished is emitted and the session stays open"))
termination_by reductions outcome
decreasing_by
  · simp_all [reductions]
  · simp_all [reductions]

/-- `finish(outcome)`. -/
def finish (s : ReportSession) (outcome : SessionFinishedPayload) : Answer Bool :=
  match outcomeViolation outcome with
  | some violation =>
      (.ok false, s.drop.problem .invalidPayload
        (txt "session.finished " ++ violation ++ txt "; dropped"))
  | none =>
      match acceptsSessionEvents s (txt "event session.finished") with
      | (false, s) => (.ok false, s)
      | (true, s) =>
          match outcome.status with
          | none =>
              match writeOne host s (.sessionFinished outcome) with
              | (.ok true, s) => (.ok true, s.enter .sessionFinished)
              | other => other
          | some status => finishLoop host status outcome s

/-- `finish()`. -/
def emptyOutcome : SessionFinishedPayload := ⟨none, none, none⟩

/-- The end of `finishRun`: `run.finished` itself. -/
def writeRunFinished (s : ReportSession) : Answer Bool :=
  if s.lifecycle ≠ .sessionFinished then
    (.ok false, s.drop.problem .runFinished
      (txt "run.finished emitted after " ++ s.lifecycle.text ++ txt "; dropped"))
  else
    match writeOne host s .runFinished with
    | (.ok true, s) => (.ok true, s.enter .runFinished)
    | other => other

/-- `finishRun()`. -/
def finishRun (s : ReportSession) : Answer Bool :=
  if s.terminalOutcomeLost then
    (.ok false, s.drop.problem .terminalOutcomeNotWritten
      (txt "run.finished after a session outcome that could not be written; dropped"))
  else if s.lifecycle = .active then
    match finish host s emptyOutcome with
    | (.ok true, s) => writeRunFinished host s
    | other => other
  else writeRunFinished host s

/-- `lifecycle = 'closed'`, and the end of the sink. -/
def closeSink (s : ReportSession) : ReportSession :=
  if host.close then s.enter .closed
  else (s.enter .closed).problem .sinkFailure (txt "cannot close sink")

/-- `close()`. -/
def close (s : ReportSession) : Answer Bool :=
  if s.lifecycle = .closed then (.ok true, s)
  else if s.lifecycle = .active ∧ s.terminalOutcomeLost = false then
    match finish host s emptyOutcome with
    | (.error e, s) => (.error e, s)
    | (.ok _, s) => (.ok true, closeSink host s)
  else (.ok true, closeSink host s)

/-! ### Emitting and attaching -/

/-- `emit(input)`. -/
def emit (s : ReportSession) (payload : Payload) : Answer Bool :=
  match payload with
  | .runFinished => finishRun host s
  | .sessionFinished outcome => finish host s outcome
  | payload =>
      match acceptsSessionEvents s (txt "event " ++ payload.eventType.text) with
      | (false, s) => (.ok false, s)
      | (true, s) => writeOne host s payload

/-- The media types that are text, without parameters and in lower case. -/
def isTextualBase (base : Text) : Bool :=
  (txt "text/").isPrefixOf base || base == txt "application/json" ||
    base == txt "application/xml" || base == txt "application/x-www-form-urlencoded" ||
    base == txt "application/javascript" || endsWith base (txt "+json") ||
    endsWith base (txt "+xml")

/-- `toLowerCase()` of an ASCII letter; no other letter becomes one of `isTextualBase`. -/
def toLowerUnit (u : CodeUnit) : CodeUnit := if unit 'A' ≤ u && u ≤ unit 'Z' then u + 32 else u

/-- The text without the white space at its ends. -/
def trimBy (space : CodeUnit → Bool) (t : Text) : Text :=
  ((t.dropWhile space).reverse.dropWhile space).reverse

/-- `isTextualMediaType(mediaType)`. -/
def isTextualMediaType (mediaType : Text) : Bool :=
  isTextualBase ((trimBy isWhiteSpace (mediaType.takeWhile (fun u => u ≠ unit ';'))).map toLowerUnit)

/-- The payload `emitAttachment` emits. -/
def attachmentPayload (input : AttachmentInput) (stored : StoredAttachment) : Payload :=
  .attachmentAdded ⟨input.attemptId, input.stepId, input.name, input.mediaType, stored.sizeBytes,
    stored.sha256⟩

/-- `storeFailed(input, e)`. -/
def storeFailed (s : ReportSession) (input : AttachmentInput) : StoreFailure → ReportSession
  | .tooLarge => s.problem .attachmentTooLarge (txt "attachment " ++ input.name)
  | .other => s.problem .sinkFailure (txt "cannot store attachment " ++ input.name)

/-- The bytes that are stored: those of the redacted text when the media type is textual. -/
def contentOf (input : AttachmentInput) (bytes : List ℕ) : List ℕ :=
  if isTextualMediaType input.mediaType then utf8 (host.redactText (host.decode bytes)) else bytes

/-- `attach(input, bytes)`. -/
def attach (s : ReportSession) (input : AttachmentInput) (bytes : List ℕ) : Answer Bool :=
  match acceptsSessionEvents s (txt "attachment " ++ input.name) with
  | (false, s) => (.ok false, s)
  | (true, s) =>
      let outcome := host.storeAttachment s.stored (contentOf host input bytes)
      let s := { s with stored := s.stored + 1 }
      match outcome with
      | .error e => (.ok false, storeFailed s input e)
      | .ok stored => emit host s (attachmentPayload input stored)

/-! ### Runs of calls -/

/-- A call on a session. -/
inductive Call where
  | emit (input : Payload)
  | attach (input : AttachmentInput) (bytes : List ℕ)
  | finish (outcome : SessionFinishedPayload)
  | finishRun
  | close

def call (s : ReportSession) : Call → Answer Bool
  | .emit input => emit host s input
  | .attach input bytes => attach host s input bytes
  | .finish outcome => finish host s outcome
  | .finishRun => finishRun host s
  | .close => close host s

/-- The session after a sequence of calls, whatever they answer. -/
def run (s : ReportSession) (calls : List Call) : ReportSession :=
  calls.foldl (fun s c => (call host s c).2) s

/-- `ReportSession.start(options, payload)`. -/
def start (payload : SessionStartedPayload) : Answer Bool :=
  emit host .new (.sessionStarted payload)

end session

end QeReport.Sdk

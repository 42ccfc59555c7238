import QeReport.Protocol.JavaCodec
import QeReport.Sdk.Session

/-! # The session of the Java binding

`ReportSession` of the Java binding, over the same state and the same outside: its outcomes are
records whose constructor holds the rules of an outcome, its collections are never null, and its
events are read back by the codec of the binding.  The codec writes the members the TypeScript
codec writes (`eventToObject`), and Jackson reads back the tree it wrote. -/

namespace QeReport.Sdk.Java

/-- `redactEvent(event)`: the event is written, its payload redacted and read back. -/
def redactEvent (redactText : Text → Text) (e : AnyEvent) : Read AnyEvent :=
  QeReport.Java.readRoot (walkPayload redactText (eventToObject e))

/-- `describe(state)`. -/
def describe : SessionState → Text
  | .active => txt "start"
  | .sessionFinished => txt "session.finished"
  | .runFinished => txt "run.finished"
  | .closed => txt "close"

section session
variable (host : Host)

/-! ### Writing one event -/

/-- `write(payload, reportSize)`. -/
def write (s : ReportSession) (payload : Payload) (reportSize : Bool) : Answer WriteAttempt :=
  match redactEvent host.redactText (.known (candidate host s payload)) with
  | .error e => (.error e, s.build)
  | .ok event =>
      let s := s.build
      let bytes := host.size event
      if bytes > host.maxEventBytes then
        (.ok ⟨.tooLarge, bytes⟩,
          if reportSize then s.drop.problem .eventTooLarge
            (txt "event " ++ payload.eventType.text ++ txt " is " ++ sizeText host bytes ++
              txt "; dropped")
          else s.drop)
      else if host.write s.tried then (.ok ⟨.written, bytes⟩, s.took event)
      else (.ok ⟨.sinkFailure, bytes⟩,
        s.refused.drop.problem .sinkFailure (txt "cannot write " ++ payload.eventType.text))

/-- `write(payload, true).result() == Written.WRITTEN`. -/
def writeOne (s : ReportSession) (payload : Payload) : Answer Bool :=
  match write host s payload true with
  | (.error e, s) => (.error e, s)
  | (.ok attempt, s) => (.ok (attempt.result == .written), s)

/-- `acceptsSessionEvents(what)`. -/
def acceptsSessionEvents (s : ReportSession) (what : Text) : Bool × ReportSession :=
  if s.terminalOutcomeLost then
    (false, s.drop.problem .terminalOutcomeNotWritten
      (what ++ txt " after a session outcome that could not be written; dropped"))
  else if s.lifecycle = .active then (true, s)
  else (false, s.drop.problem
    (if s.lifecycle = .runFinished then .runFinished else .sessionFinished)
    (what ++ txt " emitted after " ++ describe s.lifecycle ++ txt "; dropped"))

/-! ### Finishing -/

/-- The loop of `finish`: the outcome, then without its failures, then the status alone. -/
def finishLoop (status : SessionStatus) (outcome : SessionFinishedPayload) (s : ReportSession) :
    Answer Bool :=
  match write host s (.sessionFinished outcome) false with
  | (.error e, s) => (.error e, s)
  | (.ok ⟨.written, _⟩, s) => (.ok true, s.enter .sessionFinished)
  | (.ok ⟨.sinkFailure, _⟩, s) =>
      (.ok false, s.lose.problem .terminalOutcomeNotWritten
        (txt "session outcome " ++ status.text ++
          txt " could not be written because the sink failed; no session.finished is emitted and the session stays open"))
  | (.ok ⟨.tooLarge, bytes⟩, s) =>
      if hasFailures outcome then
        finishLoop status ⟨some status, outcome.rawStatus, some []⟩ (s.problem .eventTooLarge
          (txt "session.finished with its failures is " ++ sizeText host bytes ++
            txt "; retried without them"))
      else if outcome.rawStatus.isSome then
        finishLoop status ⟨some status, none, some []⟩ (s.problem .eventTooLarge
          (txt "session.finished with its rawStatus is " ++ sizeText host bytes ++
            txt "; retried without it"))
      else
        (.ok false, s.lose.problem .terminalOutcomeNotWritten
          (txt "session outcome " ++ status.text ++ txt " alone is " ++ sizeText host bytes ++
            txt " and cannot be written; no session.finished is emitted and the session stays open"))
termination_by reductions outcome
decreasing_by
  · simp_all [reductions, hasFailures]
  · simp_all [reductions, hasFailures]

/-- `finish(outcome)`. -/
def finish (s : ReportSession) (outcome : SessionFinishedPayload) : Answer Bool :=
  match acceptsSessionEvents s (txt "event session.finished") with
  | (false, s) => (.ok false, s)
  | (true, s) =>
      match outcome.status with
      | none =>
          match writeOne host s (.sessionFinished outcome) with
          | (.ok true, s) => (.ok true, s.enter .sessionFinished)
          | other => other
      | some status => finishLoop host status outcome s

/-- `SessionFinished.empty()`. -/
def emptyOutcome : SessionFinishedPayload := ⟨none, none, some []⟩

/-- The end of `finishRun`: `run.finished` itself. -/
def writeRunFinished (s : ReportSession) : Answer Bool :=
  if s.lifecycle ≠ .sessionFinished then
    (.ok false, s.drop.problem .runFinished
      (txt "run.finished emitted after " ++ describe s.lifecycle ++ txt "; dropped"))
  else
    match writeOne host s .runFinished with
    | (.ok true, s) => (.ok true, s.enter .runFinished)
    | other => other

/-- `finishRun()`. -/
def finishRun (s : ReportSession) : Answer Bool :=
  if s.terminalOutcomeLost then
    (.ok false, s.drop.problem .terminalOutcomeNotWritten
      (txt "run.finished after a session outcome that could not be written; dropped"))
  else if s.lifecycle = .active then
    match finish host s emptyOutcome with
    | (.ok true, s) => writeRunFinished host s
    | other => other
  else writeRunFinished host s

/-- `close()`. -/
def close (s : ReportSession) : Answer Bool :=
  if s.lifecycle = .closed then (.ok true, s)
  else if s.lifecycle = .active ∧ s.terminalOutcomeLost = false then
    match finish host s emptyOutcome with
    | (.error e, s) => (.error e, s)
    | (.ok _, s) => (.ok true, closeSink host s)
  else (.ok true, closeSink host s)

/-! ### Emitting and attaching -/

/-- `emit(payload)`. -/
def emit (s : ReportSession) (payload : Payload) : Answer Bool :=
  match payload with
  | .runFinished => finishRun host s
  | .sessionFinished outcome => finish host s outcome
  | payload =>
      match acceptsSessionEvents s (txt "event " ++ payload.eventType.text) with
      | (false, s) => (.ok false, s)
      | (true, s) => writeOne host s payload

/-- `MediaTypes.isTextual(mediaType)`; `trim()` takes off the units up to the space. -/
def isTextual (mediaType : Text) : Bool :=
  isTextualBase ((trimBy (· ≤ 0x20) (mediaType.takeWhile (fun u => u ≠ unit ';'))).map toLowerUnit)

/-- `getBytes(UTF_8)`: a lone surrogate is written as a question mark. -/
def getBytes : Text → List ℕ
  | [] => []
  | [u] => if isHighSurrogate u || isLowSurrogate u then [0x3F] else utf8Unit u
  | u :: v :: t =>
      if isHighSurrogate u && isLowSurrogate v then utf8 [u, v] ++ getBytes t
      else (if isHighSurrogate u || isLowSurrogate u then [0x3F] else utf8Unit u) ++ getBytes (v :: t)

/-- The bytes that are stored: those of the redacted text when the media type is textual. -/
def contentOf (input : AttachmentInput) (bytes : List ℕ) : List ℕ :=
  if isTextual input.mediaType then getBytes (host.redactText (host.decode bytes)) else bytes

/-- `attach(attemptId, stepId, name, mediaType, bytes)`. -/
def attach (s : ReportSession) (input : AttachmentInput) (bytes : List ℕ) : Answer Bool :=
  match acceptsSessionEvents s (txt "attachment " ++ input.name) with
  | (false, s) => (.ok false, s)
  | (true, s) =>
      let outcome := host.storeAttachment s.stored (contentOf host input bytes)
      let s := { s with stored := s.stored + 1 }
      match outcome with
      | .error e => (.ok false, storeFailed s input e)
      | .ok stored => emit host s (attachmentPayload input stored)

/-! ### Runs of calls -/

def call (s : ReportSession) : Call → Answer Bool
  | .emit input => emit host s input
  | .attach input bytes => attach host s input bytes
  | .finish outcome => finish host s outcome
  | .finishRun => finishRun host s
  | .close => close host s

/-- The session after a sequence of calls, whatever they answer. -/
def run (s : ReportSession) (calls : List Call) : ReportSession :=
  calls.foldl (fun s c => (call host s c).2) s

/-- `builder.start(payload)`. -/
def start (payload : SessionStartedPayload) : Answer Bool :=
  emit host .new (.sessionStarted payload)

end session

end QeReport.Sdk.Java

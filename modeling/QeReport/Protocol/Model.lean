import QeReport.Lib.Json

/-! # The event model

The nine event types of the protocol with their payloads, the envelope every event carries, and
the events of types this binding does not know (`UnknownEvent`), whose payload is kept as it was
read.  An absent optional property is `none`, and a `Record<string, string>` is the list of its
entries in the order of its properties. -/

namespace QeReport

/-! ### Words of the protocol -/

/-- The status of an attempt or a step. -/
inductive Status where
  | passed | failed | skipped | inconclusive
deriving DecidableEq

/-- The aggregate outcome a runner reports for a session. -/
inductive SessionStatus where
  | passed | failed | inconclusive
deriving DecidableEq

/-- What the test author declared the attempt should end with. -/
inductive ExpectedStatus where
  | passed | failed | skipped
deriving DecidableEq

/-- How much a historical identity is trusted to survive unrelated edits. -/
inductive HistoricalIdStability where
  | stable | uncertain | unavailable
deriving DecidableEq

inductive FailurePhase where
  | setup | test | teardown
deriving DecidableEq

def Status.text : Status → Text
  | .passed => txt "passed"
  | .failed => txt "failed"
  | .skipped => txt "skipped"
  | .inconclusive => txt "inconclusive"

def SessionStatus.text : SessionStatus → Text
  | .passed => txt "passed"
  | .failed => txt "failed"
  | .inconclusive => txt "inconclusive"

def ExpectedStatus.text : ExpectedStatus → Text
  | .passed => txt "passed"
  | .failed => txt "failed"
  | .skipped => txt "skipped"

def HistoricalIdStability.text : HistoricalIdStability → Text
  | .stable => txt "stable"
  | .uncertain => txt "uncertain"
  | .unavailable => txt "unavailable"

def FailurePhase.text : FailurePhase → Text
  | .setup => txt "setup"
  | .test => txt "test"
  | .teardown => txt "teardown"

def statuses : List Status := [.passed, .failed, .skipped, .inconclusive]

def sessionStatuses : List SessionStatus := [.passed, .failed, .inconclusive]

def expectedStatuses : List ExpectedStatus := [.passed, .failed, .skipped]

def historicalIdStabilities : List HistoricalIdStability := [.stable, .uncertain, .unavailable]

def failurePhases : List FailurePhase := [.setup, .test, .teardown]

/-! ### Parts of payloads -/

/-- The entries of a `Record<string, string>`. -/
abbrev Record := List (Text × Text)

structure Component where
  name : Text
  version : Option Text
deriving DecidableEq

structure Executor where
  name : Option Text
  buildId : Option Text
  buildUrl : Option Text
deriving DecidableEq

structure Source where
  repository : Option Text
  revision : Option Text
  branch : Option Text
deriving DecidableEq

/-- Where a test or step is defined. -/
structure Location where
  file : Text
  line : Option ℤ
  column : Option ℤ
deriving DecidableEq

structure PathSegment where
  kind : Text
  name : Text
deriving DecidableEq

structure Failure where
  message : Text
  type : Option Text
  stackTrace : Option Text
  phase : Option FailurePhase
  location : Option Location
deriving DecidableEq

/-- The test an attempt executes. -/
structure TestCase where
  executionId : Text
  historicalId : Option Text
  historicalIdStability : HistoricalIdStability
  displayName : Text
  path : List PathSegment
  location : Option Location
  tags : Option (List Text)
  labels : Option Record
deriving DecidableEq

/-! ### Payloads -/

structure SessionStartedPayload where
  producer : Component
  runner : Option Component
  environment : Option Record
  executor : Option Executor
  source : Option Source
  labels : Option Record
deriving DecidableEq

structure SessionFinishedPayload where
  status : Option SessionStatus
  rawStatus : Option Text
  failures : Option (List Failure)
deriving DecidableEq

structure AttemptStartedPayload where
  attemptId : Text
  attemptNumber : ℕ
  test : TestCase
deriving DecidableEq

structure AttemptFinishedPayload where
  attemptId : Text
  status : Status
  rawStatus : Option Text
  expectedStatus : Option ExpectedStatus
  durationMs : Option ℤ
  failures : Option (List Failure)
deriving DecidableEq

structure StepStartedPayload where
  stepId : Text
  attemptId : Text
  parentStepId : Option Text
  name : Text
  kind : Option Text
  location : Option Location
deriving DecidableEq

structure StepFinishedPayload where
  stepId : Text
  attemptId : Text
  status : Status
  rawStatus : Option Text
  durationMs : Option ℤ
  failures : Option (List Failure)
deriving DecidableEq

structure AttachmentAddedPayload where
  attemptId : Text
  stepId : Option Text
  name : Text
  mediaType : Text
  sizeBytes : ℤ
  sha256 : Text
deriving DecidableEq

/-- A failure at a non-test scope of the runner hierarchy. -/
structure ScopeFailedPayload where
  path : List PathSegment
  displayName : Option Text
  rawStatus : Option Text
  location : Option Location
  failures : List Failure
deriving DecidableEq

/-- The payload of a known event; the constructor is its type. -/
inductive Payload where
  | sessionStarted (p : SessionStartedPayload)
  | sessionFinished (p : SessionFinishedPayload)
  | runFinished
  | attemptStarted (p : AttemptStartedPayload)
  | attemptFinished (p : AttemptFinishedPayload)
  | stepStarted (p : StepStartedPayload)
  | stepFinished (p : StepFinishedPayload)
  | attachmentAdded (p : AttachmentAddedPayload)
  | scopeFailed (p : ScopeFailedPayload)
deriving DecidableEq

/-! ### Events -/

inductive EventType where
  | sessionStarted | sessionFinished | runFinished | attemptStarted | attemptFinished
  | stepStarted | stepFinished | attachmentAdded | scopeFailed
deriving DecidableEq

def EventType.text : EventType → Text
  | .sessionStarted => txt "session.started"
  | .sessionFinished => txt "session.finished"
  | .runFinished => txt "run.finished"
  | .attemptStarted => txt "attempt.started"
  | .attemptFinished => txt "attempt.finished"
  | .stepStarted => txt "step.started"
  | .stepFinished => txt "step.finished"
  | .attachmentAdded => txt "attachment.added"
  | .scopeFailed => txt "scope.failed"

def eventTypes : List EventType :=
  [.sessionStarted, .sessionFinished, .runFinished, .attemptStarted, .attemptFinished,
    .stepStarted, .stepFinished, .attachmentAdded, .scopeFailed]

def Payload.eventType : Payload → EventType
  | .sessionStarted _ => .sessionStarted
  | .sessionFinished _ => .sessionFinished
  | .runFinished => .runFinished
  | .attemptStarted _ => .attemptStarted
  | .attemptFinished _ => .attemptFinished
  | .stepStarted _ => .stepStarted
  | .stepFinished _ => .stepFinished
  | .attachmentAdded _ => .attachmentAdded
  | .scopeFailed _ => .scopeFailed

/-- Fields common to every event. -/
structure Envelope where
  protocolVersion : Text
  eventId : Text
  runId : Text
  sessionId : Text
  sequence : ℕ
  occurredAt : Text
  ignorable : Option Bool
deriving DecidableEq

/-- An event of a known type. -/
structure Event extends Envelope where
  payload : Payload
deriving DecidableEq

/-- An event of a type this binding does not know, marked ignorable by its producer. -/
structure UnknownEvent extends Envelope where
  eventType : Text
  payload : List (Text × Json)

/-- What the codec reads: `Event | UnknownEvent`. -/
inductive AnyEvent where
  | known (e : Event)
  | unknown (e : UnknownEvent)

def AnyEvent.envelope : AnyEvent → Envelope
  | .known e => e.toEnvelope
  | .unknown e => e.toEnvelope

/-- `event.eventType`. -/
def AnyEvent.eventType : AnyEvent → Text
  | .known e => e.payload.eventType.text
  | .unknown e => e.eventType

/-- `isKnownEvent(event) ? event.eventType : undefined`. -/
def AnyEvent.knownType : AnyEvent → Option EventType
  | .known e => some e.payload.eventType
  | .unknown _ => none

/-- The known event, when it is one. -/
def AnyEvent.known? : AnyEvent → Option Event
  | .known e => some e
  | .unknown _ => none

/-- A serialised event in UTF-8 bytes, with its newline. -/
def maxEventBytes : ℕ := 1048576

end QeReport

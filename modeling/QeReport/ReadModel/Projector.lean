import QeReport.Lib.Fresh
import QeReport.Lib.JsMap
import QeReport.ReadModel.Model

/-! # The projector

`projectRun` turns the accepted events of one valid run into an immutable run.  It goes through
the events by session id and sequence, the only order the protocol defines, and an event that
names an attempt, a step or a session not met before is skipped without a word. -/

namespace QeReport

/-- An event of one type: its envelope and its payload. -/
structure EventOf (P : Type) extends Envelope where
  payload : P
deriving DecidableEq

/-- A snapshot whose executions contradict themselves. -/
structure AmbiguousRunError where
  detail : AmbiguityDetail
  executionId : Text
  message : Text
deriving DecidableEq

/-- What `projectRun` throws. -/
inductive ProjectionError where
  | error (message : Text)
  | ambiguous (e : AmbiguousRunError)
deriving DecidableEq

namespace Projector

/-! ### The state of the loop -/

structure SessionState where
  started : EventOf SessionStartedPayload
  finished : Option (EventOf SessionFinishedPayload)
  /-- A set, in insertion order. -/
  executionIds : List Text

structure StepState where
  started : EventOf StepStartedPayload
  finished : Option (EventOf StepFinishedPayload)

structure AttemptState where
  started : EventOf AttemptStartedPayload
  finished : Option (EventOf AttemptFinishedPayload)
  steps : List StepState
  /-- Where in `steps` the state of a step stands. -/
  stepsById : JsMap Text ℕ
  attachments : List AttachmentReference

structure Emitted where
  sessionId : Text
  sequence : ℕ
  reference : AttachmentReference

/-- The variables of the loop over the events. -/
structure State where
  sessions : JsMap Text SessionState
  attempts : JsMap Text AttemptState
  scopeFailures : List ScopeFailure
  emitted : List Emitted
  runId : Option Text

def State.start : State := ⟨.empty, .empty, [], [], none⟩

/-- By session id, then by sequence. -/
def compareEvents (a b : Event) : Ordering :=
  (compare a.sessionId b.sessionId).then (compare a.sequence b.sequence)

def ordered (events : List Event) : List Event := sortBy compareEvents events

def reference (e : Envelope) (p : AttachmentAddedPayload) : AttachmentReference where
  sessionId := e.sessionId
  attemptId := p.attemptId
  stepId := p.stepId
  name := p.name
  mediaType := p.mediaType
  sizeBytes := p.sizeBytes
  sha256 := p.sha256

def scopeFailure (e : Envelope) (p : ScopeFailedPayload) : ScopeFailure where
  sessionId := e.sessionId
  occurredAt := e.occurredAt
  path := p.path
  displayName := p.displayName
  rawStatus := p.rawStatus
  location := p.location
  failures := p.failures

/-- `set.add(x)`. -/
def addTo (set : List Text) (x : Text) : List Text := if x ∈ set then set else set ++ [x]

/-- A step that starts is the last of `steps` and the one its id now finds. -/
def AttemptState.addStep (a : AttemptState) (e : EventOf StepStartedPayload) : AttemptState :=
  { a with
    steps := a.steps ++ [⟨e, none⟩]
    stepsById := a.stepsById.set e.payload.stepId a.steps.length }

def AttemptState.finishStep (a : AttemptState) (e : EventOf StepFinishedPayload) : AttemptState :=
  match a.stepsById.get? e.payload.stepId with
  | none => a
  | some i => { a with steps := a.steps.modify i (fun s => { s with finished := some e }) }

/-- The event switch. -/
def projectPayload (st : State) (e : Envelope) : Payload → State
  | .sessionStarted p =>
      { st with sessions := st.sessions.set e.sessionId ⟨⟨e, p⟩, none, []⟩ }
  | .sessionFinished p =>
      { st with
        sessions := st.sessions.update e.sessionId (fun s => { s with finished := some ⟨e, p⟩ }) }
  | .runFinished => st
  | .attemptStarted p =>
      { st with
        attempts := st.attempts.set p.attemptId ⟨⟨e, p⟩, none, [], .empty, []⟩
        sessions := st.sessions.update e.sessionId
          (fun s => { s with executionIds := addTo s.executionIds p.test.executionId }) }
  | .attemptFinished p =>
      { st with
        attempts := st.attempts.update p.attemptId (fun a => { a with finished := some ⟨e, p⟩ }) }
  | .stepStarted p =>
      { st with attempts := st.attempts.update p.attemptId (fun a => a.addStep ⟨e, p⟩) }
  | .stepFinished p =>
      { st with attempts := st.attempts.update p.attemptId (fun a => a.finishStep ⟨e, p⟩) }
  | .attachmentAdded p =>
      { st with
        attempts := st.attempts.update p.attemptId
          (fun a => { a with attachments := a.attachments ++ [reference e p] })
        emitted := st.emitted ++ [⟨e.sessionId, e.sequence, reference e p⟩] }
  | .scopeFailed p => { st with scopeFailures := st.scopeFailures ++ [scopeFailure e p] }

/-- One turn of the loop. -/
def projectEvent (st : State) (e : Event) : State :=
  projectPayload { st with runId := some (st.runId.getD e.runId) } e.toEnvelope e.payload

def projectEvents (events : List Event) : State := events.foldl projectEvent .start

/-! ### The parts of a run -/

def session (s : SessionState) : ProjectedSession where
  sessionId := s.started.sessionId
  startedAt := s.started.occurredAt
  producer := s.started.payload.producer
  runner := s.started.payload.runner
  environment := s.started.payload.environment
  executor := s.started.payload.executor
  source := s.started.payload.source
  labels := s.started.payload.labels
  finished := s.finished.isSome
  finishedAt := s.finished.map (fun f => f.occurredAt)
  status := s.finished.bind (fun f => f.payload.status)
  rawStatus := s.finished.bind (fun f => f.payload.rawStatus)
  failures := (s.finished.bind (fun f => f.payload.failures)).getD []
  executionIds := sortBy compare s.executionIds

def step (s : StepState) : Step where
  stepId := s.started.payload.stepId
  parentStepId := s.started.payload.parentStepId
  name := s.started.payload.name
  kind := s.started.payload.kind
  location := s.started.payload.location
  startedAt := s.started.occurredAt
  finished := s.finished.isSome
  finishedAt := s.finished.map (fun f => f.occurredAt)
  status := s.finished.map (fun f => f.payload.status)
  rawStatus := s.finished.bind (fun f => f.payload.rawStatus)
  durationMs := s.finished.bind (fun f => f.payload.durationMs)
  failures := (s.finished.bind (fun f => f.payload.failures)).getD []

def attempt (a : AttemptState) : Attempt where
  attemptId := a.started.payload.attemptId
  attemptNumber := a.started.payload.attemptNumber
  sessionId := a.started.sessionId
  startedAt := a.started.occurredAt
  test := a.started.payload.test
  finished := a.finished.isSome
  finishedAt := a.finished.map (fun f => f.occurredAt)
  status := a.finished.map (fun f => f.payload.status)
  rawStatus := a.finished.bind (fun f => f.payload.rawStatus)
  expectedStatus := a.finished.bind (fun f => f.payload.expectedStatus)
  durationMs := a.finished.bind (fun f => f.payload.durationMs)
  failures := (a.finished.bind (fun f => f.payload.failures)).getD []
  steps := a.steps.map step
  attachments := a.attachments

def expected (a : Attempt) : ExpectedStatus := a.expectedStatus.getD .passed

/-- The attempt with the higher number, the earlier one of two with the same. -/
def laterAttempt (f a : Attempt) : Attempt := if a.attemptNumber > f.attemptNumber then a else f

/-- The flakiness rule over the attempts of one execution. -/
def isFlaky : List Attempt → Bool
  | [] => false
  | [_] => false
  | first :: rest =>
      let finalAttempt := rest.foldl laterAttempt first
      if !finalAttempt.finished then false
      else if finalAttempt.status ≠ some .passed ∨ expected finalAttempt ≠ .passed then false
      -- The final attempt passed, so comparing references or values makes no difference here.
      else (first :: rest).any (fun a =>
        a != finalAttempt && a.finished && a.status == some .failed && expected a == .passed)

/-! ### Grouping attempts -/

/-- Two neighbours with the same number. -/
def sameNumber : List Attempt → Option (Attempt × Attempt)
  | previous :: current :: rest =>
      if previous.attemptNumber = current.attemptNumber then some (previous, current)
      else sameNumber (current :: rest)
  | _ => none

/-- The runner name that the session of an attempt declares. -/
def runnerOf (sessions : JsMap Text SessionState) (a : Attempt) : Option Text :=
  ((sessions.get? a.sessionId).bind (fun s => s.started.payload.runner)).map Component.name

def ambiguous (detail : AmbiguityDetail) (executionId message : Text) : ProjectionError :=
  .ambiguous ⟨detail, executionId, message⟩

/-- The body of the loop over the groups: one execution from its attempts. -/
def groupExecution (sessions : JsMap Text SessionState) (executionId : Text)
    (states : List AttemptState) : Except ProjectionError TestExecution :=
  let list := sortBy (fun a b => compare a.attemptNumber b.attemptNumber) (states.map attempt)
  match sameNumber list with
  | some (previous, current) =>
      .error (ambiguous .duplicateAttemptNumber executionId
        (txt "execution " ++ executionId ++ txt " has two attempts numbered " ++
          natText current.attemptNumber ++ txt " (" ++ previous.attemptId ++ txt ", " ++
          current.attemptId ++ txt "); the final attempt is undefined"))
  | none =>
      match list with
      | [] => .error (.error (txt "Cannot read properties of undefined (reading 'test')"))
      | first :: rest =>
          match list.find? (fun a => a.test.historicalId ≠ first.test.historicalId ∨
              a.test.historicalIdStability ≠ first.test.historicalIdStability) with
          | some a =>
              .error (ambiguous .historicalIdentityChanged executionId
                (txt "execution " ++ executionId ++
                  txt " changes historical identity between attempts " ++ first.attemptId ++
                  txt " and " ++ a.attemptId))
          | none =>
              let runnerNames := fresh id (list.map (runnerOf sessions))
              if runnerNames.length > 1 then
                .error (ambiguous .executionRunnerChanged executionId
                  (txt "execution " ++ executionId ++
                    txt " spans sessions that declare different runners"))
              else
                let finalAttempt := rest.getLast?.getD first
                .ok
                  { executionId := executionId
                    runnerName := runnerNames.head?.join
                    test := first.test
                    attempts := list
                    finalAttempt := finalAttempt
                    complete := list.all (fun a => a.finished)
                    finalStatus := finalAttempt.status
                    flaky := isFlaky list }

/-- The attempts by execution id. -/
def groups (attempts : JsMap Text AttemptState) : List (Text × List AttemptState) :=
  sortBy (fun a b => compare a.1 b.1)
    (JsMap.groupBy (fun a => a.started.payload.test.executionId) id attempts.values).entries

def groupExecutions (attempts : JsMap Text AttemptState) (sessions : JsMap Text SessionState) :
    Except ProjectionError (List TestExecution) :=
  (groups attempts).mapM (fun g => groupExecution sessions g.1 g.2)

def compareEmitted (a b : Emitted) : Ordering :=
  (compare a.sessionId b.sessionId).then (compare a.sequence b.sequence)

/-- The run that the state of the loop and the executions give. -/
def runOf (projectId runId runDirectory : Text) (summary : Summary) (st : State)
    (executions : List TestExecution) : ProjectedRun where
  projectId := projectId
  runId := runId
  runDirectory := runDirectory
  validator := ⟨summary.complete, summary.closed, summary.verdict, summary.ignored,
    summary.duplicates⟩
  sessions := sortBy (fun a b => compare a.sessionId b.sessionId) (st.sessions.values.map session)
  executions := executions
  scopeFailures := st.scopeFailures
  attachments := (sortBy compareEmitted st.emitted).map (fun e => e.reference)

end Projector

open Projector in
/-- `projectRun(projectId, runDirectory, snapshot)`. -/
def projectRun (projectId runDirectory : Text) (snapshot : ValidatedRun) :
    Except ProjectionError ProjectedRun :=
  if !snapshot.report.valid then .error (.error (txt "only a valid run can be projected"))
  else
    let st := projectEvents (ordered snapshot.events)
    match st.runId with
    | none => .error (.error (txt "a valid run carries at least one event"))
    | some runId => do
        let executions ← groupExecutions st.attempts st.sessions
        return runOf projectId runId runDirectory snapshot.report.summary st executions

end QeReport

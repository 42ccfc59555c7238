import QeReport.Protocol.Model
import QeReport.Validator.Report

/-! # The projected run

The immutable view of one run that the queries read: its sessions, its test executions with
their attempts and steps, the failures of scopes and the attachments.  Every list has the order
its consumers rely on, and what the validator concluded is copied, not recomputed. -/

namespace QeReport

/-- What the validator concluded about the run. -/
structure ValidatorFacts where
  complete : Bool
  closed : Bool
  verdict : Verdict
  ignoredEvents : ℕ
  duplicateEvents : ℕ
deriving DecidableEq

/-- One producer process. -/
structure ProjectedSession where
  sessionId : Text
  startedAt : Text
  producer : Component
  runner : Option Component
  environment : Option Record
  executor : Option Executor
  source : Option Source
  labels : Option Record
  finished : Bool
  finishedAt : Option Text
  status : Option SessionStatus
  rawStatus : Option Text
  failures : List Failure
  /-- Executions with at least one attempt in this session, by execution id. -/
  executionIds : List Text
deriving DecidableEq

structure Step where
  stepId : Text
  parentStepId : Option Text
  name : Text
  kind : Option Text
  location : Option Location
  startedAt : Text
  finished : Bool
  finishedAt : Option Text
  status : Option Status
  rawStatus : Option Text
  durationMs : Option ℤ
  failures : List Failure
deriving DecidableEq

/-- A reference to stored bytes: where they were used. -/
structure AttachmentReference where
  sessionId : Text
  attemptId : Text
  stepId : Option Text
  name : Text
  mediaType : Text
  sizeBytes : ℤ
  sha256 : Text
deriving DecidableEq

structure Attempt where
  attemptId : Text
  attemptNumber : ℕ
  sessionId : Text
  startedAt : Text
  test : TestCase
  finished : Bool
  finishedAt : Option Text
  status : Option Status
  rawStatus : Option Text
  expectedStatus : Option ExpectedStatus
  durationMs : Option ℤ
  failures : List Failure
  /-- In start order. -/
  steps : List Step
  /-- In emission order, those of steps included. -/
  attachments : List AttachmentReference
deriving DecidableEq

/-- The attempts of one logical test within a run. -/
structure TestExecution where
  executionId : Text
  runnerName : Option Text
  /-- As the lowest-numbered attempt describes it. -/
  test : TestCase
  /-- By attempt number. -/
  attempts : List Attempt
  finalAttempt : Attempt
  complete : Bool
  finalStatus : Option Status
  flaky : Bool
deriving DecidableEq

/-- A failure of a non-test scope. -/
structure ScopeFailure where
  sessionId : Text
  occurredAt : Text
  path : List PathSegment
  displayName : Option Text
  rawStatus : Option Text
  location : Option Location
  failures : List Failure
deriving DecidableEq

/-- One logical run. -/
structure ProjectedRun where
  projectId : Text
  runId : Text
  /-- A locator, never compared. -/
  runDirectory : Text
  validator : ValidatorFacts
  sessions : List ProjectedSession
  executions : List TestExecution
  scopeFailures : List ScopeFailure
  attachments : List AttachmentReference
deriving DecidableEq

/-- What makes an execution contradict itself. -/
inductive AmbiguityDetail where
  | duplicateAttemptNumber | historicalIdentityChanged | executionRunnerChanged
deriving DecidableEq

end QeReport

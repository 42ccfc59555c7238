import QeReport.Protocol.Model

/-! # Diagnostics and reports

What the validator answers: diagnostics with their codes and lifecycle details, the summary of
a run with its verdict, the report, and the source lines a durable store keeps. -/

namespace QeReport

/-! ### Diagnostics -/

inductive Severity where
  | error | info
deriving DecidableEq

inductive DiagnosticCode where
  | malformedJson | schemaInvalid | unsupportedProtocolVersion | unsupportedEventType
  | eventTooLarge | lifecycleInvalid | attachmentMissing | attachmentSizeMismatch
  | attachmentHashMismatch | unsafeFilesystemEntry | ignoredEventType | duplicateEvent
  | incompleteRun
deriving DecidableEq

inductive LifecycleDetail where
  | runIdMismatch | sessionNotStarted | sessionAlreadyStarted | sessionAlreadyFinished
  | sessionFileMixed | sequenceGap | duplicateEventId | eventAfterRunFinished
  | duplicateRunFinished | sessionNotFinishedAtRunEnd | duplicateAttemptId
  | duplicateAttemptNumber | historicalIdentityChanged | executionRunnerChanged
  | attemptNotStarted | duplicateAttemptFinished | attemptNotFinishedAtSessionEnd
  | historicalIdWithoutRunner | stepOutsideAttempt | stepParentUnknown | duplicateStepId
  | stepNotStarted | duplicateStepFinished | stepNotFinishedAtAttemptEnd
  | attachmentAttemptUnknown | attachmentAfterAttemptFinished | attachmentStepUnknown
deriving DecidableEq

def DiagnosticCode.text : DiagnosticCode → Text
  | .malformedJson => txt "MALFORMED_JSON"
  | .schemaInvalid => txt "SCHEMA_INVALID"
  | .unsupportedProtocolVersion => txt "UNSUPPORTED_PROTOCOL_VERSION"
  | .unsupportedEventType => txt "UNSUPPORTED_EVENT_TYPE"
  | .eventTooLarge => txt "EVENT_TOO_LARGE"
  | .lifecycleInvalid => txt "LIFECYCLE_INVALID"
  | .attachmentMissing => txt "ATTACHMENT_MISSING"
  | .attachmentSizeMismatch => txt "ATTACHMENT_SIZE_MISMATCH"
  | .attachmentHashMismatch => txt "ATTACHMENT_HASH_MISMATCH"
  | .unsafeFilesystemEntry => txt "UNSAFE_FILESYSTEM_ENTRY"
  | .ignoredEventType => txt "IGNORED_EVENT_TYPE"
  | .duplicateEvent => txt "DUPLICATE_EVENT"
  | .incompleteRun => txt "INCOMPLETE_RUN"

def LifecycleDetail.text : LifecycleDetail → Text
  | .runIdMismatch => txt "RUN_ID_MISMATCH"
  | .sessionNotStarted => txt "SESSION_NOT_STARTED"
  | .sessionAlreadyStarted => txt "SESSION_ALREADY_STARTED"
  | .sessionAlreadyFinished => txt "SESSION_ALREADY_FINISHED"
  | .sessionFileMixed => txt "SESSION_FILE_MIXED"
  | .sequenceGap => txt "SEQUENCE_GAP"
  | .duplicateEventId => txt "DUPLICATE_EVENT_ID"
  | .eventAfterRunFinished => txt "EVENT_AFTER_RUN_FINISHED"
  | .duplicateRunFinished => txt "DUPLICATE_RUN_FINISHED"
  | .sessionNotFinishedAtRunEnd => txt "SESSION_NOT_FINISHED_AT_RUN_END"
  | .duplicateAttemptId => txt "DUPLICATE_ATTEMPT_ID"
  | .duplicateAttemptNumber => txt "DUPLICATE_ATTEMPT_NUMBER"
  | .historicalIdentityChanged => txt "HISTORICAL_IDENTITY_CHANGED"
  | .executionRunnerChanged => txt "EXECUTION_RUNNER_CHANGED"
  | .attemptNotStarted => txt "ATTEMPT_NOT_STARTED"
  | .duplicateAttemptFinished => txt "DUPLICATE_ATTEMPT_FINISHED"
  | .attemptNotFinishedAtSessionEnd => txt "ATTEMPT_NOT_FINISHED_AT_SESSION_END"
  | .historicalIdWithoutRunner => txt "HISTORICAL_ID_WITHOUT_RUNNER"
  | .stepOutsideAttempt => txt "STEP_OUTSIDE_ATTEMPT"
  | .stepParentUnknown => txt "STEP_PARENT_UNKNOWN"
  | .duplicateStepId => txt "DUPLICATE_STEP_ID"
  | .stepNotStarted => txt "STEP_NOT_STARTED"
  | .duplicateStepFinished => txt "DUPLICATE_STEP_FINISHED"
  | .stepNotFinishedAtAttemptEnd => txt "STEP_NOT_FINISHED_AT_ATTEMPT_END"
  | .attachmentAttemptUnknown => txt "ATTACHMENT_ATTEMPT_UNKNOWN"
  | .attachmentAfterAttemptFinished => txt "ATTACHMENT_AFTER_ATTEMPT_FINISHED"
  | .attachmentStepUnknown => txt "ATTACHMENT_STEP_UNKNOWN"

structure Diagnostic where
  severity : Severity
  code : DiagnosticCode
  file : Text
  line : ℕ
  eventId : Option Text
  pointer : Option Text
  detail : Option LifecycleDetail
  message : Text
deriving DecidableEq

/-- No diagnostic of the list is an error. -/
def ErrorFree (ds : List Diagnostic) : Prop := ∀ d ∈ ds, d.severity ≠ .error

instance (ds : List Diagnostic) : Decidable (ErrorFree ds) := List.decidableBAll ..

theorem errorFree_nil : ErrorFree [] := by simp [ErrorFree]

theorem errorFree_append {ds es : List Diagnostic} :
    ErrorFree (ds ++ es) ↔ ErrorFree ds ∧ ErrorFree es := by
  simp only [ErrorFree, List.mem_append, or_imp, forall_and]

theorem errorFree_singleton {d : Diagnostic} : ErrorFree [d] ↔ d.severity ≠ .error := by
  simp [ErrorFree]

/-! ### Reports -/

inductive Verdict where
  | passed | failed | inconclusive | incomplete
deriving DecidableEq

structure Summary where
  files : ℕ
  events : ℕ
  sessions : ℕ
  attempts : ℕ
  steps : ℕ
  attachments : ℕ
  failedAttempts : ℕ
  scopeFailures : ℕ
  failedSessions : ℕ
  inconclusiveSessions : ℕ
  sessionFailures : ℕ
  ignored : ℕ
  duplicates : ℕ
  complete : Bool
  closed : Bool
  verdict : Verdict
deriving DecidableEq

structure Report where
  valid : Bool
  diagnostics : List Diagnostic
  summary : Summary
deriving DecidableEq

structure ValidateOptions where
  attachmentsDir : Option Text
  requireComplete : Bool
  maxEventBytes : Option ℕ
  retainEvents : Bool
  retainSourceLines : Bool

inductive Disposition where
  | accepted | ignored | duplicate
deriving DecidableEq

/-- One line of protocol source as validation accepted it. -/
structure ValidatedSourceLine where
  rawLine : Text
  eventId : Text
  runId : Text
  sessionId : Text
  sequence : ℕ
  protocolVersion : Text
  eventType : Text
  canonicalSha256 : Text
  disposition : Disposition
  sourceFile : Text
  sourceLine : ℕ
deriving DecidableEq

/-- A validated run: the report, the accepted events and the source lines. -/
structure ValidatedRun where
  report : Report
  events : List Event
  sourceLines : List ValidatedSourceLine
deriving DecidableEq

end QeReport

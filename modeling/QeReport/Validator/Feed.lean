import QeReport.Lib.JsMap
import QeReport.Protocol.Codec
import QeReport.Validator.Canonical
import QeReport.Validator.Report

/-! # Feeding lines to a validator

The state of a `RunValidator` and its `feed`.  `Books` is what the validator knows of the run
so far, `Here` what it knows of the file it is reading; a line turns both into new ones and adds
diagnostics, which are only ever appended.

`Runtime` is what the validator takes from outside: the JSON parser, the compiled schema (one
validator for the envelope and one for each event type) and SHA-256. -/

namespace QeReport

/-- The first error of a schema check, as far as it is shown. -/
structure ErrorObject where
  instancePath : Text
  message : Option Text
  missingProperty : Option Text
deriving DecidableEq

/-- `JSON.parse` with the message of its error, the compiled schema with its errors, and
SHA-256 of bytes in hexadecimal. -/
structure Runtime where
  parse : Text → Except Text Json
  validate : Option EventType → Json → Option (List ErrorObject)
  sha256 : List ℕ → Text

/-! ### The bookkeeping -/

structure SessionState where
  finished : Bool
  lastSequence : ℕ
  runnerName : Option Text
  /-- Made for an event that came before its session.started. -/
  synthesized : Bool

structure AttemptState where
  session : Text
  executionId : Text
  attemptNumber : ℕ
  inconclusive : Bool
  finished : Bool
  unexpected : Bool
  steps : JsMap Text Bool

/-- Where an event stands. -/
structure Place where
  file : Text
  line : ℕ
  eventId : Text

structure AttemptPlace extends Place where
  attemptId : Text

/-- What every attempt of one execution must agree on. -/
structure ExecutionState where
  attemptNumbers : JsMap ℕ AttemptPlace
  historicalId : Option Text
  historicalIdStability : HistoricalIdStability
  runnerName : Option Text
  runnerKnown : Bool
  reference : AttemptPlace

structure DeclaredAttachment extends Place where
  sha256 : Text
  sizeBytes : ℤ

/-- The fields of a `RunValidator` apart from its diagnostics. -/
structure Books where
  seen : JsMap Text Text
  sessions : JsMap Text SessionState
  attempts : JsMap Text AttemptState
  executions : JsMap Text ExecutionState
  attachments : List DeclaredAttachment
  accepted : List Event
  source : List ValidatedSourceLine
  runId : Option Text
  runFinished : Option Place
  files : ℕ
  events : ℕ
  ignored : ℕ
  duplicates : ℕ
  steps : ℕ
  scopeFailures : ℕ
  failedAttempts : ℕ
  failedSessions : ℕ
  inconclusiveSessions : ℕ
  sessionFailures : ℕ

/-- The bookkeeping of a new validator. -/
def Books.start : Books where
  seen := .empty
  sessions := .empty
  attempts := .empty
  executions := .empty
  attachments := []
  accepted := []
  source := []
  runId := none
  runFinished := none
  files := 0
  events := 0
  ignored := 0
  duplicates := 0
  steps := 0
  scopeFailures := 0
  failedAttempts := 0
  failedSessions := 0
  inconclusiveSessions := 0
  sessionFailures := 0

/-- `session.lastSequence = sequence`. -/
def SessionState.advance (session : SessionState) (sequence : ℕ) : SessionState :=
  { session with lastSequence := sequence }

/-- `sessions.set(id, session)`. -/
def Books.putSession (b : Books) (id : Text) (session : SessionState) : Books :=
  { b with sessions := b.sessions.set id session }

/-- The local variables of one `feed`. -/
structure Here where
  line : ℕ
  fileSession : Option Text
  closedHere : Bool
  abandoned : Bool

def Here.start : Here := ⟨0, none, false, false⟩

/-- A validator: its bookkeeping and the diagnostics so far. -/
structure RunValidator where
  books : Books
  diagnostics : List Diagnostic

def RunValidator.start : RunValidator := ⟨.start, []⟩

/-- What one line gives: the diagnostics it adds and what it leaves behind. -/
structure Outcome where
  diagnostics : List Diagnostic
  books : Books
  here : Here

/-! ### Diagnostics of a line -/

/-- `lifecycle(detail, message, eventId)` at a place. -/
def lifecycle (at_ : Place) (detail : LifecycleDetail) (message : Text) : Diagnostic where
  severity := .error
  code := .lifecycleInvalid
  file := at_.file
  line := at_.line
  eventId := some at_.eventId
  pointer := none
  detail := some detail
  message := message

/-- The diagnostic when the condition holds. -/
def check (condition : Bool) (d : Diagnostic) : List Diagnostic := if condition then [d] else []

def lineError (file : Text) (line : ℕ) (code : DiagnosticCode) (message : Text)
    (eventId pointer : Option Text) : Diagnostic where
  severity := .error
  code := code
  file := file
  line := line
  eventId := eventId
  pointer := pointer
  detail := none
  message := message

def lineInfo (at_ : Place) (code : DiagnosticCode) (message : Text) : Diagnostic where
  severity := .info
  code := code
  file := at_.file
  line := at_.line
  eventId := some at_.eventId
  pointer := none
  detail := none
  message := message

/-! ### Reading a line -/

/-- A line that was read: its event, the canonical text of its value, and the line itself. -/
structure Reading where
  event : AnyEvent
  key : Text
  raw : Text

def protocolCode : ProtocolErrorCode → DiagnosticCode
  | .malformedJson => .malformedJson
  | .schemaInvalid => .schemaInvalid
  | .unsupportedProtocolVersion => .unsupportedProtocolVersion
  | .unsupportedEventType => .unsupportedEventType

/-- Pointer and message of a failed schema check. -/
def firstError : List ErrorObject → Text × Text
  | [] => ([], txt "schema violation")
  | e :: _ =>
      let extra := match e.missingProperty with
        | some p => txt " '" ++ p ++ txt "'"
        | none => []
      let shownPath := if e.instancePath.isEmpty then txt "/" else e.instancePath
      (e.instancePath, shownPath ++ txt " " ++ e.message.getD (txt "invalid") ++ extra)

/-- Size, JSON, codec and schema: the checks before the duplicate check. -/
def readLine (rt : Runtime) (limit : ℕ) (file : Text) (line : ℕ) (raw : Text) :
    Except Diagnostic Reading :=
  if byteLength raw + 1 > limit then
    .error (lineError file line .eventTooLarge
      (txt "event is " ++ natText (byteLength raw + 1) ++ txt " bytes, limit " ++ natText limit)
      none none)
  else
    match rt.parse raw with
    | .error message =>
        .error (lineError file line .malformedJson (txt "not JSON: " ++ message) none none)
    | .ok parsedJson =>
        match eventFromObject parsedJson with
        | .error e => .error (lineError file line (protocolCode e.code) e.message none e.pointer)
        | .ok event =>
            match rt.validate event.knownType parsedJson with
            | some errors =>
                let (pointer, message) := firstError errors
                .error (lineError file line .schemaInvalid message (some event.envelope.eventId)
                  (some pointer))
            | none => .ok ⟨event, canonical parsedJson, raw⟩

/-! ### The event switch -/

/-- `session.finished`. -/
def sessionFinished (at_ : Place) (e : Envelope) (session : SessionState)
    (p : SessionFinishedPayload) (b : Books) : List Diagnostic × Books :=
  (b.attempts.entries.flatMap (fun (id, a) =>
      check (a.session = e.sessionId && !a.finished)
        (lifecycle at_ .attemptNotFinishedAtSessionEnd (txt "attempt " ++ id ++ txt " still open"))),
    { b with
      sessions := b.sessions.set e.sessionId { session with finished := true }
      failedSessions := if p.status = some .failed then b.failedSessions + 1 else b.failedSessions
      inconclusiveSessions :=
        if p.status = some .inconclusive then b.inconclusiveSessions + 1
        else b.inconclusiveSessions
      sessionFailures := b.sessionFailures + (p.failures.getD []).length })

/-- `run.finished`. -/
def runFinished (at_ : Place) (b : Books) : List Diagnostic × Books :=
  match b.runFinished with
  | some first =>
      ([lifecycle at_ .duplicateRunFinished
        (txt "run.finished seen twice (first in " ++ first.file ++ txt ":" ++ natText first.line ++
          txt ")")], b)
  | none => ([], { b with runFinished := some at_ })

def describeIdentity (historicalId : Option Text) (stability : HistoricalIdStability) : Text :=
  match historicalId with
  | none => stability.text
  | some id => id ++ txt ", " ++ stability.text

def «where» (at_ : Place) : Text := at_.file ++ txt ":" ++ natText at_.line

/-- The rules of one execution: one attempt for a number, one history identity, one runner. -/
def checkExecution (at_ : Place) (p : AttemptStartedPayload) (session : SessionState)
    (b : Books) : List Diagnostic × Books :=
  let here : AttemptPlace := { at_ with attemptId := p.attemptId }
  let test := p.test
  match b.executions.get? test.executionId with
  | none =>
      ([], { b with
        executions := b.executions.set test.executionId
          { attemptNumbers := JsMap.empty.set p.attemptNumber here
            historicalId := test.historicalId
            historicalIdStability := test.historicalIdStability
            runnerName := session.runnerName
            runnerKnown := !session.synthesized
            reference := here } })
  | some known =>
      let (sameNumber, b) := match known.attemptNumbers.get? p.attemptNumber with
        | some other =>
            ([lifecycle at_ .duplicateAttemptNumber
              (txt "execution " ++ test.executionId ++ txt " has attempts " ++ other.attemptId ++
                txt " (" ++ «where» other.toPlace ++ txt ") and " ++ p.attemptId ++
                txt " both numbered " ++ natText p.attemptNumber)], b)
        | none =>
            ([], { b with
              executions := b.executions.set test.executionId
                { known with attemptNumbers := known.attemptNumbers.set p.attemptNumber here } })
      let identity := check
        (known.historicalId ≠ test.historicalId ||
          known.historicalIdStability ≠ test.historicalIdStability)
        (lifecycle at_ .historicalIdentityChanged
          (txt "execution " ++ test.executionId ++
            txt " changes history identity between attempts " ++ known.reference.attemptId ++
            txt " (" ++ describeIdentity known.historicalId known.historicalIdStability ++
            txt ", " ++ «where» known.reference.toPlace ++ txt ") and " ++ p.attemptId ++ txt " (" ++
            describeIdentity test.historicalId test.historicalIdStability ++ txt ")"))
      let runner := check
        (known.runnerKnown && !session.synthesized && known.runnerName ≠ session.runnerName)
        (lifecycle at_ .executionRunnerChanged
          (txt "execution " ++ test.executionId ++ txt " spans sessions of different runners: " ++
            known.runnerName.getD (txt "none") ++ txt " at attempt " ++ known.reference.attemptId ++
            txt " (" ++ «where» known.reference.toPlace ++ txt "), " ++
            session.runnerName.getD (txt "none") ++ txt " at attempt " ++ p.attemptId))
      (sameNumber ++ identity ++ runner, b)

/-- `attempt.started`. -/
def attemptStarted (at_ : Place) (e : Envelope) (session : SessionState)
    (p : AttemptStartedPayload) (b : Books) : List Diagnostic × Books :=
  let withoutRunner := check (p.test.historicalId.isSome && session.runnerName.isNone)
    (lifecycle at_ .historicalIdWithoutRunner
      (txt "test " ++ p.attemptId ++ txt " carries a historicalId but session " ++ e.sessionId ++
        txt " declares no runner"))
  if b.attempts.has p.attemptId then
    (withoutRunner ++ [lifecycle at_ .duplicateAttemptId
      (txt "attempt " ++ p.attemptId ++ txt " started twice")], b)
  else
    let (ds, b) := checkExecution at_ p session
      { b with
        attempts := b.attempts.set p.attemptId
          { session := e.sessionId
            executionId := p.test.executionId
            attemptNumber := p.attemptNumber
            inconclusive := false
            finished := false
            unexpected := false
            steps := .empty } }
    (withoutRunner ++ ds, b)

/-- An outcome other than the expected one. -/
def unexpectedOutcome (p : AttemptFinishedPayload) : Bool :=
  let expected := p.expectedStatus.getD .passed
  (p.status = .failed && expected ≠ .failed) || (p.status = .passed && expected = .failed)

/-- `attempt.finished`. -/
def attemptFinished (at_ : Place) (p : AttemptFinishedPayload) (b : Books) :
    List Diagnostic × Books :=
  match b.attempts.get? p.attemptId with
  | none =>
      ([lifecycle at_ .attemptNotStarted
        (txt "attempt " ++ p.attemptId ++ txt " finished but never started")], b)
  | some a =>
      if a.finished then
        ([lifecycle at_ .duplicateAttemptFinished
          (txt "attempt " ++ p.attemptId ++ txt " finished twice")], b)
      else
        (a.steps.entries.flatMap (fun (sid, done) =>
            check (!done)
              (lifecycle at_ .stepNotFinishedAtAttemptEnd (txt "step " ++ sid ++ txt " still open"))),
          { b with
            attempts := b.attempts.set p.attemptId
              { a with
                finished := true
                unexpected := unexpectedOutcome p
                inconclusive := p.status = .inconclusive }
            failedAttempts := if p.status = .failed then b.failedAttempts + 1 else b.failedAttempts })

/-- `step.started`. -/
def stepStarted (at_ : Place) (p : StepStartedPayload) (b : Books) : List Diagnostic × Books :=
  let outside := ([lifecycle at_ .stepOutsideAttempt
    (txt "step " ++ p.stepId ++ txt " outside an open attempt")], b)
  match b.attempts.get? p.attemptId with
  | none => outside
  | some a =>
      if a.finished then outside
      else
        (check (a.steps.has p.stepId)
            (lifecycle at_ .duplicateStepId (txt "step " ++ p.stepId ++ txt " started twice")) ++
          (match p.parentStepId with
            | none => []
            | some parent => check (!a.steps.has parent)
                (lifecycle at_ .stepParentUnknown
                  (txt "parent step " ++ parent ++ txt " unknown"))),
          { b with
            attempts := b.attempts.set p.attemptId { a with steps := a.steps.set p.stepId false }
            steps := b.steps + 1 })

/-- `step.finished`. -/
def stepFinished (at_ : Place) (p : StepFinishedPayload) (b : Books) : List Diagnostic × Books :=
  let notStarted := ([lifecycle at_ .stepNotStarted
    (txt "step " ++ p.stepId ++ txt " finished but never started")], b)
  match b.attempts.get? p.attemptId with
  | none => notStarted
  | some a =>
      match a.steps.get? p.stepId with
      | none => notStarted
      | some true =>
          ([lifecycle at_ .duplicateStepFinished
            (txt "step " ++ p.stepId ++ txt " finished twice")], b)
      | some false =>
          ([], { b with
            attempts := b.attempts.set p.attemptId { a with steps := a.steps.set p.stepId true } })

/-- `attachment.added`. -/
def attachmentAdded (at_ : Place) (p : AttachmentAddedPayload) (b : Books) :
    List Diagnostic × Books :=
  (match b.attempts.get? p.attemptId with
    | none =>
        [lifecycle at_ .attachmentAttemptUnknown
          (txt "attachment for unknown attempt " ++ p.attemptId)]
    | some a =>
        if a.finished then
          [lifecycle at_ .attachmentAfterAttemptFinished
            (txt "attachment after attempt " ++ p.attemptId ++ txt " finished")]
        else
          match p.stepId with
          | none => []
          | some stepId => check (!a.steps.has stepId)
              (lifecycle at_ .attachmentStepUnknown (txt "attachment for unknown step " ++ stepId)),
    { b with
      attachments := b.attachments ++
        [{ at_ with sha256 := p.sha256, sizeBytes := p.sizeBytes }] })

/-- The switch over the type of a known event. -/
def handle (at_ : Place) (e : Event) (session : SessionState) (b : Books) :
    List Diagnostic × Books :=
  match e.payload with
  | .sessionStarted _ => ([], b)
  | .sessionFinished p => sessionFinished at_ e.toEnvelope session p b
  | .runFinished => runFinished at_ b
  | .attemptStarted p => attemptStarted at_ e.toEnvelope session p b
  | .attemptFinished p => attemptFinished at_ p b
  | .stepStarted p => stepStarted at_ p b
  | .stepFinished p => stepFinished at_ p b
  | .attachmentAdded p => attachmentAdded at_ p b
  | .scopeFailed _ => ([], { b with scopeFailures := b.scopeFailures + 1 })

/-! ### One line -/

section line
variable (rt : Runtime) (options : ValidateOptions) (file : Text) (singleSession : Bool)

/-- The source line of a reading. -/
def sourceLine (r : Reading) (line : ℕ) (disposition : Disposition) : ValidatedSourceLine :=
  let e := r.event.envelope
  { rawLine := r.raw
    eventId := e.eventId
    runId := e.runId
    sessionId := e.sessionId
    sequence := e.sequence
    protocolVersion := e.protocolVersion
    eventType := r.event.eventType
    canonicalSha256 := rt.sha256 (utf8 r.key)
    disposition := disposition
    sourceFile := file
    sourceLine := line }

/-- `archive(disposition)`. -/
def archive (r : Reading) (line : ℕ) (disposition : Disposition) (b : Books) : Books :=
  if options.retainSourceLines then
    { b with source := b.source ++ [sourceLine rt file r line disposition] }
  else b

/-- The end of the body of the loop: an ignored event, or an accepted one and the switch. -/
def acceptEvent (r : Reading) (session : SessionState) (b : Books) (here : Here) : Outcome :=
  let at_ : Place := ⟨file, here.line, r.event.envelope.eventId⟩
  match r.event with
  | .unknown e =>
      ⟨[lineInfo at_ .ignoredEventType
          (txt "unknown ignorable event type " ++ e.eventType ++ txt " skipped")],
        archive rt options file r here.line .ignored { b with ignored := b.ignored + 1 }, here⟩
  | .known e =>
      let b := if options.retainEvents then { b with accepted := b.accepted ++ [e] } else b
      let (ds, b) := handle at_ e session (archive rt options file r here.line .accepted b)
      ⟨ds, b, { here with closedHere := here.closedHere || e.payload == .runFinished }⟩

/-- From the sequence check on, with the state of the event's session. -/
def inSession (r : Reading) (session : SessionState) (b : Books) (here : Here) : Outcome :=
  let e := r.event.envelope
  let at_ : Place := ⟨file, here.line, e.eventId⟩
  let gap := check (e.sequence ≠ session.lastSequence + 1)
    (lifecycle at_ .sequenceGap
      (txt "sequence " ++ natText e.sequence ++ txt " follows " ++ natText session.lastSequence ++
        txt " in session " ++ e.sessionId))
  let session := session.advance e.sequence
  let b := b.putSession e.sessionId session
  if session.finished && r.event.knownType ≠ some .runFinished then
    ⟨gap ++ [lifecycle at_ .sessionAlreadyFinished
      (r.event.eventType ++ txt " after session.finished")], b, here⟩
  else
    let out := acceptEvent rt options file r session b here
    ⟨gap ++ out.diagnostics, out.books, out.here⟩

/-- `event.payload.runner?.name` of a session.started event. -/
def runnerNameOf : AnyEvent → Option Text
  | .known ⟨_, .sessionStarted p⟩ => p.runner.map Component.name
  | _ => none

/-- From the look-up of the session on. -/
def withSession (r : Reading) (b : Books) (here : Here) : Outcome :=
  let e := r.event.envelope
  let at_ : Place := ⟨file, here.line, e.eventId⟩
  match b.sessions.get? e.sessionId with
  | some session =>
      if r.event.knownType = some .sessionStarted then
        ⟨[lifecycle at_ .sessionAlreadyStarted
            (txt "session " ++ e.sessionId ++ txt " started twice")], b,
          if singleSession then { here with abandoned := true } else here⟩
      else inSession rt options file r session b here
  | none =>
      if r.event.knownType = some .sessionStarted then
        let session : SessionState := ⟨false, 0, runnerNameOf r.event, false⟩
        inSession rt options file r session (b.putSession e.sessionId session) here
      else
        let session : SessionState := ⟨false, e.sequence - 1, none, true⟩
        let out := inSession rt options file r session (b.putSession e.sessionId session) here
        ⟨lifecycle at_ .sessionNotStarted
            (r.event.eventType ++ txt " before session.started for " ++ e.sessionId) ::
          out.diagnostics, out.books, out.here⟩

/-- The event id is seen and the event counted. -/
def noteEvent (r : Reading) (b : Books) : Books :=
  { b with seen := b.seen.set r.event.envelope.eventId r.key, events := b.events + 1 }

/-- The run id of the first event, which the others must repeat. -/
def noteRunId (at_ : Place) (e : Envelope) (b : Books) : List Diagnostic × Books :=
  match b.runId with
  | none => ([], { b with runId := some e.runId })
  | some runId =>
      (check (runId ≠ e.runId)
        (lifecycle at_ .runIdMismatch (txt "runId " ++ e.runId ++ txt " differs from " ++ runId)), b)

/-- The session of the file, when the event is of another one. -/
def mixedWith (e : Envelope) (here : Here) : Option Text :=
  if singleSession then here.fileSession.filter (fun s => s ≠ e.sessionId) else none

/-- The first event of a session file fixes its session. -/
def enterFile (e : Envelope) (here : Here) : Here :=
  if singleSession && here.fileSession.isNone then { here with fileSession := some e.sessionId }
  else here

/-- An event whose id was not seen before. -/
def freshEvent (r : Reading) (b : Books) (here : Here) : Outcome :=
  let e := r.event.envelope
  let at_ : Place := ⟨file, here.line, e.eventId⟩
  let (mismatch, b) := noteRunId at_ e (noteEvent r b)
  match mixedWith singleSession e here with
  | some s =>
      ⟨mismatch ++ [lifecycle at_ .sessionFileMixed
        (txt "session " ++ e.sessionId ++ txt " in the file of session " ++ s)], b, here⟩
  | none =>
      let after := check here.closedHere
        (lifecycle at_ .eventAfterRunFinished (r.event.eventType ++ txt " after run.finished"))
      let out := withSession rt options file singleSession r b (enterFile singleSession e here)
      ⟨mismatch ++ after ++ out.diagnostics, out.books, out.here⟩

/-- A line that was read: a duplicate, a reused event id, or a fresh event. -/
def feedReading (r : Reading) (b : Books) (here : Here) : Outcome :=
  let id := r.event.envelope.eventId
  let at_ : Place := ⟨file, here.line, id⟩
  match b.seen.get? id with
  | some previous =>
      if previous = r.key then
        ⟨[lineInfo at_ .duplicateEvent (txt "identical duplicate ignored")],
          archive rt options file r here.line .duplicate { b with duplicates := b.duplicates + 1 },
          here⟩
      else
        ⟨[lifecycle at_ .duplicateEventId
          (txt "eventId " ++ id ++ txt " reused with different content")], b, here⟩
  | none => freshEvent rt options file singleSession r b here

/-- The size limit in force. -/
def eventLimit : ℕ := options.maxEventBytes.getD maxEventBytes

/-- The body of the loop over the lines of a file. -/
def feedLine (raw : Text) (b : Books) (here : Here) : Outcome :=
  let here := { here with line := here.line + 1 }
  if here.abandoned || blank raw then ⟨[], b, here⟩
  else
    match readLine rt (eventLimit options) file here.line raw with
    | .error d => ⟨[d], b, here⟩
    | .ok r => feedReading rt options file singleSession r b here

/-- The loop over the lines. -/
def feedLines : List Text → Books → Here → Outcome
  | [], b, here => ⟨[], b, here⟩
  | raw :: rest, b, here =>
      let out := feedLine rt options file singleSession raw b here
      let out' := feedLines rest out.books out.here
      ⟨out.diagnostics ++ out'.diagnostics, out'.books, out'.here⟩

end line

/-- One call of `feed`. -/
structure FeedCall where
  lines : List Text
  file : Text
  singleSession : Bool

/-- `feed(lines, file, singleSession)`. -/
def feed (rt : Runtime) (options : ValidateOptions) (v : RunValidator) (call : FeedCall) :
    RunValidator :=
  let out := feedLines rt options call.file call.singleSession call.lines
    { v.books with files := v.books.files + 1 } Here.start
  ⟨out.books, v.diagnostics ++ out.diagnostics⟩

/-- A validator after a sequence of `feed` calls. -/
def feedAll (rt : Runtime) (options : ValidateOptions) (calls : List FeedCall) : RunValidator :=
  calls.foldl (feed rt options) RunValidator.start

end QeReport

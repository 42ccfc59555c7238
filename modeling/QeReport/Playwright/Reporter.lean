import QeReport.Playwright.Mapping
import QeReport.Sdk.Writing

/-! # The Playwright reporter

The callbacks of `QeReportReporter` after `onBegin`, as functions of what it keeps: each gives the
requests it makes of its session, in their order, and the new state.  Open attempts are kept in
their order under their ids, and the open steps of an attempt under the identity of the step
object; a callback about an attempt or a step that is not open changes nothing.  What is printed
for the user is left out. -/

namespace QeReport.Playwright

open Sdk (Request Answer ReportSession AttachmentInput)

/-! ### The state -/

structure OpenStep where
  id : Text
  phase : FailurePhase

structure OpenAttempt where
  id : Text
  steps : JsMap ℕ OpenStep
  stepCount : ℕ
  /-- Attachments already emitted at a step, by identity. -/
  emitted : List ℕ
  /-- The phases of the errors seen on steps, by `errorKey`. -/
  stepErrorPhases : JsMap Text FailurePhase

/-- What `onBegin` keeps of the configuration. -/
structure Config where
  roots : Roots
  globalSetup : Option Text
  globalTeardown : Option Text
  runIdGenerated : Bool

structure Reporter where
  attempts : JsMap Text OpenAttempt
  sessionFailures : List Failure
  filesWithAttempts : List Text

/-- The state after `onBegin`. -/
def Reporter.new : Reporter := ⟨.empty, [], []⟩

/-! ### onBegin -/

structure FullConfig where
  rootDir : Text
  configFile : Option Text
  globalSetup : Option Text
  globalTeardown : Option Text
  version : Text
  workers : ℕ
  /-- Current and total. -/
  shard : Option (ℕ × ℕ)

/-- What the process around the reporter adds. -/
structure Process where
  cwd : Text
  nodeVersion : Text
  runIdGenerated : Bool

/-- The configuration `onBegin` keeps. -/
def beginConfig (platform : Platform) (process : Process) (config : FullConfig) : Config where
  roots := ⟨config.rootDir,
    config.rootDir :: ((config.configFile.map platform.dirname).toList ++ [process.cwd])⟩
  globalSetup := config.globalSetup.map platform.resolve
  globalTeardown := config.globalTeardown.map platform.resolve
  runIdGenerated := process.runIdGenerated

/-- The payload the session is started with. -/
def startPayload (process : Process) (config : FullConfig) : SessionStartedPayload where
  producer := ⟨txt "qe-report-playwright", some (txt "1.0.0")⟩
  runner := some ⟨txt "playwright", some config.version⟩
  environment := some [(txt "node.version", process.nodeVersion)]
  executor := none
  source := none
  labels := some ((txt "playwright.workers", natText config.workers) ::
    (config.shard.map (fun s =>
      (txt "playwright.shard", natText s.1 ++ unit '/' :: natText s.2))).toList)

/-! ### Attempts -/

/-- `attemptId(test, result)`. -/
def attemptId (test : TestCase) (result : TestResult) : Text :=
  test.id ++ unit '-' :: natText (result.retry + 1)

/-- The id of the `n`-th step of an attempt. -/
def stepId (attempt : Text) (n : ℕ) : Text := attempt ++ txt "-s" ++ natText n

/-- One annotation of the loop over `test.annotations`. -/
def annotate (labels : JsMap Text Text) (a : Annotation) : JsMap Text Text :=
  let key := labelKey (txt "annotation." ++ a.type)
  let value := a.description.getD a.type
  match labels.get? key with
  | some existing => labels.set key (bounded (existing ++ txt "; " ++ value) 1024)
  | none => if labels.size < 64 then labels.set key (bounded value 1024) else labels

/-- The labels of an attempt. -/
def labelsOf (test : TestCase) (result : TestResult) : Record :=
  (test.annotations.foldl annotate
    (JsMap.empty.set (txt "playwright.workerIndex") (intText result.workerIndex))).entries

section reporter
variable (platform : Platform) (config : Config)

/-- The test of an attempt. -/
def testModel (test : TestCase) (result : TestResult) : QeReport.TestCase :=
  let h := hierarchy platform test config.roots.rootDir
  let tags := (test.tags.take 64).map (fun t => bounded t 128)
  { executionId := test.id
    historicalId := some (historicalId h)
    historicalIdStability := .stable
    displayName := bounded (if test.title = [] then txt "untitled" else test.title) 1024
    path := pathSegments h
    location := location platform config.roots.rootDir (some test.location)
    tags := if tags = [] then none else some tags
    labels := some (labelsOf test result) }

/-- `onTestBegin(test, result)`. -/
def onTestBegin (r : Reporter) (test : TestCase) (result : TestResult) : List Request × Reporter :=
  let id := attemptId test result
  if r.attempts.has id then ([], r)
  else
    ([.call (.emit (.attemptStarted ⟨id, result.retry + 1, testModel platform config test result⟩))],
      { r with
        attempts := r.attempts.set id ⟨id, .empty, 0, [], .empty⟩
        filesWithAttempts := r.filesWithAttempts ++
          [(hierarchy platform test config.roots.rootDir).file] })

/-- `stepPhase(step, parentPhase)`. -/
def stepPhase (step : TestStep) (parentPhase : Option FailurePhase) : FailurePhase :=
  match parentPhase with
  | some phase => phase
  | none =>
      if step.parent.isSome then .test
      else if step.category = txt "hook" then
        if step.title = txt "Before Hooks" then .setup
        else if step.title = txt "After Hooks" ∨ step.title = txt "Worker Cleanup" then .teardown
        else .test
      else .test

/-- `onStepBegin(test, result, step)`. -/
def onStepBegin (r : Reporter) (test : TestCase) (result : TestResult) (step : TestStep) :
    List Request × Reporter :=
  match r.attempts.get? (attemptId test result) with
  | none => ([], r)
  | some attempt =>
      let parent := step.parent.bind attempt.steps.get?
      let phase := stepPhase step (parent.map OpenStep.phase)
      let id := stepId attempt.id (attempt.stepCount + 1)
      ([.call (.emit (.stepStarted
          { stepId := id
            attemptId := attempt.id
            parentStepId := parent.map OpenStep.id
            name := bounded (if step.title = [] then step.category else step.title) 1024
            kind := some (bounded (if step.category = [] then txt "step" else step.category) 64)
            location := location platform config.roots.rootDir step.location }))],
        { r with
          attempts := r.attempts.set (attemptId test result) { attempt with
            stepCount := attempt.stepCount + 1
            steps := attempt.steps.set step.key ⟨id, phase⟩ } })

/-- `attach(session, attemptId, stepId, a)`. -/
def attach (attemptId : Text) (stepId : Option Text) (a : Attachment) : List Request :=
  let input : AttachmentInput := ⟨attemptId, stepId,
    bounded (if a.name = [] then txt "attachment" else a.name) 512, mediaType a.contentType⟩
  match a.body, a.path with
  | some bytes, _ => [.call (.attach input bytes)]
  | none, some file => [.attachFileSync input file]
  | none, none => []

/-- The attachments that were not emitted before, each once. -/
def unseen : List ℕ → List Attachment → List Attachment
  | _, [] => []
  | seen, a :: as => if a.key ∈ seen then unseen seen as else a :: unseen (a.key :: seen) as

/-- `Math.max(0, Math.round(duration))`. -/
def durationMs (duration : ℚ) : ℤ := max 0 (duration + 1 / 2).floor

/-- `onStepEnd(test, result, step)`. -/
def onStepEnd (r : Reporter) (test : TestCase) (result : TestResult) (step : TestStep) :
    List Request × Reporter :=
  match r.attempts.get? (attemptId test result) with
  | none => ([], r)
  | some attempt =>
      match attempt.steps.get? step.key with
      | none => ([], r)
      | some opened =>
          let attachments := unseen attempt.emitted step.attachments
          (attachments.flatMap (attach attempt.id (some opened.id)) ++
            [.call (.emit (.stepFinished
              { stepId := opened.id
                attemptId := attempt.id
                status := if step.error.isSome then .failed else .passed
                rawStatus := none
                durationMs := some (durationMs step.duration)
                failures := step.error.map (fun e =>
                  [failure platform e config.roots (some opened.phase)]) }))],
            { r with
              attempts := r.attempts.set (attemptId test result) { attempt with
                steps := attempt.steps.erase step.key
                emitted := attempt.emitted ++ attachments.map Attachment.key
                stepErrorPhases :=
                  match step.error with
                  | none => attempt.stepErrorPhases
                  | some e => attempt.stepErrorPhases.set (errorKey e) opened.phase } })

/-- `closeOpenSteps(session, attempt)`. -/
def closeOpenSteps (attempt : OpenAttempt) : List Request :=
  attempt.steps.values.map (fun opened => .call (.emit (.stepFinished
    ⟨opened.id, attempt.id, .inconclusive, some (txt "unfinished"), none, none⟩)))

/-- The failures of an attempt. -/
def attemptFailures (attempt : OpenAttempt) (result : TestResult) : List Failure :=
  withinBudget ((result.errors.take 32).map (fun e =>
    failure platform e config.roots (attempt.stepErrorPhases.get? (errorKey e))))

/-- `onTestEnd(test, result)`. -/
def onTestEnd (r : Reporter) (test : TestCase) (result : TestResult) : List Request × Reporter :=
  match r.attempts.get? (attemptId test result) with
  | none => ([], r)
  | some attempt =>
      let failures := attemptFailures platform config attempt result
      (closeOpenSteps attempt ++
        (result.attachments.filter (fun a => a.key ∉ attempt.emitted)).flatMap
          (attach attempt.id none) ++
        [.call (.emit (.attemptFinished
          { attemptId := attempt.id
            status := (status result.status).getD .inconclusive
            rawStatus := some result.status
            expectedStatus := expectedStatus test.expectedStatus
            durationMs := some (durationMs result.duration)
            failures := if failures = [] then none else some failures }))],
        { r with attempts := r.attempts.erase (attemptId test result) })

/-! ### Errors outside of attempts -/

/-- `fileScopeOf(error)`. -/
def fileScopeOf (error : TestError) : Option Text :=
  match error.location with
  | none => none
  | some loc =>
      if (config.globalSetup.toList ++ config.globalTeardown.toList).any
          (fun m => platform.resolve m = platform.resolve loc.file) then none
      else (location platform config.roots.rootDir (some loc)).map Location.file

/-- `invocationPhase(error)`. -/
def invocationPhase (error : TestError) : Option FailurePhase :=
  match error.location with
  | none => none
  | some loc =>
      let file := platform.resolve loc.file
      if some file = config.globalSetup then some .setup
      else if some file = config.globalTeardown then some .teardown
      else none

/-- `onError(error)`. -/
def onError (r : Reporter) (error : TestError) : List Request × Reporter :=
  let f := failure platform error config.roots none
  match fileScopeOf platform config error with
  | some file =>
      ([.call (.emit (.scopeFailed
        { path := [⟨txt "file", bounded file 1024⟩]
          displayName := some (bounded file 1024)
          rawStatus := none
          location := f.location
          failures := [if file ∈ r.filesWithAttempts then f else { f with phase := some .setup }] }))],
        r)
  | none =>
      match invocationPhase platform config error with
      | some phase =>
          ([], if r.sessionFailures.length < 32 then
            { r with sessionFailures := r.sessionFailures ++ [{ f with phase := some phase }] }
          else r)
      | none => ([], r)

/-! ### Runs -/

/-- A callback between `onBegin` and `onEnd`. -/
inductive Callback where
  | testBegin (test : TestCase) (result : TestResult)
  | stepBegin (test : TestCase) (result : TestResult) (step : TestStep)
  | stepEnd (test : TestCase) (result : TestResult) (step : TestStep)
  | testEnd (test : TestCase) (result : TestResult)
  | error (e : TestError)

def handle (r : Reporter) : Callback → List Request × Reporter
  | .testBegin test result => onTestBegin platform config r test result
  | .stepBegin test result step => onStepBegin platform config r test result step
  | .stepEnd test result step => onStepEnd platform config r test result step
  | .testEnd test result => onTestEnd platform config r test result
  | .error e => onError platform config r e

/-- The state after some callbacks. -/
def stateAfter (r : Reporter) (callbacks : List Callback) : Reporter :=
  callbacks.foldl (fun r c => (handle platform config r c).2) r

/-- The requests of some callbacks. -/
def requestsOf (r : Reporter) : List Callback → List Request
  | [] => []
  | c :: cs => (handle platform config r c).1 ++ requestsOf (handle platform config r c).2 cs

end reporter

/-- The requests of `onEnd` for the attempts that are still open. -/
def closeOpenAttempts (r : Reporter) : List Request :=
  r.attempts.values.flatMap (fun attempt => closeOpenSteps attempt ++
    [.call (.emit (.attemptFinished ⟨attempt.id, .inconclusive, some (txt "unfinished"), none, none,
      none⟩))])

/-- `outcome(result)`. -/
def outcome (r : Reporter) (raw : Text) : SessionFinishedPayload :=
  match sessionStatus raw with
  | none => Sdk.emptyOutcome
  | some status =>
      let failures := if status = .passed then [] else withinBudget r.sessionFailures
      ⟨some status, some raw, if failures = [] then none else some failures⟩

section run
variable (host : Sdk.Outside) (platform : Platform) (process : Process) (fullConfig : FullConfig)
  (callbacks : List Callback) (raw : Text)

/-- The session when `onEnd` has closed what was open. -/
def sessionClosed : ReportSession :=
  let config := beginConfig platform process fullConfig
  Sdk.serve host (Sdk.start host (startPayload process fullConfig)).2
    (requestsOf platform config .new callbacks ++
      closeOpenAttempts (stateAfter platform config .new callbacks))

/-- `session.finish(this.outcome(result))`. -/
def sessionFinish : Answer Bool :=
  Sdk.finish host (sessionClosed host platform process fullConfig callbacks)
    (outcome (stateAfter platform (beginConfig platform process fullConfig) .new callbacks) raw)

/-- `finished && this.config.runIdGenerated`, and then `session.finishRun()`. -/
def sessionFinishRun : ReportSession :=
  let (finished, s) := sessionFinish host platform process fullConfig callbacks raw
  if finished.toOption = some true && process.runIdGenerated then (Sdk.finishRun host s).2 else s

/-- The session after `onBegin`, the callbacks and `onEnd`. -/
def sessionEnded : ReportSession :=
  (Sdk.close host (sessionFinishRun host platform process fullConfig callbacks raw)).2

end run

end QeReport.Playwright

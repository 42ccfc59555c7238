import QeReport.Junit.Mapper

/-! # The reporter of one test plan

The callbacks of `RunReporter`, as functions of what it keeps: each gives the calls it makes of
its session, in their order, and the new state.  The plan is the one the launcher hands over, as
it stands when the callback arrives.  What is printed for the user is left out. -/

namespace QeReport.Junit

open Sdk (Call)
open Sdk.Java (getBytes)

structure OpenAttempt where
  attemptId : Text
  startedAt : ℤ

/-- Open attempts and counters under unique ids; `containers` counts the tests seen below. -/
structure RunReporter where
  opened : JsMap Text OpenAttempt
  containers : JsMap Text ℕ
  /-- Executions so far, under execution ids. -/
  executions : JsMap Text ℕ

/-- The state after the constructor. -/
def RunReporter.new : RunReporter := ⟨.empty, .empty, .empty⟩

section reporter
variable (plan : TestPlan)

/-- `noteSeen(p, test)`. -/
def noteSeen (r : RunReporter) (test : TestIdentifier) : RunReporter := { r with
  containers := (plan.ancestors test).foldl
    (fun containers c => containers.update c.uniqueId.text (· + 1)) r.containers }

/-- The number of the next execution, and the state that has counted it. -/
def countExecution (r : RunReporter) (id : TestIdentifier) : ℕ × RunReporter :=
  let number := (r.executions.get? (executionId id)).getD 0 + 1
  (number, { r with executions := r.executions.set (executionId id) number })

/-- The id of an execution. -/
def attemptId (id : TestIdentifier) (number : ℕ) : Text :=
  executionId id ++ txt "-" ++ natText number

/-- `startAttempt(p, id)`. -/
def startAttempt (r : RunReporter) (now : ℤ) (id : TestIdentifier) : List Call × RunReporter :=
  let (number, r) := countExecution r id
  ([.emit (.attemptStarted ⟨attemptId id number, number, testCase plan id⟩)],
    { r with opened := r.opened.set id.uniqueId.text ⟨attemptId id number, now⟩ })

/-- `synthesize(p, id, status, rawStatus, failures)`. -/
def synthesize (status : Status) (rawStatus : Text) (failures : List Failure) (r : RunReporter)
    (id : TestIdentifier) : List Call × RunReporter :=
  let (number, r) := countExecution r id
  ([.emit (.attemptStarted ⟨attemptId id number, number, testCase plan id⟩),
    .emit (.attemptFinished ⟨attemptId id number, status, some rawStatus, none, none,
      some failures⟩)], r)

/-- The calls of one handler after the other. -/
def inTurn (handler : RunReporter → TestIdentifier → List Call × RunReporter) :
    RunReporter → List TestIdentifier → List Call × RunReporter
  | r, [] => ([], r)
  | r, id :: ids =>
      let (calls, r) := handler r id
      let (more, r) := inTurn handler r ids
      (calls ++ more, r)

/-- `started(id)`. -/
def started (r : RunReporter) (now : ℤ) (id : TestIdentifier) : List Call × RunReporter :=
  if id.isContainer then ([], { r with containers := r.containers.set id.uniqueId.text 0 })
  else if !id.isTest then ([], r)
  else startAttempt plan (noteSeen plan r id) now id

/-- `Math.max(0, (now - startedAt) / 1_000_000)` of two `long` values. -/
def durationMs (now startedAt : ℤ) : ℤ := max 0 (((now - startedAt).bmod (2 ^ 64)).tdiv 1000000)

/-- What is said of a container that failed without a throwable. -/
def containerFailed (id : TestIdentifier) : Failure :=
  Failure.of (bounded (txt "container " ++ id.displayName ++ txt " failed") maxMessage)

/-- The failure of every planned test below a container. -/
def preventedBy (id : TestIdentifier) (cause : Option Throwable) : Failure :=
  match cause with
  | none => containerFailed id
  | some cause => failure cause (some .setup)

/-- The scope failure of a container. -/
def scopeFailed (id : TestIdentifier) (result : TestExecutionResult) : ScopeFailedPayload where
  path := scopePath plan id
  displayName := some (bounded id.displayName maxDisplay)
  rawStatus := some result.status.text
  location := location id.source
  failures := match result.throwable with
    | none => [containerFailed id]
    | some cause => [failure cause (if cause.phase = some .test then none else cause.phase)]

/-- `finished(id, result)`. -/
def finished (r : RunReporter) (now : ℤ) (id : TestIdentifier) (result : TestExecutionResult) :
    List Call × RunReporter :=
  if id.isTest then
    match r.opened.get? id.uniqueId.text with
    | none => ([], r)
    | some attempt =>
        ([.emit (.attemptFinished
          { attemptId := attempt.attemptId
            status := status result.status
            rawStatus := some result.status.text
            expectedStatus := none
            durationMs := some (durationMs now attempt.startedAt)
            failures := some (failures result.throwable) })],
          { r with opened := r.opened.erase id.uniqueId.text })
  else
    let seen := r.containers.get? id.uniqueId.text
    let r := { r with containers := r.containers.erase id.uniqueId.text }
    if result.status ≠ .failed then ([], r)
    else
      let planned := (plan.getDescendants id).filter TestIdentifier.isTest
      if seen = some 0 ∧ planned ≠ [] then
        inTurn (synthesize plan .failed (txt "FAILED") [preventedBy id result.throwable]) r planned
      else ([.emit (.scopeFailed (scopeFailed plan id result))], r)

/-- A reason that is not blank, as failures. -/
def why (reason : Option Text) : List Failure :=
  match reason with
  | none => []
  | some reason => if isBlank reason then [] else [Failure.of (bounded reason maxMessage)]

/-- A test that is skipped. -/
def skipTest (reason : Option Text) (r : RunReporter) (id : TestIdentifier) :
    List Call × RunReporter :=
  synthesize plan .skipped (txt "SKIPPED") (why reason) (noteSeen plan r id) id

/-- `skipped(id, reason)`. -/
def skipped (r : RunReporter) (id : TestIdentifier) (reason : Option Text) :
    List Call × RunReporter :=
  if id.isTest then skipTest plan reason r id
  else inTurn (skipTest plan reason) r ((plan.getDescendants id).filter TestIdentifier.isTest)

/-- The text of a report entry. -/
def entryText (entry : ReportEntry) : Text :=
  txt "timestamp: " ++ entry.timestamp ++ txt "\n" ++
    entry.keyValuePairs.flatMap (fun p => p.1 ++ txt ": " ++ p.2 ++ txt "\n")

/-- `reportingEntry(id, entry)`. -/
def reportingEntry (r : RunReporter) (id : TestIdentifier) (entry : ReportEntry) :
    List Call × RunReporter :=
  match r.opened.get? id.uniqueId.text with
  | none => ([], r)
  | some attempt =>
      ([.attach ⟨attempt.attemptId, none, txt "junit-report-entry", txt "text/plain"⟩
        (getBytes (entryText entry))], r)

/-! ### Runs -/

/-- A callback of the listener. -/
inductive Callback where
  | started (now : ℤ) (id : TestIdentifier)
  | finished (now : ℤ) (id : TestIdentifier) (result : TestExecutionResult)
  | skipped (id : TestIdentifier) (reason : Option Text)
  | reportingEntry (id : TestIdentifier) (entry : ReportEntry)

def handle (r : RunReporter) : Callback → List Call × RunReporter
  | .started now id => started plan r now id
  | .finished now id result => finished plan r now id result
  | .skipped id reason => skipped plan r id reason
  | .reportingEntry id entry => reportingEntry r id entry

end reporter

/-- `finish()`. -/
def finish : List Call × RunReporter := ([.close], .new)

/-- The state after some callbacks, each with the plan as it stood then. -/
def stateAfter (r : RunReporter) (callbacks : List (TestPlan × Callback)) : RunReporter :=
  callbacks.foldl (fun r c => (handle c.1 r c.2).2) r

/-- The calls of some callbacks. -/
def callsOf (r : RunReporter) : List (TestPlan × Callback) → List Call
  | [] => []
  | c :: cs => (handle c.1 r c.2).1 ++ callsOf (handle c.1 r c.2).2 cs

end QeReport.Junit

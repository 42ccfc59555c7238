import QeReport.Http.Instants
import QeReport.Lib.Pages
import QeReport.Postgres.Tables

/-! # Questions across runs

The queries of `PostgresQueries` over what one repeatable-read transaction sees of the archive.  A
question across the runs of a project is answered from the rows of the query index, and only when
every run of the project has a current one (`answering`).  Listings and histories are read in
keyset pages: the page after a position holds the rows beyond it, and names the position of its
last row when there are more. -/

namespace QeReport.Queries

open Http (Date timeClip)
open Reclaim (RunKey)

/-! ### What a transaction sees -/

/-- The runs that are committed when the transaction begins. -/
abbrev Snapshot := List (RunKey × RunRows)

def Snapshot.ofProject (snapshot : Snapshot) (projectId : Text) : Snapshot :=
  snapshot.filter (fun r => r.1.projectId = projectId)

/-- What the index of a project covers. -/
structure IndexStatus where
  projectId : Text
  indexVersion : ℕ
  totalRuns : ℕ
  currentRuns : ℕ
  missingRuns : ℕ
  staleRuns : ℕ
  complete : Bool
deriving DecidableEq

/-- The run has an index row of another version or of other content. -/
def stale (rows : RunRows) : Bool :=
  rows.index.any (fun i =>
    decide (i.indexVersion ≠ queryIndexVersion) ||
      decide (i.sourceFingerprint ≠ rows.head.contentFingerprint))

/-- `INCOMPLETE_SQL`. -/
def incomplete (snapshot : Snapshot) (projectId : Text) : Bool :=
  (snapshot.ofProject projectId).any (fun r => r.2.index.isNone || stale r.2)

/-- `indexStatus(db, projectId)`. -/
def indexStatus (snapshot : Snapshot) (projectId : Text) : IndexStatus :=
  let runs := snapshot.ofProject projectId
  let missingRuns := runs.countP (fun r => r.2.index.isNone)
  let staleRuns := runs.countP (fun r => stale r.2)
  { projectId
    indexVersion := queryIndexVersion
    totalRuns := runs.length
    currentRuns := runs.countP (fun r => r.2.current queryIndexVersion)
    missingRuns
    staleRuns
    complete := decide (missingRuns = 0) && decide (staleRuns = 0) }

/-! ### Requests -/

inductive QueryFailure where
  | invalid (message : Text)
  /-- `QueryIndexIncompleteError`. -/
  | incomplete (status : IndexStatus)
deriving DecidableEq

/-- `answering(projectId, fn)`. -/
def answering {α : Type} (snapshot : Snapshot) (projectId : Text) (fn : Snapshot → α) :
    Except QueryFailure α :=
  if incomplete snapshot projectId then .error (.incomplete (indexStatus snapshot projectId))
  else .ok (fn snapshot)

/-- `DEFAULT_PAGE_SIZE`. -/
def defaultPageSize : ℕ := 100

/-- `MAX_PAGE_SIZE`. -/
def maxPageSize : ℕ := 1000

/-- `checkLimit(limit, fallback, ceiling)`. -/
def checkLimit (limit : Option ℤ) (fallback ceiling : ℕ) : Except QueryFailure ℕ :=
  match limit with
  | none => .ok fallback
  | some n =>
      if ¬ isSafe n ∨ n < 1 then
        .error (.invalid (txt "limit must be a whole number of at least one"))
      else .ok (min n.toNat ceiling)

/-- `checkSequence(sequence, name)`. -/
def checkSequence (sequence : Option ℤ) (name : Text) : Except QueryFailure (Option ℤ) :=
  match sequence with
  | none => .ok none
  | some n =>
      if n < 0 ∨ 9223372036854775807 < n then
        .error (.invalid (name ++
          txt " must be a non-negative bigint within PostgreSQL's bigint"))
      else .ok (some n)

/-- The columns a history is ordered by; the identifiers are compared by byte. -/
abbrev Position := ℤ ×ₗ ℤ ×ₗ List ℕ ×ₗ List ℕ

def position (instant leap : ℤ) (runId executionId : Text) : Position :=
  toLex (instant, toLex (leap, toLex (utf8 runId, utf8 executionId)))

/-- Where a history page continues. -/
structure HistoryCursor where
  /-- `none` for an invalid date. -/
  occurredAt : Option Date
  leap : ℤ
  runId : Text
  executionId : Text
deriving DecidableEq

/-- `checkCursor(after)`: the position that is bound. -/
def checkCursor (after : Option HistoryCursor) : Except QueryFailure (Option Position) :=
  match after with
  | none => .ok none
  | some c =>
      match c.occurredAt with
      | none => .error (.invalid (txt "the cursor instant must be a valid Date"))
      | some date =>
          if c.leap < 0 ∨ 1000 < c.leap then
            .error (.invalid
              (txt "the cursor leap position must be a whole number from 0 to 1000"))
          else if c.runId = [] then .error (.invalid (txt "the cursor must name a run"))
          else if c.executionId = [] then
            .error (.invalid (txt "the cursor must name an execution"))
          else .ok (some (position date.ms c.leap c.runId c.executionId))

/-- `checkProjectId(projectId)` of the queries. -/
def checkProject (projectId : Text) : Except QueryFailure Unit :=
  (checkProjectId projectId).mapError .invalid

/-! ### Histories -/

def positionOf (row : OccurrenceRow) : Position :=
  position row.occurredAtInstant row.occurredAtLeap row.runId row.executionId

/-- `occurrenceOf(projectId, runnerName, historicalId, row)`. -/
def occurrenceOf (projectId runnerName historicalId : Text) (row : OccurrenceRow) :
    ExecutionOccurrence where
  projectId
  runnerName
  historicalId
  runId := row.runId
  executionId := row.executionId
  sessionIds := row.sessionIds
  historicalIdStability := row.historicalIdStability
  occurredAt := row.occurredAtRaw
  attemptCount := row.attemptCount
  complete := row.complete
  finalStatus := row.finalStatus
  expectedStatus := row.expectedStatus
  flaky := row.flaky
  runVerdict := row.runVerdict
  runComplete := row.runComplete
  sessionStatus := row.sessionStatus

/-- The test that a question is about. -/
structure HistoryKey where
  projectId : Text
  runnerName : Text
  historicalId : Text
deriving DecidableEq

structure HistoryRequest extends HistoryKey where
  limit : Option ℤ
  after : Option HistoryCursor

structure HistoryPage extends HistoryKey where
  occurrences : List ExecutionOccurrence
  next : Option HistoryCursor
deriving DecidableEq

/-- The rows of a test; a row stands under the run that its key columns name. -/
def selected (rt : Runtime) (key : HistoryKey) (snapshot : Snapshot) : List OccurrenceRow :=
  ((snapshot.ofProject key.projectId).flatMap (fun r => r.2.occurrences)).filter (fun row =>
    row.historyKey = historyKeyOf rt key.runnerName key.historicalId ∧
      row.indexVersion = queryIndexVersion ∧ row.runnerName = key.runnerName ∧
      row.historicalId = key.historicalId)

/-- The rows of a test beyond a position, in the order of their positions. -/
def historyRows (rt : Runtime) (key : HistoryKey) (after : Option Position) (snapshot : Snapshot) :
    List OccurrenceRow :=
  sortBy (fun a b => cmp (positionOf a) (positionOf b))
    ((selected rt key snapshot).filter (fun row => after.all (fun c => decide (c < positionOf row))))

/-- The position that a page ends at. -/
def cursorAt (row : OccurrenceRow) : HistoryCursor :=
  ⟨timeClip row.occurredAtInstant, row.occurredAtLeap, row.runId, row.executionId⟩

/-- `getTestHistoryPage(request)`. -/
def getTestHistoryPage (rt : Runtime) (snapshot : Snapshot) (request : HistoryRequest) :
    Except QueryFailure HistoryPage := do
  checkProject request.projectId
  let limit ← checkLimit request.limit defaultPageSize maxPageSize
  let after ← checkCursor request.after
  answering snapshot request.projectId fun snapshot =>
    let rows := (historyRows rt request.toHistoryKey after snapshot).take (limit + 1)
    let page := rows.take limit
    { request.toHistoryKey with
      occurrences := page.map (occurrenceOf request.projectId request.runnerName
        request.historicalId)
      next := if limit < rows.length then page.getLast?.map cursorAt else none }

structure FlakinessSummary extends HistoryKey where
  totalOccurrences : ℕ
  flakyOccurrences : ℕ
  everFlaky : Bool
deriving DecidableEq

/-- `getFlakinessSummary(key)`. -/
def getFlakinessSummary (rt : Runtime) (snapshot : Snapshot) (key : HistoryKey) :
    Except QueryFailure FlakinessSummary := do
  checkProject key.projectId
  answering snapshot key.projectId fun snapshot =>
    let rows := selected rt key snapshot
    let flakyOccurrences := rows.countP (fun row => row.flaky)
    { key with
      totalOccurrences := rows.length
      flakyOccurrences
      everFlaky := decide (0 < flakyOccurrences) }

/-! ### Listings -/

/-- One run as a listing shows it. -/
structure RunSummary where
  projectId : Text
  runId : Text
  ingestionSequence : ℕ
  expiresAt : Option ℤ
  verdict : Verdict
  complete : Bool
  closed : Bool
  ignoredEvents : ℕ
  duplicateEvents : ℕ
  sessionCount : ℕ
  executionCount : ℕ
  scopeFailureCount : ℕ
  attachmentCount : ℕ
deriving DecidableEq

/-- `runSummary(projectId, row)` of a run that has an index row. -/
def runSummary (projectId runId : Text) (rows : RunRows) (facts : RunIndexRow) : RunSummary where
  projectId
  runId
  ingestionSequence := rows.head.ingestionSequence
  expiresAt := rows.expiresAt
  verdict := facts.verdict
  complete := facts.complete
  closed := facts.closed
  ignoredEvents := facts.ignoredEventCount
  duplicateEvents := facts.duplicateEventCount
  sessionCount := facts.sessionCount
  executionCount := facts.executionCount
  scopeFailureCount := facts.scopeFailureCount
  attachmentCount := facts.attachmentCount

structure ListRunsRequest where
  projectId : Text
  limit : Option ℤ
  beforeIngestionSequence : Option ℤ

structure RunPage where
  runs : List RunSummary
  next : Option ℕ
deriving DecidableEq

/-- The runs of a project whose index row is current, newest archived first. -/
def listedRuns (projectId : Text) (before : Option ℤ) (snapshot : Snapshot) : List RunSummary :=
  let joined := (snapshot.ofProject projectId).filterMap (fun r =>
    if r.2.current queryIndexVersion then
      r.2.index.map (fun i => runSummary projectId r.1.runId r.2 i.facts)
    else none)
  sortBy (fun a b => cmp b.ingestionSequence a.ingestionSequence)
    (joined.filter (fun s => before.all (fun n => decide ((s.ingestionSequence : ℤ) < n))))

/-- `listRuns(request)`. -/
def listRuns (snapshot : Snapshot) (request : ListRunsRequest) : Except QueryFailure RunPage := do
  checkProject request.projectId
  let limit ← checkLimit request.limit defaultPageSize maxPageSize
  let before ← checkSequence request.beforeIngestionSequence (txt "beforeIngestionSequence")
  answering snapshot request.projectId fun snapshot =>
    let rows := (listedRuns request.projectId before snapshot).take (limit + 1)
    let page := rows.take limit
    { runs := page
      next := if limit < rows.length then page.getLast?.map (fun s => s.ingestionSequence)
        else none }

end QeReport.Queries

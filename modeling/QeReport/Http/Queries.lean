import QeReport.Http.Cursors
import QeReport.Postgres.Queries

/-! # The query routes

The handlers of `listRuns`, `queryHistory` and `queryFlakiness`: a cursor is read back into the
position it stands for, the question is asked of the query layer, and the position a page ends at
is written as the next cursor.  A question is about the project of the key that the request was
authenticated with; a body is one that its schema accepted. -/

namespace QeReport.Http

open Cursor Queries

/-! ### Documents -/

/-- `encodeRunRef(runId)`. -/
def encodeRunRef (runId : Text) : Text := Base64.encode (utf8 runId)

/-- `defined(record)`: the members that are set. -/
def defined (members : List (Text × Option Json)) : Json :=
  .obj (members.filterMap (fun m => m.2.map (fun v => (m.1, v))))

def jsonNat (n : ℕ) : Json := .num (JsNumber.ofInt n)

/-- `runSummaryDto(summary)`; an expiry is the milliseconds of a date. -/
def runSummaryDto (summary : RunSummary) : Json :=
  defined [
    (txt "runId", some (.str summary.runId)),
    (txt "runRef", some (.str (encodeRunRef summary.runId))),
    (txt "ingestionSequence", some (.str (natText summary.ingestionSequence))),
    (txt "expiresAt", (summary.expiresAt.bind timeClip).map (fun d => .str d.toISOString)),
    (txt "verdict", some (.str summary.verdict.text)),
    (txt "complete", some (.bool summary.complete)),
    (txt "closed", some (.bool summary.closed)),
    (txt "ignoredEvents", some (jsonNat summary.ignoredEvents)),
    (txt "duplicateEvents", some (jsonNat summary.duplicateEvents)),
    (txt "sessionCount", some (jsonNat summary.sessionCount)),
    (txt "executionCount", some (jsonNat summary.executionCount)),
    (txt "scopeFailureCount", some (jsonNat summary.scopeFailureCount)),
    (txt "attachmentCount", some (jsonNat summary.attachmentCount))]

/-- `occurrenceDto(o)`. -/
def occurrenceDto (o : ExecutionOccurrence) : Json :=
  defined [
    (txt "runId", some (.str o.runId)),
    (txt "runRef", some (.str (encodeRunRef o.runId))),
    (txt "executionId", some (.str o.executionId)),
    (txt "sessionIds", some (.arr (o.sessionIds.map .str))),
    (txt "historicalIdStability", some (.str o.historicalIdStability.text)),
    (txt "occurredAt", some (.str o.occurredAt)),
    (txt "attemptCount", some (jsonNat o.attemptCount)),
    (txt "complete", some (.bool o.complete)),
    (txt "finalStatus", o.finalStatus.map (fun s => .str s.text)),
    (txt "expectedStatus", o.expectedStatus.map (fun s => .str s.text)),
    (txt "flaky", some (.bool o.flaky)),
    (txt "runVerdict", some (.str o.runVerdict.text)),
    (txt "runComplete", some (.bool o.runComplete)),
    (txt "sessionStatus", o.sessionStatus.map (fun s => .str s.text))]

/-- `historyPageDto(page, nextCursor)`. -/
structure HistoryAnswer where
  runnerName : Text
  historicalId : Text
  occurrences : List Json
  nextCursor : Option Text

/-- `flakinessDto(summary)`. -/
structure FlakinessAnswer where
  runnerName : Text
  historicalId : Text
  totalOccurrences : ℕ
  flakyOccurrences : ℕ
  everFlaky : Bool
deriving DecidableEq

structure RunsAnswer where
  runs : List Json
  nextCursor : Option Text

/-! ### Refusals -/

/-- A problem with its further members. -/
structure Refusal where
  problem : Problem
  extensions : List (Text × ℕ)
deriving DecidableEq

def internalError : Refusal :=
  ⟨⟨500, txt "INTERNAL_ERROR", txt "the server could not complete the request"⟩, []⟩

/-- `asProblem(error)` of what the query layer throws. -/
def asProblem : QueryFailure → Refusal
  | .incomplete status =>
      ⟨⟨503, txt "QUERY_INDEX_INCOMPLETE",
        txt "the project’s query index does not cover every archived run; an operator must rebuild it"⟩,
        [(txt "totalRuns", status.totalRuns), (txt "missingRuns", status.missingRuns),
          (txt "staleRuns", status.staleRuns)]⟩
  | .invalid _ => internalError

/-- The answer of the query layer, or its problem. -/
def asked {α : Type} (r : Except QueryFailure α) : Except Refusal α := r.mapError asProblem

/-! ### Cursors of pages -/

/-- `encodeHistoryCursor` of the position of a page; `toISOString` throws for an invalid date. -/
def writeHistoryCursor (projectId runnerName historicalId : Text) (after : Queries.HistoryCursor) :
    Option Text :=
  after.occurredAt.map fun date =>
    encode [(txt "v", .num (JsNumber.ofInt 1)), (txt "k", .str (txt "history")),
      (txt "b", .str (binding (historyParts projectId runnerName historicalId))),
      (txt "t", .str date.toISOString), (txt "l", .num (JsNumber.ofInt after.leap)),
      (txt "r", .str after.runId), (txt "e", .str after.executionId)]

/-- `encodeRunsCursor` of the sequence a page ends at. -/
def writeRunsCursor (projectId : Text) (before : ℕ) : Text :=
  encode [(txt "v", .num (JsNumber.ofInt 1)), (txt "k", .str (txt "runs")),
    (txt "b", .str (binding (runsParts projectId))), (txt "s", .str (natText before))]

/-! ### Handlers -/

/-- The body of a history query. -/
structure HistoryBody where
  runnerName : Text
  historicalId : Text
  limit : Option ℤ
  cursor : Option Text

section handlers
variable (other : Text → Option Date) (rt : Runtime) (snapshot : Snapshot) (projectId : Text)

/-- The position that the cursor of a body stands for. -/
def afterOf (body : HistoryBody) : Except Refusal (Option Queries.HistoryCursor) :=
  match body.cursor with
  | none => .ok none
  | some cursor =>
      match decodeHistoryCursor other projectId body.runnerName body.historicalId cursor with
      | .error problem => .error ⟨problem, []⟩
      | .ok c => .ok (some ⟨some c.occurredAt, c.leap, c.runId, c.executionId⟩)

/-- `queryHistory`. -/
def queryHistory (body : HistoryBody) : Except Refusal HistoryAnswer := do
  let after ← afterOf other projectId body
  let page ← asked (getTestHistoryPage rt snapshot
    ⟨⟨projectId, body.runnerName, body.historicalId⟩, body.limit, after⟩)
  let nextCursor ← match page.next with
    | none => Except.ok none
    | some next =>
        match writeHistoryCursor projectId body.runnerName body.historicalId next with
        | none => Except.error internalError
        | some cursor => Except.ok (some cursor)
  return ⟨page.runnerName, page.historicalId, page.occurrences.map occurrenceDto, nextCursor⟩

/-- `queryFlakiness`. -/
def queryFlakiness (runnerName historicalId : Text) : Except Refusal FlakinessAnswer := do
  let summary ← asked (getFlakinessSummary rt snapshot ⟨projectId, runnerName, historicalId⟩)
  return ⟨summary.runnerName, summary.historicalId, summary.totalOccurrences,
    summary.flakyOccurrences, summary.everFlaky⟩

/-- The sequence that the cursor of a query string stands for. -/
def beforeOf (cursor : Option Text) : Except Refusal (Option ℤ) :=
  match cursor with
  | none => .ok none
  | some cursor =>
      match decodeRunsCursor projectId cursor with
      | .error problem => .error ⟨problem, []⟩
      | .ok sequence => .ok (some sequence.value)

/-- `listRuns`. -/
def listRuns (limit : Option ℤ) (cursor : Option Text) : Except Refusal RunsAnswer := do
  let before ← beforeOf projectId cursor
  let page ← asked (Queries.listRuns snapshot ⟨projectId, limit, before⟩)
  return ⟨page.runs.map runSummaryDto, page.next.map (writeRunsCursor projectId)⟩

end handlers

end QeReport.Http

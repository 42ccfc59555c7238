import QeReport.Postgres.QueryIndex
import QeReport.Postgres.Reclaim

/-! # The rows of an archived run

What the tables hold under one `(project_id, run_id)`: the row of `qe_runs`, the source lines, the
blob relations, the retention fact, and the derived rows of the query index, with what the
statements of `store.ts` and `index-writer.ts` read there and leave there.  Every statement that
writes under a run is one of the transaction that holds the row of the run. -/

namespace QeReport

open Reclaim (RunKey)

/-- A row of `qe_runs`. -/
structure RunHead where
  ingestionSequence : ℕ
  sourceLocator : Text
  contentFingerprint : Text
  fingerprintVersion : ℕ
  protocolVersions : List Text
  sourceLineCount : ℕ
  sourceAttachmentsVerified : Bool
  validationSummary : Summary
deriving DecidableEq

/-- A row of `qe_run_query_index`. -/
structure IndexHead where
  indexVersion : ℕ
  sourceFingerprint : Text
  facts : RunIndexRow
deriving DecidableEq

/-- A row of `qe_history_occurrences`. -/
structure OccurrenceRow where
  projectId : Text
  runId : Text
  executionId : Text
  historyKey : List ℕ
  indexVersion : ℕ
  runnerName : Text
  historicalId : Text
  historicalIdStability : HistoricalIdStability
  occurredAtRaw : Text
  occurredAtInstant : ℤ
  occurredAtLeap : ℕ
  sessionIds : List Text
  attemptCount : ℕ
  complete : Bool
  finalStatus : Option Status
  expectedStatus : Option ExpectedStatus
  flaky : Bool
  runVerdict : Verdict
  runComplete : Bool
  sessionStatus : Option SessionStatus
deriving DecidableEq

/-- All that is stored under one run. -/
structure RunRows where
  head : RunHead
  lines : List ArchivedLine
  /-- `qe_run_blobs`. -/
  blobs : List Text
  /-- `qe_run_retention`. -/
  expiresAt : Option ℤ
  index : Option IndexHead
  occurrences : List OccurrenceRow
deriving DecidableEq

/-! ### Reading -/

/-- `readStoredRun`, as far as a replay reads it. -/
def RunRows.stored (k : RunKey) (rows : RunRows) : StoredRun where
  projectId := k.projectId
  runId := k.runId
  contentFingerprint := rows.head.contentFingerprint
  fingerprintVersion := rows.head.fingerprintVersion
  sourceLineCount := rows.head.sourceLineCount
  validationSummary := rows.head.validationSummary
  sourceLines := rows.lines

/-- `projectStoredRunFrom`; `none` when it throws. -/
def projectStored (rt : Runtime) (fs : FileSystem) (k : RunKey) (rows : RunRows) :
    Option ProjectedRun := do
  let replayed ← (replayStored rt fs (rows.stored k)).toOption
  (projectRun k.projectId rows.head.sourceLocator replayed).toOption

/-- The answer of `storedFingerprint`. -/
structure StoredFingerprint where
  fingerprint : Text
  ingestionSequence : ℕ
deriving DecidableEq

/-- The content fingerprint that the lines have today. -/
def RunRows.recomputed (rt : Runtime) (rows : RunRows) : Text :=
  contentFingerprint rt (rows.lines.map (fun line => line.toValidatedSourceLine))

/-- `storedFingerprint`: a row written under another fingerprint rule is recomputed. -/
def RunRows.fingerprintFor (rt : Runtime) (version : ℕ) (rows : RunRows) : StoredFingerprint :=
  ⟨if rows.head.fingerprintVersion = version then rows.head.contentFingerprint
    else rows.recomputed rt, rows.head.ingestionSequence⟩

/-! ### Writing -/

/-- `recordRetention`: an expiry that is recorded stays. -/
def recordRetention (expiresAt : ℤ) (rows : RunRows) : RunRows × Bool :=
  match rows.expiresAt with
  | some _ => (rows, false)
  | none => ({ rows with expiresAt := some expiresAt }, true)

/-- `relateBlobs`: the relations that are new, and their number. -/
def relateBlobs (hashes : List Text) (rows : RunRows) : RunRows × ℕ :=
  let added := hashes.filter (fun h => h ∉ rows.blobs)
  ({ rows with blobs := rows.blobs ++ added }, added.length)

/-- The columns of one occurrence, under the identity that the caller holds. -/
def insertedRow (k : RunKey) (version : ℕ) (row : OccurrenceIndexRow) : OccurrenceRow where
  projectId := k.projectId
  runId := k.runId
  executionId := row.occurrence.executionId
  historyKey := row.historyKey
  indexVersion := version
  runnerName := row.occurrence.runnerName
  historicalId := row.occurrence.historicalId
  historicalIdStability := row.occurrence.historicalIdStability
  occurredAtRaw := row.occurrence.occurredAt
  occurredAtInstant := row.occurredAtInstant
  occurredAtLeap := row.occurredAtLeap
  sessionIds := row.occurrence.sessionIds
  attemptCount := row.occurrence.attemptCount
  complete := row.occurrence.complete
  finalStatus := row.occurrence.finalStatus
  expectedStatus := row.occurrence.expectedStatus
  flaky := row.occurrence.flaky
  runVerdict := row.occurrence.runVerdict
  runComplete := row.occurrence.runComplete
  sessionStatus := row.occurrence.sessionStatus

/-- `replaceQueryIndex`; an index that was derived for another identity throws. -/
def replaceQueryIndex (k : RunKey) (version : ℕ) (derived : DerivedQueryIndex)
    (sourceFingerprint : Text) (rows : RunRows) : Except Text RunRows :=
  if derived.run.projectId ≠ k.projectId ∨ derived.run.runId ≠ k.runId then
    .error (txt "the derived index is for " ++ derived.run.runId ++ txt " in " ++
      derived.run.projectId ++ txt ", not " ++ k.runId ++ txt " in " ++ k.projectId)
  else
    .ok { rows with
      index := some ⟨version, sourceFingerprint, derived.run⟩
      occurrences := derived.occurrences.map (insertedRow k version) }

/-- The index row is of this interpretation and of the content that is archived. -/
def RunRows.current (version : ℕ) (rows : RunRows) : Bool :=
  rows.index.any (fun i =>
    decide (i.indexVersion = version) && decide (i.sourceFingerprint = rows.head.contentFingerprint))

section derive
variable (rt : Runtime) (fs : FileSystem)
  (interpret : ℕ → ProjectedRun → Except Text DerivedQueryIndex)

/-- The index that the stored source projects to; `none` when the replay, the projection or the
derivation throws. -/
def storedIndex (version : ℕ) (k : RunKey) (rows : RunRows) : Option DerivedQueryIndex := do
  let run ← projectStored rt fs k rows
  (interpret version run).toOption

/-- `repairStoredIndex`, with whether it rebuilt; `none` when it throws. -/
def repairStoredIndex (version : ℕ) (k : RunKey) (rows : RunRows) : Option (RunRows × Bool) :=
  if rows.current version then some (rows, false)
  else do
    let derived ← storedIndex rt fs interpret version k rows
    let rows ← (replaceQueryIndex k version derived rows.head.contentFingerprint rows).toOption
    return (rows, true)

end derive

/-! ### What never changes -/

/-- The later rows are of the same run: its source as it was, an expiry that is recorded kept, and
no relation lost. -/
structure RunRows.Extends (rows rows' : RunRows) : Prop where
  head : rows'.head = rows.head
  lines : rows'.lines = rows.lines
  expiresAt : ∀ e, rows.expiresAt = some e → rows'.expiresAt = some e
  blobs : rows.blobs ⊆ rows'.blobs

namespace RunRows
variable {rows rows' rows'' : RunRows} {k : RunKey}

theorem Extends.refl (rows : RunRows) : rows.Extends rows :=
  ⟨rfl, rfl, fun _ h => h, fun _ h => h⟩

theorem Extends.trans (h : rows.Extends rows') (h' : rows'.Extends rows'') :
    rows.Extends rows'' :=
  ⟨h'.head.trans h.head, h'.lines.trans h.lines, fun e he => h'.expiresAt e (h.expiresAt e he),
    fun _ hb => h'.blobs (h.blobs hb)⟩

theorem Extends.fingerprintFor (h : rows.Extends rows') (rt : Runtime) (version : ℕ) :
    rows'.fingerprintFor rt version = rows.fingerprintFor rt version := by
  unfold RunRows.fingerprintFor RunRows.recomputed
  rw [h.head, h.lines]

theorem Extends.stored (h : rows.Extends rows') (k : RunKey) : rows'.stored k = rows.stored k := by
  unfold RunRows.stored
  rw [h.head, h.lines]

theorem recordRetention_extends (expiresAt : ℤ) (rows : RunRows) :
    rows.Extends (recordRetention expiresAt rows).1 := by
  unfold recordRetention
  split
  · exact Extends.refl rows
  · rename_i hnone
    refine ⟨rfl, rfl, fun e he => ?_, fun _ h => h⟩
    rw [hnone] at he
    cases he

theorem relateBlobs_extends (hashes : List Text) (rows : RunRows) :
    rows.Extends (relateBlobs hashes rows).1 :=
  ⟨rfl, rfl, fun _ h => h, fun _ h => List.mem_append_left _ h⟩

theorem replaceQueryIndex_eq_ok {version : ℕ} {derived : DerivedQueryIndex} {fingerprint : Text}
    (h : replaceQueryIndex k version derived fingerprint rows = .ok rows') :
    rows' = { rows with
      index := some ⟨version, fingerprint, derived.run⟩
      occurrences := derived.occurrences.map (insertedRow k version) } := by
  unfold replaceQueryIndex at h
  split_ifs at h
  exact (Except.ok.inj h).symm

/-- An index is written under its own identity only. -/
theorem replaceQueryIndex_key {version : ℕ} {derived : DerivedQueryIndex} {fingerprint : Text}
    (h : replaceQueryIndex k version derived fingerprint rows = .ok rows') :
    derived.run.projectId = k.projectId ∧ derived.run.runId = k.runId := by
  unfold replaceQueryIndex at h
  split_ifs at h with hkey
  rw [not_or, not_not, not_not] at hkey
  exact hkey

theorem replaceQueryIndex_extends {version : ℕ} {derived : DerivedQueryIndex} {fingerprint : Text}
    (h : replaceQueryIndex k version derived fingerprint rows = .ok rows') :
    rows.Extends rows' := by
  rw [replaceQueryIndex_eq_ok h]
  exact ⟨rfl, rfl, fun _ h => h, fun _ h => h⟩

section repair
variable {rt : Runtime} {fs : FileSystem}
  {interpret : ℕ → ProjectedRun → Except Text DerivedQueryIndex} {version : ℕ} {rebuilt : Bool}

/-- A repair leaves a current index alone, and writes the one of the stored source otherwise. -/
theorem repairStoredIndex_cases
    (h : repairStoredIndex rt fs interpret version k rows = some (rows', rebuilt)) :
    (rows' = rows ∧ rebuilt = false) ∨
    ∃ derived, storedIndex rt fs interpret version k rows = some derived ∧
      replaceQueryIndex k version derived rows.head.contentFingerprint rows = .ok rows' ∧
      rebuilt = true := by
  unfold repairStoredIndex at h
  split_ifs at h
  · cases h
    exact .inl ⟨rfl, rfl⟩
  · obtain ⟨derived, hderived, h⟩ := Option.bind_eq_some_iff.mp h
    obtain ⟨replaced, hreplaced, h⟩ := Option.bind_eq_some_iff.mp h
    cases h
    refine .inr ⟨derived, hderived, ?_, rfl⟩
    cases hr : replaceQueryIndex k version derived rows.head.contentFingerprint rows with
    | error message =>
        rw [hr] at hreplaced
        cases hreplaced
    | ok r =>
        rw [hr] at hreplaced
        rw [Option.some.inj hreplaced]

theorem repairStoredIndex_extends
    (h : repairStoredIndex rt fs interpret version k rows = some (rows', rebuilt)) :
    rows.Extends rows' := by
  rcases repairStoredIndex_cases h with ⟨rfl, -⟩ | ⟨derived, -, hreplaced, -⟩
  · exact Extends.refl _
  · exact replaceQueryIndex_extends hreplaced

end repair

end RunRows

end QeReport

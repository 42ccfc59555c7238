import QeReport.Postgres.Archive
import QeReport.ReadModel.Assembly
import QeReport.ReadModel.Faithful

/-! # The query index of a run

`deriveQueryIndex` reads a projected run into the rows that the queries answer from: one row of
listing facts, and one row for each history occurrence with its place in history order.  Nothing
is decided here; the occurrences are those of `historyOccurrencesOf`, one for each execution that
has a historical id and a runner. -/

namespace QeReport

/-- `QUERY_INDEX_VERSION`. -/
def queryIndexVersion : ℕ := 1

/-- The listing facts of one run. -/
structure RunIndexRow where
  projectId : Text
  runId : Text
  verdict : Verdict
  complete : Bool
  closed : Bool
  ignoredEventCount : ℕ
  duplicateEventCount : ℕ
  sessionCount : ℕ
  executionCount : ℕ
  scopeFailureCount : ℕ
  attachmentCount : ℕ
deriving DecidableEq

/-- One occurrence as it is stored, with its place in history order. -/
structure OccurrenceIndexRow where
  occurrence : ExecutionOccurrence
  /-- In milliseconds; for a leap second, the last one before it. -/
  occurredAtInstant : ℤ
  occurredAtLeap : ℕ
  historyKey : List ℕ
deriving DecidableEq

structure DerivedQueryIndex where
  run : RunIndexRow
  occurrences : List OccurrenceIndexRow
deriving DecidableEq

/-- `historyKeyOf(runnerName, historicalId)`: a digest of both names, as bytes. -/
def historyKeyOf (rt : Runtime) (runnerName historicalId : Text) : List ℕ :=
  hexBytes (rt.sha256 (utf8 runnerName ++ [0] ++ utf8 historicalId))

/-- The row of one occurrence; a timestamp without a place throws. -/
def occurrenceRow (rt : Runtime) (o : ExecutionOccurrence) : Except Text OccurrenceIndexRow :=
  (fun position => ⟨o, position.epochMs, position.leap, historyKeyOf rt o.runnerName o.historicalId⟩)
    <$> historyInstant o.occurredAt

def runIndexRow (run : ProjectedRun) : RunIndexRow where
  projectId := run.projectId
  runId := run.runId
  verdict := run.validator.verdict
  complete := run.validator.complete
  closed := run.validator.closed
  ignoredEventCount := run.validator.ignoredEvents
  duplicateEventCount := run.validator.duplicateEvents
  sessionCount := run.sessions.length
  executionCount := run.executions.length
  scopeFailureCount := run.scopeFailures.length
  attachmentCount := run.attachments.length

/-- `deriveQueryIndex(run)`. -/
def deriveQueryIndex (rt : Runtime) (run : ProjectedRun) : Except Text DerivedQueryIndex := do
  let occurrences ← historyOccurrencesOf run
  return ⟨runIndexRow run, ← occurrences.mapM (occurrenceRow rt)⟩

/-! ### The occurrences -/

/-- The occurrence of an execution, where it has a historical id, a runner and an attempt. -/
def occurrenceOf (run : ProjectedRun) (x : TestExecution) : Option ExecutionOccurrence := do
  let historicalId ← x.test.historicalId
  let runnerName ← x.runnerName
  let first ← x.attempts.head?
  let sessions : JsMap Text ProjectedSession :=
    run.sessions.foldl (fun m s => m.set s.sessionId s) .empty
  return {
    projectId := run.projectId
    runnerName
    historicalId
    runId := run.runId
    executionId := x.executionId
    sessionIds := sortBy compare (x.attempts.map (fun a => a.sessionId)).dedup
    historicalIdStability := x.test.historicalIdStability
    occurredAt := first.startedAt
    attemptCount := x.attempts.length
    complete := x.complete
    finalStatus := x.finalStatus
    expectedStatus := x.finalAttempt.expectedStatus
    flaky := x.flaky
    runVerdict := run.validator.verdict
    runComplete := run.validator.complete
    sessionStatus := (sessions.get? x.finalAttempt.sessionId).bind (fun s => s.status) }

/-- What an occurrence takes from its execution. -/
theorem occurrenceOf_eq_some {run : ProjectedRun} {x : TestExecution} {o : ExecutionOccurrence}
    (h : occurrenceOf run x = some o) :
    x.test.historicalId = some o.historicalId ∧ x.runnerName = some o.runnerName ∧
      o.executionId = x.executionId ∧
      (∃ first, x.attempts.head? = some first ∧ o.occurredAt = first.startedAt) ∧
      ∀ s ∈ o.sessionIds, ∃ a ∈ x.attempts, a.sessionId = s := by
  obtain ⟨historicalId, hhistorical, h⟩ := Option.bind_eq_some_iff.mp h
  obtain ⟨runnerName, hrunner, h⟩ := Option.bind_eq_some_iff.mp h
  obtain ⟨first, hfirst, h⟩ := Option.bind_eq_some_iff.mp h
  cases h
  refine ⟨hhistorical, hrunner, rfl, ⟨first, hfirst, rfl⟩, ?_⟩
  intro s hs
  rw [mem_sortBy, List.mem_dedup] at hs
  exact List.mem_map.mp hs

theorem exists_occurrence (run : ProjectedRun) {x : TestExecution} {historicalId runnerName : Text}
    (hhistorical : x.test.historicalId = some historicalId) (hrunner : x.runnerName = some runnerName)
    (hne : x.attempts ≠ []) :
    ∃ o, occurrenceOf run x = some o ∧ o.historicalId = historicalId ∧ o.runnerName = runnerName := by
  cases hattempts : x.attempts with
  | nil => exact absurd hattempts hne
  | cons first rest =>
      rw [occurrenceOf, hhistorical, hrunner, hattempts]
      exact ⟨_, rfl, rfl, rfl⟩

theorem mapM_pure_eq {α β ε : Type} {f : α → Except ε β} {g : α → β} {as : List α}
    (h : ∀ a ∈ as, f a = .ok (g a)) : as.mapM f = .ok (as.map g) := by
  induction as with
  | nil => rfl
  | cons a as ih =>
      rw [List.mapM_cons, h a List.mem_cons_self,
        ih (fun b hb => h b (List.mem_cons_of_mem _ hb))]
      rfl

/-- A run whose executions have attempts has the occurrences of its executions. -/
theorem historyOccurrencesOf_eq {run : ProjectedRun} (h : ∀ x ∈ run.executions, x.attempts ≠ []) :
    historyOccurrencesOf run = .ok (run.executions.filterMap (occurrenceOf run)) := by
  rw [historyOccurrencesOf, List.filterMap_eq_flatMap_toList, List.flatMap_def]
  rw [mapM_pure_eq (g := fun x => (occurrenceOf run x).toList)]
  · rfl
  · intro x hx
    unfold occurrenceOf
    cases x.test.historicalId with
    | none => rfl
    | some historicalId =>
        cases x.runnerName with
        | none => rfl
        | some runnerName =>
            cases hattempts : x.attempts with
            | nil => exact absurd hattempts (h x hx)
            | cons first rest => rfl

/-- The index of a run whose occurrences have a place. -/
theorem deriveQueryIndex_eq {rt : Runtime} {run : ProjectedRun}
    (h : ∀ x ∈ run.executions, x.attempts ≠ []) {rows : List OccurrenceIndexRow}
    (hrows : (run.executions.filterMap (occurrenceOf run)).mapM (occurrenceRow rt) = .ok rows) :
    deriveQueryIndex rt run = .ok ⟨runIndexRow run, rows⟩ := by
  rw [deriveQueryIndex, historyOccurrencesOf_eq h]
  change (do
    let rows ← (run.executions.filterMap (occurrenceOf run)).mapM (occurrenceRow rt)
    return DerivedQueryIndex.mk (runIndexRow run) rows) = _
  rw [hrows]
  rfl

theorem occurrenceRow_eq_ok {rt : Runtime} {o : ExecutionOccurrence} {row : OccurrenceIndexRow}
    (h : occurrenceRow rt o = .ok row) : row.occurrence = o := by
  rw [occurrenceRow] at h
  cases hi : historyInstant o.occurredAt with
  | error e =>
      rw [hi] at h
      cases h
  | ok i =>
      rw [hi] at h
      cases h
      rfl

/-! ### The executions of a projection -/

namespace Projector
variable {attempts : JsMap Text AttemptState} {sessions : JsMap Text SessionState}
  {xs : List TestExecution}

/-- An execution is described by its first attempt. -/
theorem groupExecution_first {executionId : Text} {states : List AttemptState} {x : TestExecution}
    (h : groupExecution sessions executionId states = .ok x) :
    ∃ first rest, x.attempts = first :: rest ∧ x.test = first.test ∧
      x.runnerName = runnerOf sessions first := by
  unfold groupExecution at h
  dsimp only at h
  split at h
  · cases h
  · split at h
    · cases h
    · rename_i first rest hlist
      split at h
      · cases h
      · split_ifs at h
        cases h
        refine ⟨first, rest, hlist, rfl, ?_⟩
        simp [hlist, fresh, freshAfter]

/-- An execution of a run with the state of its first attempt. -/
structure ExecutionOf (attempts : JsMap Text AttemptState) (sessions : JsMap Text SessionState)
    (x : TestExecution) (a : AttemptState) : Prop where
  mem : a ∈ attempts.values
  first : x.attempts.head? = some (attempt a)
  test : x.test = a.started.payload.test
  runner : x.runnerName = runnerOf sessions (attempt a)
  executionId : a.started.payload.test.executionId = x.executionId
  members : ∀ b ∈ x.attempts, ∃ c ∈ attempts.values, b = attempt c

/-- Every execution of a run has a first attempt. -/
theorem executionOf (h : groupExecutions attempts sessions = .ok xs) {x : TestExecution}
    (hx : x ∈ xs) : ∃ a, ExecutionOf attempts sessions x a := by
  obtain ⟨g, hg, hok⟩ := mem_of_forall₂ (mapM_eq_ok h) hx
  obtain ⟨first, rest, hattempts, htest, hrunner⟩ := groupExecution_first hok
  obtain ⟨hid, hsorted⟩ := groupExecution_eq_ok hok
  have hmembers : ∀ b ∈ x.attempts, ∃ c ∈ attempts.values, b = attempt c ∧
      c.started.payload.test.executionId = x.executionId := by
    intro b hb
    rw [hsorted, mem_sortBy, (mem_groups hg).1] at hb
    obtain ⟨c, hc, rfl⟩ := List.mem_map.mp hb
    rw [List.mem_filter, decide_eq_true_eq] at hc
    exact ⟨c, hc.1, rfl, hc.2.trans hid.symm⟩
  obtain ⟨a, ha, rfl, haid⟩ := hmembers first (by rw [hattempts]; exact List.mem_cons_self)
  refine ⟨a, ha, ?_, htest, hrunner, haid, ?_⟩
  · rw [hattempts, List.head?_cons]
  · intro b hb
    obtain ⟨c, hc, hbc, -⟩ := hmembers b hb
    exact ⟨c, hc, hbc⟩

/-- Every attempt belongs to an execution of the run. -/
theorem exists_execution (h : groupExecutions attempts sessions = .ok xs) {a : AttemptState}
    (ha : a ∈ attempts.values) :
    ∃ x ∈ xs, x.executionId = a.started.payload.test.executionId := by
  have hkey : ∃ g ∈ groups attempts, g.1 = a.started.payload.test.executionId := by
    have hget := JsMap.get?_groupBy (fun a : AttemptState => a.started.payload.test.executionId) id
      attempts.values a.started.payload.test.executionId
    rw [if_pos (List.mem_map_of_mem ha)] at hget
    exact ⟨_, mem_sortBy.mpr (JsMap.mem_entries.mpr hget), rfl⟩
  obtain ⟨g, hg, hga⟩ := hkey
  obtain ⟨x, hx, hok⟩ := exists_of_forall₂ (mapM_eq_ok h) hg
  exact ⟨x, hx, (groupExecution_eq_ok hok).1.trans hga⟩

end Projector

end QeReport

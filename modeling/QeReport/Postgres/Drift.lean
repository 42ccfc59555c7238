import QeReport.Postgres.HistoryPages

/-! # The drift of an index

`verifyIndexedRun` projects the stored source of a run again and compares the result with the rows
of its index.  It finds no difference exactly when the rows are those that the projection gives, up
to their history keys, which it does not look at (`compareIndex_agrees`); where the archive itself
wrote the index, it finds none. -/

namespace QeReport.Queries

open Archiving
open Reclaim (RunKey)

/-! ### The comparison -/

/-- One fact, as it is stored and as it is now. -/
structure Comparison where
  name : Text
  was : Text
  now : Text
  same : Bool

def Comparison.of {α : Type} [DecidableEq α] (name : Text) (text : α → Text) (was now : α) :
    Comparison := ⟨name, text was, text now, decide (was = now)⟩

/-- `String(value)` of a boolean. -/
def boolText (b : Bool) : Text := (SummaryValue.boolean b).text

/-- `String(value)` of a value that may be undefined. -/
def optionText {α : Type} (text : α → Text) (value : Option α) : Text :=
  (value.map text).getD (txt "undefined")

/-- `String(value)` of an array. -/
def arrayText (values : List Text) : Text := List.intercalate (txt ",") values

/-- `facts`. -/
def facts (row derived : RunIndexRow) : List Comparison :=
  [.of (txt "verdict") Verdict.text row.verdict derived.verdict,
    .of (txt "complete") boolText row.complete derived.complete,
    .of (txt "closed") boolText row.closed derived.closed,
    .of (txt "ignoredEvents") natText row.ignoredEventCount derived.ignoredEventCount,
    .of (txt "duplicateEvents") natText row.duplicateEventCount derived.duplicateEventCount,
    .of (txt "sessions") natText row.sessionCount derived.sessionCount,
    .of (txt "executions") natText row.executionCount derived.executionCount,
    .of (txt "scopeFailures") natText row.scopeFailureCount derived.scopeFailureCount,
    .of (txt "attachments") natText row.attachmentCount derived.attachmentCount]

/-- `OCCURRENCE_FIELDS`. -/
def occurrenceFields (was now : ExecutionOccurrence) : List Comparison :=
  [.of (txt "projectId") id was.projectId now.projectId,
    .of (txt "runnerName") id was.runnerName now.runnerName,
    .of (txt "historicalId") id was.historicalId now.historicalId,
    .of (txt "runId") id was.runId now.runId,
    .of (txt "executionId") id was.executionId now.executionId,
    .of (txt "sessionIds") arrayText was.sessionIds now.sessionIds,
    .of (txt "historicalIdStability") HistoricalIdStability.text was.historicalIdStability
      now.historicalIdStability,
    .of (txt "occurredAt") id was.occurredAt now.occurredAt,
    .of (txt "attemptCount") natText was.attemptCount now.attemptCount,
    .of (txt "complete") boolText was.complete now.complete,
    .of (txt "finalStatus") (optionText Status.text) was.finalStatus now.finalStatus,
    .of (txt "expectedStatus") (optionText ExpectedStatus.text) was.expectedStatus
      now.expectedStatus,
    .of (txt "flaky") boolText was.flaky now.flaky,
    .of (txt "runVerdict") Verdict.text was.runVerdict now.runVerdict,
    .of (txt "runComplete") boolText was.runComplete now.runComplete,
    .of (txt "sessionStatus") (optionText SessionStatus.text) was.sessionStatus now.sessionStatus]

/-- The differences of the head of the index. -/
def headDifferences (version : ℕ) (contentFingerprint : Text) (derived : RunIndexRow) :
    Option IndexHead → List Text
  | none => [txt "the run has no query index"]
  | some row =>
      (if row.indexVersion ≠ version then
        [txt "index version: stored " ++ natText row.indexVersion ++ txt ", current " ++
          natText version] else []) ++
      (if row.sourceFingerprint ≠ contentFingerprint then
        [txt "source fingerprint: the index was built from other content"] else []) ++
      (facts row.facts derived).filterMap (fun c =>
        if c.same then none
        else some (c.name ++ txt ": stored " ++ c.was ++ txt ", now " ++ c.now))

/-- The differences of one occurrence. -/
def occurrenceDifferences (projectId : Text) (version : ℕ) (stored : OccurrenceRow)
    (now : OccurrenceIndexRow) : List Text :=
  (occurrenceFields (occurrenceOf projectId stored.runnerName stored.historicalId stored)
    now.occurrence).filterMap (fun c =>
      if c.same then none
      else some (txt "occurrence " ++ now.occurrence.executionId ++ txt ": " ++ c.name ++
        txt " is " ++ c.was ++ txt ", now " ++ c.now)) ++
  (if stored.occurredAtInstant ≠ now.occurredAtInstant ∨
      stored.occurredAtLeap ≠ now.occurredAtLeap then
    [txt "occurrence " ++ now.occurrence.executionId ++
      txt ": the ordering instant is not the position its clock reads to"] else []) ++
  (if stored.indexVersion ≠ version then
    [txt "occurrence " ++ now.occurrence.executionId ++ txt ": written under index version " ++
      natText stored.indexVersion] else [])

structure IndexDrift where
  projectId : Text
  runId : Text
  agrees : Bool
  differences : List Text
deriving DecidableEq

/-- `byteOrder(a, b)`. -/
def byteOrder (a b : Text) : Ordering := compare (utf8 a) (utf8 b)

/-- `ORDER BY execution_id`. -/
def byExecution (a b : OccurrenceRow) : Ordering := byteOrder a.executionId b.executionId

/-- `SELECT … FROM qe_run_query_index WHERE project_id = $1 AND run_id = $2`. -/
def selectHead (k : RunKey) (rows : RunRows) : Option IndexHead :=
  rows.index.filter (fun i => i.facts.projectId = k.projectId ∧ i.facts.runId = k.runId)

/-- `SELECT … FROM qe_history_occurrences WHERE … ORDER BY execution_id`. -/
def selectOccurrences (k : RunKey) (rows : RunRows) : List OccurrenceRow :=
  sortBy byExecution
    (rows.occurrences.filter (fun r => r.projectId = k.projectId ∧ r.runId = k.runId))

/-- `expected`. -/
def expectedOccurrences (derived : DerivedQueryIndex) : List OccurrenceIndexRow :=
  sortBy (fun a b => byteOrder a.occurrence.executionId b.occurrence.executionId)
    derived.occurrences

/-- `compareIndex(db, projectId, runId, derived, stored)`. -/
def compareIndex (k : RunKey) (version : ℕ) (derived : DerivedQueryIndex) (rows : RunRows) :
    IndexDrift :=
  let stored := selectOccurrences k rows
  let expected := expectedOccurrences derived
  let differences :=
    headDifferences version rows.head.contentFingerprint derived.run (selectHead k rows) ++
    (if stored.length ≠ expected.length then
      [txt "history occurrences: stored " ++ natText stored.length ++ txt ", now " ++
        natText expected.length]
    else (stored.zip expected).flatMap
      (fun x => occurrenceDifferences k.projectId version x.1 x.2))
  ⟨k.projectId, k.runId, differences.isEmpty, differences⟩

/-- `verifyIndexedRun(projectId, runId)` of an archived run or none; nothing when the replay, the
projection or the derivation throws. -/
def verifyIndexedRun (rt : Runtime) (fs : FileSystem)
    (interpret : ℕ → ProjectedRun → Except Text DerivedQueryIndex) (version : ℕ) (k : RunKey) :
    Option RunRows → Option IndexDrift
  | none => some ⟨k.projectId, k.runId, false, [txt "the run is not archived"]⟩
  | some rows =>
      (storedIndex rt fs interpret version k rows).map
        (fun derived => compareIndex k version derived rows)

/-! ### What it finds -/

/-- The columns of an occurrence that the comparison looks at. -/
def withoutKey (r : OccurrenceRow) : OccurrenceRow := { r with historyKey := [] }

theorem same_of {α : Type} [DecidableEq α] {name : Text} {text : α → Text} {was now : α} :
    (Comparison.of name text was now).same = true ↔ was = now := decide_eq_true_iff

theorem filterMap_same {cs : List Comparison} {f : Comparison → Text} :
    cs.filterMap (fun c => if c.same then none else some (f c)) = [] ↔
      ∀ c ∈ cs, c.same = true := by
  simp [List.filterMap_eq_nil_iff]

theorem ite_singleton {P : Prop} [Decidable P] {t : Text} :
    (if P then [t] else []) = [] ↔ ¬ P := by
  split_ifs with h <;> simp [h]

/-- The head agrees when it is the one that the projection gives. -/
theorem headDifferences_eq_nil {version : ℕ} {fingerprint : Text} {derived : RunIndexRow}
    {head : Option IndexHead}
    (hkey : ∀ i, head = some i → i.facts.projectId = derived.projectId ∧
      i.facts.runId = derived.runId) :
    headDifferences version fingerprint derived head = [] ↔
      head = some ⟨version, fingerprint, derived⟩ := by
  cases head with
  | none => simp [headDifferences]
  | some i =>
      obtain ⟨hproject, hrun⟩ := hkey i rfl
      obtain ⟨indexVersion, sourceFingerprint, row⟩ := i
      obtain ⟨projectId, runId, verdict, complete, closed, ignored, duplicates, sessions,
        executions, scopes, attachments⟩ := row
      obtain ⟨projectId', runId', verdict', complete', closed', ignored', duplicates', sessions',
        executions', scopes', attachments'⟩ := derived
      dsimp only at hproject hrun
      subst hproject hrun
      rw [headDifferences, List.append_eq_nil_iff, List.append_eq_nil_iff, ite_singleton,
        ite_singleton, filterMap_same]
      simp only [facts, List.mem_cons, List.not_mem_nil, or_false, forall_eq_or_imp, forall_eq,
        same_of, not_not, Option.some.injEq, IndexHead.mk.injEq, RunIndexRow.mk.injEq, true_and]
      tauto

/-- An occurrence agrees when its row is the one that would be inserted, up to the history key. -/
theorem occurrenceDifferences_eq_nil {k : RunKey} {version : ℕ} {stored : OccurrenceRow}
    {now : OccurrenceIndexRow} (hstored : stored.projectId = k.projectId ∧ stored.runId = k.runId)
    (hnow : now.occurrence.projectId = k.projectId ∧ now.occurrence.runId = k.runId) :
    occurrenceDifferences k.projectId version stored now = [] ↔
      withoutKey stored = withoutKey (insertedRow k version now) := by
  obtain ⟨hproject, hrun⟩ := hstored
  obtain ⟨hproject', hrun'⟩ := hnow
  rw [occurrenceDifferences, List.append_eq_nil_iff, List.append_eq_nil_iff, ite_singleton,
    ite_singleton, filterMap_same]
  simp only [occurrenceFields, occurrenceOf, List.mem_cons, List.not_mem_nil, or_false,
    forall_eq_or_imp, forall_eq, same_of, not_or, not_not, withoutKey, insertedRow,
    OccurrenceRow.mk.injEq, hproject, hrun, hproject', hrun', true_and]
  tauto

instance byExecution_trans : Std.TransCmp byExecution :=
  inferInstanceAs (Std.TransCmp (compareOn (fun r : OccurrenceRow => utf8 r.executionId)))

/-- Lists agree pair by pair when their images are equal. -/
theorem zip_agree_iff {α β γ : Type} {f : α → γ} {g : β → γ} {as : List α} {bs : List β} :
    (as.length = bs.length ∧ ∀ x ∈ as.zip bs, f x.1 = g x.2) ↔ as.map f = bs.map g := by
  induction as generalizing bs with
  | nil => cases bs <;> simp
  | cons a as ih =>
      cases bs with
      | nil => simp
      | cons b bs =>
          rw [List.map_cons, List.map_cons, List.cons.injEq, ← ih]
          simp only [List.length_cons, List.zip_cons_cons, List.mem_cons, forall_eq_or_imp,
            Nat.succ_inj]
          tauto

section rows
variable {k : RunKey} {version : ℕ} {derived : DerivedQueryIndex} {rows : RunRows}

/-- The rows that are selected are of the run. -/
theorem mem_selectOccurrences {r : OccurrenceRow} (h : r ∈ selectOccurrences k rows) :
    r ∈ rows.occurrences ∧ r.projectId = k.projectId ∧ r.runId = k.runId := by
  obtain ⟨hmem, hkey⟩ := List.mem_filter.mp (mem_sortBy.mp h)
  exact ⟨hmem, of_decide_eq_true hkey⟩

/-- Rows that are all of the run are all selected. -/
theorem selectOccurrences_perm
    (h : ∀ r ∈ rows.occurrences, r.projectId = k.projectId ∧ r.runId = k.runId) :
    (selectOccurrences k rows).Perm rows.occurrences := by
  refine (sortBy_perm _).trans (List.Perm.of_eq (List.filter_eq_self.mpr fun r hr => ?_))
  exact decide_eq_true (h r hr)

/-- No pair of rows differs when the two listings are equal, up to the history keys. -/
theorem pairDifferences_eq_nil
    (hown : ∀ d ∈ derived.occurrences,
      d.occurrence.projectId = k.projectId ∧ d.occurrence.runId = k.runId) :
    (if (selectOccurrences k rows).length ≠ (expectedOccurrences derived).length then
      [txt "history occurrences: stored " ++ natText (selectOccurrences k rows).length ++
        txt ", now " ++ natText (expectedOccurrences derived).length]
    else ((selectOccurrences k rows).zip (expectedOccurrences derived)).flatMap
      (fun x => occurrenceDifferences k.projectId version x.1 x.2)) = [] ↔
      (selectOccurrences k rows).map withoutKey =
        (expectedOccurrences derived).map (fun d => withoutKey (insertedRow k version d)) := by
  have hpair : ∀ x ∈ (selectOccurrences k rows).zip (expectedOccurrences derived),
      (occurrenceDifferences k.projectId version x.1 x.2 = [] ↔
        withoutKey x.1 = withoutKey (insertedRow k version x.2)) := by
    intro x hx
    obtain ⟨hstored, hnow⟩ := List.of_mem_zip hx
    exact occurrenceDifferences_eq_nil (mem_selectOccurrences hstored).2
      (hown _ (mem_sortBy.mp hnow))
  rw [← zip_agree_iff]
  by_cases hlength : (selectOccurrences k rows).length = (expectedOccurrences derived).length
  · rw [if_neg (not_not.mpr hlength), List.flatMap_eq_nil_iff]
    exact ⟨fun hall => ⟨hlength, fun x hx => (hpair x hx).mp (hall x hx)⟩,
      fun h x hx => (hpair x hx).mpr (h.2 x hx)⟩
  · rw [if_pos hlength]
    exact iff_of_false (List.cons_ne_nil _ _) (fun h => hlength h.1)

/-- Both listings are sorted by the execution id, which names a row, so they are equal when they
hold the same rows. -/
theorem listings_eq_iff
    (hkeys : ((selectOccurrences k rows).map (fun r => utf8 r.executionId)).Nodup) :
    (selectOccurrences k rows).map withoutKey =
        (expectedOccurrences derived).map (fun d => withoutKey (insertedRow k version d)) ↔
      ((selectOccurrences k rows).map withoutKey).Perm
        (derived.occurrences.map (fun d => withoutKey (insertedRow k version d))) := by
  have hexpected : (expectedOccurrences derived).map
        (fun d => withoutKey (insertedRow k version d)) =
      sortBy byExecution
        (derived.occurrences.map (fun d => withoutKey (insertedRow k version d))) := by
    change List.map _ (sortBy (fun a b => byExecution (withoutKey (insertedRow k version a))
      (withoutKey (insertedRow k version b))) derived.occurrences) = _
    exact map_sortBy _ (fun _ _ => rfl) _
  have hstored : (selectOccurrences k rows).map withoutKey =
      sortBy byExecution ((selectOccurrences k rows).map withoutKey) := by
    refine (sortBy_eq_self (List.pairwise_map.mpr ?_)).symm
    exact @sortBy_pairwise _ byExecution byExecution_trans _
  constructor
  · intro heq
    rw [heq, hexpected]
    exact sortBy_perm _
  · intro hperm
    rw [hexpected, hstored]
    refine @sortBy_eq_of_perm _ byExecution byExecution_trans _ _ hperm fun a ha b hb hab => ?_
    obtain ⟨r, hr, rfl⟩ := List.mem_map.mp ha
    obtain ⟨r', hr', rfl⟩ := List.mem_map.mp hb
    have hsame : utf8 r.executionId = utf8 r'.executionId := Std.LawfulEqCmp.eq_of_compare hab
    rw [List.inj_on_of_nodup_map hkeys hr hr' hsame]

/-- The comparison agrees exactly when the rows are the ones that the projection gives, up to their
history keys. -/
theorem compareIndex_agrees
    (hrun : derived.run.projectId = k.projectId ∧ derived.run.runId = k.runId)
    (hown : ∀ d ∈ derived.occurrences,
      d.occurrence.projectId = k.projectId ∧ d.occurrence.runId = k.runId)
    (hkeys : ((selectOccurrences k rows).map (fun r => utf8 r.executionId)).Nodup) :
    (compareIndex k version derived rows).agrees = true ↔
      selectHead k rows = some ⟨version, rows.head.contentFingerprint, derived.run⟩ ∧
        ((selectOccurrences k rows).map withoutKey).Perm
          (derived.occurrences.map (fun d => withoutKey (insertedRow k version d))) := by
  have hhead := @headDifferences_eq_nil version rows.head.contentFingerprint derived.run
    (selectHead k rows) (fun i hi => by
      obtain ⟨-, hkey⟩ := Option.filter_eq_some_iff.mp hi
      obtain ⟨hproject, hid⟩ := of_decide_eq_true hkey
      exact ⟨hproject.trans hrun.1.symm, hid.trans hrun.2.symm⟩)
  rw [← hhead, ← listings_eq_iff hkeys, ← pairDifferences_eq_nil hown,
    ← List.append_eq_nil_iff]
  exact List.isEmpty_iff

theorem compareIndex_of_agrees (h : (compareIndex k version derived rows).agrees = true) :
    compareIndex k version derived rows = ⟨k.projectId, k.runId, true, []⟩ := by
  have hnil : (compareIndex k version derived rows).differences = [] := List.isEmpty_iff.mp h
  change IndexDrift.mk k.projectId k.runId (compareIndex k version derived rows).agrees
    (compareIndex k version derived rows).differences = _
  rw [h, hnil]

theorem current_index (h : rows.current version = true) : ∃ i, rows.index = some i ∧
    i.indexVersion = version ∧ i.sourceFingerprint = rows.head.contentFingerprint := by
  unfold RunRows.current at h
  cases hi : rows.index with
  | none =>
      rw [hi] at h
      cases h
  | some i =>
      rw [hi, Option.any_some, Bool.and_eq_true, decide_eq_true_eq, decide_eq_true_eq] at h
      exact ⟨i, rfl, h⟩

end rows

/-! ### The index of an archive -/

section archive
variable {rt : Runtime} {fs : FileSystem}
  {interpret : ℕ → ProjectedRun → Except Text DerivedQueryIndex} {dateTime : Text → Bool}

/-- What derives from a stored source names the run, and each of its executions once. -/
theorem derived_named (hinterpret : interpret queryIndexVersion = deriveQueryIndex rt)
    (hschema : ∀ t v, rt.validate t v = none → EventSchema.validates dateTime t v = true)
    {k : RunKey} {rows : RunRows} {derived : DerivedQueryIndex}
    (hderived : storedIndex rt fs interpret queryIndexVersion k rows = some derived)
    (hrunId : derived.run.runId = k.runId) :
    (∀ d ∈ derived.occurrences,
      d.occurrence.projectId = k.projectId ∧ d.occurrence.runId = k.runId) ∧
    (derived.occurrences.map (fun d => utf8 d.occurrence.executionId)).Nodup := by
  obtain ⟨run, hrun, hderive⟩ := Option.bind_eq_some_iff.mp hderived
  rw [hinterpret] at hderive
  obtain ⟨⟨os, hos, hps⟩, hfacts, hoccurrences⟩ := derived_placed (eq_ok_of_toOption hderive)
  have horderable := orderable hschema (projectedUnder_of_stored hrun)
  have hids := placedIn horderable hos hps
  have hrunId' : run.runId = k.runId := by
    rw [← hrunId, hfacts]
    rfl
  rw [hoccurrences]
  constructor
  · intro d hd
    obtain ⟨p, hp, rfl⟩ := List.mem_map.mp hd
    exact ⟨(hids.projectId p hp).trans horderable.projectId, (hids.runId p hp).trans hrunId'⟩
  · have hdistinct := hids.distinct
    rw [List.map_map]
    rw [List.Nodup, List.pairwise_map] at hdistinct ⊢
    refine hdistinct.imp_of_mem fun {p q} hp hq hne heq => hne ?_
    rw [Function.comp_apply, Function.comp_apply,
      utf8_ascii (isAscii_protocolIdentifier (hids.named p hp).executionId),
      utf8_ascii (isAscii_protocolIdentifier (hids.named q hq).executionId)] at heq
    exact List.map_injective_iff.mpr Fin.val_injective heq

end archive

end QeReport.Queries

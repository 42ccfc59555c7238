import Mathlib.Data.List.Forall2
import QeReport.Postgres.Catalog
import QeReport.Postgres.HistoryRows
import QeReport.Postgres.Queries
import QeReport.ReadModel.Accepted

/-! # Histories read from the index

When every run of a project has a current index, the rows that a question about a test selects are
the placed occurrences of the test in the projections of the runs, and their order by position is
the order of a history in memory (`positionOf_lt_iff`).  So each page is a part of the history that
the read model assembles from the same runs (`historyRows_eq`). -/

namespace QeReport.Queries

open Archiving Http.Cursor
open Reclaim (RunKey)

/-! ### Positions -/

theorem compare_lt_of_map {a b : Text} :
    a.map Fin.val < b.map Fin.val ↔ compare a b = .lt := by
  induction a generalizing b with
  | nil => cases b <;> simp
  | cons u a ih =>
      cases b with
      | nil => simp
      | cons v b =>
          rw [List.map_cons, List.map_cons, List.cons_lt_cons_iff, ih, List.compare_eq_compareLex,
            List.compareLex_cons_cons, Ordering.then_eq_lt, compare_lt_iff_lt, compare_eq_iff_eq,
            Fin.val_fin_lt, Fin.val_inj]

theorem isAscii_protocolIdentifier {t : Text} (h : isProtocolIdentifier t = true) : IsAscii t := by
  rw [isProtocolIdentifier, Bool.and_eq_true] at h
  exact isIdentifier_ascii h.1

/-- The row of a placed occurrence. -/
def storedRow (rt : Runtime) (p : HistoryInstant × ExecutionOccurrence) : OccurrenceRow :=
  insertedRow ⟨p.2.projectId, p.2.runId⟩ queryIndexVersion
    ⟨p.2, p.1.epochMs, p.1.leap, historyKeyOf rt p.2.runnerName p.2.historicalId⟩

/-- The occurrence stands at its instant, and identifiers name it. -/
structure Named (p : HistoryInstant × ExecutionOccurrence) : Prop where
  instant : historyInstant p.2.occurredAt = .ok p.1
  runId : isProtocolIdentifier p.2.runId = true
  executionId : isProtocolIdentifier p.2.executionId = true

/-- The columns order the rows as the read model orders the occurrences: identifiers are ASCII,
where bytes and code units agree. -/
theorem positionOf_lt_iff (rt : Runtime) {p q : HistoryInstant × ExecutionOccurrence} (hp : Named p)
    (hq : Named q) : positionOf (storedRow rt p) < positionOf (storedRow rt q) ↔
      compareHistoryOccurrences p q = .lt := by
  have hutf8 : ∀ {s t : Text}, isProtocolIdentifier s = true → isProtocolIdentifier t = true →
      (utf8 s < utf8 t ↔ compare s t = .lt) ∧ (utf8 s = utf8 t ↔ compare s t = .eq) := by
    intro s t hs ht
    rw [utf8_ascii (isAscii_protocolIdentifier hs), utf8_ascii (isAscii_protocolIdentifier ht)]
    refine ⟨compare_lt_of_map, ?_⟩
    rw [Std.LawfulEqCmp.compare_eq_iff_eq]
    exact (List.map_injective_iff.mpr Fin.val_injective).eq_iff
  obtain ⟨hrun, hrun'⟩ := hutf8 hp.runId hq.runId
  obtain ⟨hexecution, -⟩ := hutf8 hp.executionId hq.executionId
  change position p.1.epochMs p.1.leap p.2.runId p.2.executionId <
    position q.1.epochMs q.1.leap q.2.runId q.2.executionId ↔ _
  rw [position, position, Prod.Lex.toLex_lt_toLex, Prod.Lex.toLex_lt_toLex, Prod.Lex.toLex_lt_toLex,
    hrun, hrun', hexecution, compareHistoryOccurrences, compareHistoryInstants]
  simp only [Ordering.then_eq_lt, Ordering.then_eq_eq, compare_lt_iff_lt, compare_eq_iff_eq]
  norm_cast
  tauto

/-! ### The rows of a run -/

/-- The occurrences of a run with their instants. -/
def placedOccurrences (run : ProjectedRun) : List (HistoryInstant × ExecutionOccurrence) :=
  (((historyOccurrencesOf run) >>= (fun os => os.mapM placed)).toOption).getD []

theorem rows_placed {rt : Runtime} {os : List ExecutionOccurrence} {rows : List OccurrenceIndexRow}
    (h : os.mapM (occurrenceRow rt) = .ok rows) : ∃ ps, os.mapM placed = .ok ps ∧
      rows = ps.map (fun p =>
        ⟨p.2, p.1.epochMs, p.1.leap, historyKeyOf rt p.2.runnerName p.2.historicalId⟩) := by
  have hrows := Projector.mapM_eq_ok h
  clear h
  induction hrows with
  | nil => exact ⟨[], rfl, rfl⟩
  | @cons o row os rows ho _ ih =>
      obtain ⟨ps, hps, rfl⟩ := ih
      obtain ⟨i, hi, rfl⟩ := map_eq_ok.mp ho
      refine ⟨(i, o) :: ps, ?_, rfl⟩
      rw [List.mapM_cons, placed, hi, hps]
      rfl

theorem derived_placed {rt : Runtime} {run : ProjectedRun} {derived : DerivedQueryIndex}
    (h : deriveQueryIndex rt run = .ok derived) :
    (∃ os, historyOccurrencesOf run = .ok os ∧ os.mapM placed = .ok (placedOccurrences run)) ∧
      derived.run = runIndexRow run ∧
      derived.occurrences = (placedOccurrences run).map (fun p =>
        ⟨p.2, p.1.epochMs, p.1.leap, historyKeyOf rt p.2.runnerName p.2.historicalId⟩) := by
  obtain ⟨os, hos, h⟩ := bind_eq_ok.mp h
  obtain ⟨rows, hrows, h⟩ := bind_eq_ok.mp h
  cases h
  obtain ⟨ps, hps, rfl⟩ := rows_placed hrows
  have hplaced : placedOccurrences run = ps := by
    rw [placedOccurrences, hos]
    change ((os.mapM placed).toOption).getD [] = ps
    rw [hps]
    rfl
  rw [hplaced]
  exact ⟨⟨os, hos, hps⟩, rfl, rfl⟩

theorem occurrenceOf_ids {run : ProjectedRun} {x : TestExecution} {o : ExecutionOccurrence}
    (h : QeReport.occurrenceOf run x = some o) :
    o.projectId = run.projectId ∧ o.runId = run.runId ∧ o.executionId = x.executionId := by
  obtain ⟨historicalId, -, h⟩ := Option.bind_eq_some_iff.mp h
  obtain ⟨runnerName, -, h⟩ := Option.bind_eq_some_iff.mp h
  obtain ⟨first, -, h⟩ := Option.bind_eq_some_iff.mp h
  cases h
  exact ⟨rfl, rfl, rfl⟩

/-- The ids of the occurrences of an orderable run. -/
structure PlacedIn (run : ProjectedRun) (ps : List (HistoryInstant × ExecutionOccurrence)) :
    Prop where
  named : ∀ p ∈ ps, Named p
  projectId : ∀ p ∈ ps, p.2.projectId = run.projectId
  runId : ∀ p ∈ ps, p.2.runId = run.runId
  distinct : (ps.map (fun p => p.2.executionId)).Nodup

theorem placedIn {projectId : Text} {run : ProjectedRun} (h : Orderable projectId run)
    {os : List ExecutionOccurrence} {ps : List (HistoryInstant × ExecutionOccurrence)}
    (hos : historyOccurrencesOf run = .ok os) (hps : os.mapM placed = .ok ps) :
    PlacedIn run ps := by
  rw [historyOccurrencesOf_eq h.attempts] at hos
  obtain rfl := Except.ok.inj hos
  have hpairs := Projector.mapM_eq_ok hps
  have hsource : ∀ p ∈ ps, ∃ x ∈ run.executions, QeReport.occurrenceOf run x = some p.2 ∧
      historyInstant p.2.occurredAt = .ok p.1 := by
    intro p hp
    obtain ⟨o, ho, hop⟩ := QeReport.mem_of_forall₂ hpairs hp
    obtain ⟨i, hi, rfl⟩ := map_eq_ok.mp hop
    obtain ⟨x, hx, hxo⟩ := List.mem_filterMap.mp ho
    exact ⟨x, hx, hxo, hi⟩
  have hsnd := map_snd_placed hps
  have hids : ∀ xs : List TestExecution,
      ((xs.filterMap (QeReport.occurrenceOf run)).map (fun o => o.executionId)).Sublist
        (xs.map (fun x => x.executionId)) := by
    intro xs
    induction xs with
    | nil => exact List.Sublist.refl _
    | cons x xs ih =>
        cases hx : QeReport.occurrenceOf run x with
        | none =>
            rw [List.filterMap_cons_none hx, List.map_cons]
            exact ih.cons _
        | some o =>
            rw [List.filterMap_cons_some hx, List.map_cons, List.map_cons, (occurrenceOf_ids hx).2.2]
            exact ih.cons_cons _
  refine ⟨fun p hp => ?_, fun p hp => ?_, fun p hp => ?_, ?_⟩
  · obtain ⟨x, hx, hxp, hi⟩ := hsource p hp
    obtain ⟨-, hrun, hexecution⟩ := occurrenceOf_ids hxp
    exact ⟨hi, hrun ▸ h.runId, hexecution ▸ h.executionIds x hx⟩
  · obtain ⟨x, -, hxp, -⟩ := hsource p hp
    exact (occurrenceOf_ids hxp).1
  · obtain ⟨x, -, hxp, -⟩ := hsource p hp
    exact (occurrenceOf_ids hxp).2.1
  · have hmap : ps.map (fun p => p.2.executionId) =
        (ps.map Prod.snd).map (fun o => o.executionId) := by
      rw [List.map_map]
      rfl
    rw [hmap, hsnd]
    exact h.distinct.sublist (hids run.executions)

/-! ### The rows of a test -/

/-- Runs of a project from whose projections the rows of the index are derived. -/
structure Covers (rt : Runtime) (projectId : Text) (entries : Snapshot) (runs : List ProjectedRun) :
    Prop where
  rows : List.Forall₂ (fun r run =>
    r.2.occurrences = (placedOccurrences run).map (storedRow rt)) entries runs
  placed : ∀ run ∈ runs, ∃ os, historyOccurrencesOf run = .ok os ∧
    os.mapM placed = .ok (placedOccurrences run)
  ids : ∀ run ∈ runs, PlacedIn run (placedOccurrences run)
  projectId : ∀ run ∈ runs, run.projectId = projectId
  distinct : (runs.map (fun r => r.runId)).Nodup

/-- The placed occurrences of a test. -/
def occurrencesOf (key : HistoryKey) (runs : List ProjectedRun) :
    List (HistoryInstant × ExecutionOccurrence) :=
  (runs.flatMap placedOccurrences).filter (fun p =>
    p.2.key = historyKey key.projectId key.runnerName key.historicalId)

/-- The placed occurrences of a test in history order. -/
def historyOf (key : HistoryKey) (runs : List ProjectedRun) :
    List (HistoryInstant × ExecutionOccurrence) :=
  sortBy compareHistoryOccurrences (occurrencesOf key runs)

section covers
variable {rt : Runtime} {key : HistoryKey} {snapshot : Snapshot} {runs : List ProjectedRun}
  (h : Covers rt key.projectId (snapshot.ofProject key.projectId) runs)
include h

theorem Covers.named {p : HistoryInstant × ExecutionOccurrence}
    (hp : p ∈ runs.flatMap placedOccurrences) : Named p ∧ p.2.projectId = key.projectId := by
  obtain ⟨run, hrun, hp⟩ := List.mem_flatMap.mp hp
  have hids := h.ids run hrun
  exact ⟨hids.named p hp, (hids.projectId p hp).trans (h.projectId run hrun)⟩

/-- The digest that selects the rows of a test is that of its names, which are compared too. -/
theorem Covers.selected : selected rt key snapshot = (occurrencesOf key runs).map (storedRow rt) := by
  have hrows : ∀ {entries : Snapshot} {runs : List ProjectedRun}, List.Forall₂ (fun r run =>
      r.2.occurrences = (placedOccurrences run).map (storedRow rt)) entries runs →
      entries.flatMap (fun r => r.2.occurrences) =
        (runs.flatMap placedOccurrences).map (storedRow rt) := by
    intro entries runs hall
    induction hall with
    | nil => rfl
    | cons hr _ ih => rw [List.flatMap_cons, List.flatMap_cons, List.map_append, hr, ih]
  rw [Queries.selected, hrows h.rows, List.filter_map, occurrencesOf]
  refine congrArg _ (List.filter_congr fun p hp => ?_)
  have hproject := (h.named hp).2
  rw [Function.comp_apply, decide_eq_decide, key_eq_iff]
  constructor
  · rintro ⟨-, -, hrunner, hhistorical⟩
    exact ⟨hproject, hrunner, hhistorical⟩
  · rintro ⟨-, hrunner, hhistorical⟩
    exact ⟨congrArg₂ (historyKeyOf rt) hrunner hhistorical, rfl, hrunner, hhistorical⟩

/-- No two occurrences of the runs stand at one position. -/
theorem Covers.apart : (runs.flatMap placedOccurrences).Pairwise
    (fun p q => compareHistoryOccurrences p q ≠ .eq) := by
  have hids : ∀ {p q : HistoryInstant × ExecutionOccurrence},
      compareHistoryOccurrences p q = .eq → p.2.runId = q.2.runId ∧
        p.2.executionId = q.2.executionId := by
    intro p q heq
    rw [compareHistoryOccurrences, Ordering.then_eq_eq, Ordering.then_eq_eq] at heq
    exact ⟨Std.LawfulEqCmp.eq_of_compare heq.2.1, Std.LawfulEqCmp.eq_of_compare heq.2.2⟩
  rw [List.pairwise_flatMap]
  constructor
  · intro run hrun
    have hdistinct := (h.ids run hrun).distinct
    rw [List.Nodup, List.pairwise_map] at hdistinct
    exact hdistinct.imp fun hne heq => hne (hids heq).2
  · have hdistinct := h.distinct
    rw [List.Nodup, List.pairwise_map] at hdistinct
    refine hdistinct.imp_of_mem fun {a b} ha hb hne p hp q hq heq => hne ?_
    rw [← (h.ids a ha).runId p hp, ← (h.ids b hb).runId q hq]
    exact (hids heq).1

theorem Covers.history_ascending :
    (historyOf key runs).Pairwise (fun p q => compareHistoryOccurrences p q = .lt) := by
  have hsorted : (historyOf key runs).Pairwise (fun p q => compareHistoryOccurrences p q ≠ .gt) :=
    sortBy_pairwise _
  have hapart : (historyOf key runs).Pairwise (fun p q => compareHistoryOccurrences p q ≠ .eq) := by
    exact (sortBy_perm _).symm.pairwise (h.apart.filter _)
      fun hne heq => hne (Std.OrientedCmp.eq_symm heq)
  refine (hsorted.and hapart).imp fun {p q} hpq => ?_
  cases hcompare : compareHistoryOccurrences p q with
  | lt => rfl
  | eq => exact absurd hcompare hpq.2
  | gt => exact absurd hcompare hpq.1

theorem Covers.named_row {row : OccurrenceRow} (hrow : row ∈ (historyOf key runs).map (storedRow rt)) :
    ∃ p, Named p ∧ storedRow rt p = row := by
  obtain ⟨p, hp, rfl⟩ := List.mem_map.mp hrow
  exact ⟨p, (h.named (List.mem_filter.mp (mem_sortBy.mp hp)).1).1, rfl⟩

theorem Covers.rows_ascending :
    Pages.Ascending positionOf ((historyOf key runs).map (storedRow rt)) := by
  have hnamed : ∀ p ∈ historyOf key runs, Named p := fun p hp =>
    (h.named (List.mem_filter.mp (mem_sortBy.mp hp)).1).1
  rw [Pages.Ascending, List.pairwise_map]
  exact h.history_ascending.imp_of_mem fun hp hq hlt =>
    (positionOf_lt_iff rt (hnamed _ hp) (hnamed _ hq)).mpr hlt

/-- The rows beyond a position are those of the history beyond it. -/
theorem Covers.historyRows_eq (after : Option Position) : historyRows rt key after snapshot =
    Pages.beyond positionOf after ((historyOf key runs).map (storedRow rt)) := by
  have hasc := h.rows_ascending
  have hperm : (Queries.selected rt key snapshot).Perm ((historyOf key runs).map (storedRow rt)) := by
    rw [h.selected]
    exact (sortBy_perm _).symm.map _
  have hnodup : ((Queries.selected rt key snapshot).map positionOf).Nodup := by
    refine (hperm.map positionOf).nodup_iff.mpr ?_
    rw [List.Nodup, List.pairwise_map]
    exact hasc.imp fun hlt => ne_of_lt hlt
  unfold historyRows
  refine Pages.Ascending.eq_of_mem (Pages.ascending_sortBy ?_) (hasc.filter _) fun row => ?_
  · exact hnodup.sublist (List.filter_sublist.map positionOf)
  · rw [mem_sortBy, List.mem_filter, Pages.beyond, List.mem_filter, hperm.mem_iff]

omit h in
/-- The occurrence that a row of the test stands for. -/
theorem occurrence_row {p : HistoryInstant × ExecutionOccurrence}
    (hp : p ∈ historyOf key runs) :
    occurrenceOf key.projectId key.runnerName key.historicalId (storedRow rt p) = p.2 := by
  have hkey := (List.mem_filter.mp (mem_sortBy.mp hp)).2
  rw [decide_eq_true_eq, key_eq_iff] at hkey
  obtain ⟨hproject, hrunner, hhistorical⟩ := hkey
  rw [← hproject, ← hrunner, ← hhistorical]
  rfl

/-- The histories that the read model assembles from the same runs. -/
theorem Covers.assembled {catalog : Text → Option ℤ}
    (hsized : ∀ r ∈ runs, ∀ a ∈ r.attachments, catalog a.sha256 = some a.sizeBytes) :
    ∃ b, assemble runs = .ok b ∧ ∀ runnerName historicalId,
      (b.model.history.get? (historyKey key.projectId runnerName historicalId)).getD [] =
        (historyOf ⟨key.projectId, runnerName, historicalId⟩ runs).map Prod.snd := by
  have hkeys : (runs.map ProjectedRun.key).Nodup := by
    have hdistinct := h.distinct
    rw [List.Nodup, List.pairwise_map] at hdistinct ⊢
    refine hdistinct.imp fun hne heq => hne ?_
    have hparts := stringsKey_injective heq
    simp only [List.cons.injEq, and_true] at hparts
    exact hparts.2
  obtain ⟨b, hb, hhistory⟩ := assemble_history ⟨hkeys, hsized⟩ h.placed
  refine ⟨b, hb, fun runnerName historicalId => hhistory _ _ (sortBy_perm _) ?_⟩
  have htest : Covers rt (HistoryKey.mk key.projectId runnerName historicalId).projectId
      (snapshot.ofProject key.projectId) runs := h
  exact htest.history_ascending

end covers

/-! ### What the archive shows -/

/-- What a transaction sees that begins when the database is as given. -/
structure Shows {ι : Type} (db : Db ι) (snapshot : Snapshot) : Prop where
  distinct : (snapshot.map Prod.fst).Nodup
  committed : ∀ k rows, (k, rows) ∈ snapshot ↔ (db.runs k).committed = some rows

theorem projectedUnder_of_stored {rt : Runtime} {fs : FileSystem} {k : RunKey} {rows : RunRows}
    {run : ProjectedRun} (h : projectStored rt fs k rows = some run) :
    ProjectedUnder rt k.projectId run := by
  obtain ⟨v, hreplayed, hprojected⟩ := replay_of_projectStored h
  obtain ⟨rfl, hvalid⟩ := replayStored_eq_ok hreplayed
  exact ⟨fs, _, _, _, hvalid, hprojected⟩

theorem projectedUnder_of_archived {rt : Runtime}
    {interpret : ℕ → ProjectedRun → Except Text DerivedQueryIndex} {k : RunKey} {rows : RunRows}
    {run : ProjectedRun} (h : ArchivedFrom rt interpret k rows run) :
    ProjectedUnder rt k.projectId run := by
  obtain ⟨fs, _, _, _, o, n, _, hoffer, -, -, -, hs, hrun⟩ := h
  obtain ⟨snapshot, _, hsnapshot, hfrom, -⟩ := fromRun_of_offerOf hoffer
  obtain rfl := Option.some.inj (hs.symm.trans hsnapshot)
  have hvalid := hfrom.valid
  obtain rfl := snapshot_of_directory hsnapshot hvalid
  exact ⟨fs, _, _, _, hvalid, hrun⟩

/-- A project whose index covers it has no run without a current row. -/
theorem current_of_complete {snapshot : Snapshot} {projectId : Text}
    (h : incomplete snapshot projectId = false) {r : RunKey × RunRows}
    (hr : r ∈ snapshot.ofProject projectId) :
    ∃ i, r.2.index = some i ∧ i.indexVersion = queryIndexVersion ∧
      i.sourceFingerprint = r.2.head.contentFingerprint := by
  have hnot := List.any_eq_false.mp h r hr
  rw [Bool.or_eq_true, not_or] at hnot
  obtain ⟨hsome, hfresh⟩ := hnot
  cases hi : r.2.index with
  | none =>
      rw [hi] at hsome
      exact absurd rfl hsome
  | some i =>
      refine ⟨i, rfl, ?_⟩
      rw [stale, hi, Option.any_some, Bool.or_eq_true, not_or, decide_eq_true_eq, decide_eq_true_eq,
        not_not, not_not] at hfresh
      exact hfresh

section archive
variable {ι : Type} [DecidableEq ι] {rt : Runtime} {fs : FileSystem}
  {interpret : ℕ → ProjectedRun → Except Text DerivedQueryIndex} {dateTime : Text → Bool}

/-- In every state that ingestions, rebuilds and passes reach, the rows of a project that its index
covers are derived from the projections of its runs. -/
theorem covers_of_run (hinterpret : interpret queryIndexVersion = deriveQueryIndex rt)
    (hschema : ∀ t v, rt.validate t v = none → EventSchema.validates dateTime t v = true)
    {s₀ s : State ι} (hquiet : Quiet s₀) (hempty : s₀.db.Empty)
    (h : Relation.ReflTransGen (Archiving.Step rt fs interpret) s₀ s) {snapshot : Snapshot}
    (hshows : Shows s.db snapshot) {projectId : Text} {runs : List ProjectedRun}
    (hruns : List.Forall₂ (fun r run => ArchivedFrom rt interpret r.1 r.2 run)
      (snapshot.ofProject projectId) runs)
    (hcomplete : incomplete snapshot projectId = false) :
    Covers rt projectId (snapshot.ofProject projectId) runs := by
  have hindexed := indexed_of_run hquiet hempty h
  -- what holds of one run
  have hone : ∀ r ∈ snapshot.ofProject projectId, ∀ run, ArchivedFrom rt interpret r.1 r.2 run →
      (∃ os, historyOccurrencesOf run = .ok os ∧ os.mapM placed = .ok (placedOccurrences run)) ∧
      PlacedIn run (placedOccurrences run) ∧ run.projectId = projectId ∧ run.runId = r.1.runId ∧
      r.2.occurrences = (placedOccurrences run).map (storedRow rt) := by
    intro r hr run hrun
    obtain ⟨hmem, hproject⟩ := List.mem_filter.mp hr
    rw [decide_eq_true_eq] at hproject
    obtain ⟨i, hi, hversion, -⟩ := current_of_complete hcomplete hr
    obtain ⟨⟨-, hid⟩, run', derived, hrun', hderived, hfacts, hrows⟩ :=
      hindexed.rows r.1 r.2 (.inl ((hshows.committed _ _).mp hmem)) i hi
    obtain rfl : run = run' := (hrun'.archived hrun).symm
    rw [hversion] at hderived hrows
    rw [hinterpret] at hderived
    obtain ⟨hplaced, hfacts', hoccurrences⟩ := derived_placed hderived
    have horderable := orderable hschema (projectedUnder_of_archived hrun)
    obtain ⟨os, hos, hps⟩ := hplaced
    have hids := placedIn horderable hos hps
    have hrunId : run.runId = r.1.runId := by
      rw [← hid, hfacts, hfacts']
      rfl
    refine ⟨⟨os, hos, hps⟩, hids, horderable.projectId.trans hproject, hrunId, ?_⟩
    rw [hrows, hoccurrences, List.map_map]
    refine List.map_congr_left fun p hp => ?_
    rw [Function.comp_apply, storedRow, hids.projectId p hp, hids.runId p hp, horderable.projectId,
      hrunId]
  have hall : List.Forall₂ (fun r run => r ∈ snapshot.ofProject projectId ∧
      ArchivedFrom rt interpret r.1 r.2 run) (snapshot.ofProject projectId) runs :=
    (List.forall₂_and_left _ _).mpr ⟨fun _ hr => hr, hruns⟩
  have hpair : ∀ run ∈ runs, ∃ r ∈ snapshot.ofProject projectId,
      ArchivedFrom rt interpret r.1 r.2 run := fun run hrun => mem_of_forall₂ hruns hrun
  refine ⟨hall.imp fun r run hr => (hone r hr.1 run hr.2).2.2.2.2, fun run hrun => ?_,
    fun run hrun => ?_, fun run hrun => ?_, ?_⟩
  · obtain ⟨r, hr, hrr⟩ := hpair run hrun
    exact (hone r hr run hrr).1
  · obtain ⟨r, hr, hrr⟩ := hpair run hrun
    exact (hone r hr run hrr).2.1
  · obtain ⟨r, hr, hrr⟩ := hpair run hrun
    exact (hone r hr run hrr).2.2.1
  · -- the runs of one project differ in their run ids
    have hids : runs.map (fun run => run.runId) =
        (snapshot.ofProject projectId).map (fun r => r.1.runId) := by
      rw [← List.forall₂_eq_eq_eq, List.forall₂_map_left_iff, List.forall₂_map_right_iff]
      exact (hall.imp fun r run hr => (hone r hr.1 run hr.2).2.2.2.1).flip
    rw [hids]
    have hkeys : ((snapshot.ofProject projectId).map Prod.fst).Nodup :=
      hshows.distinct.sublist (List.filter_sublist.map Prod.fst)
    rw [List.Nodup, List.pairwise_map] at hkeys ⊢
    refine hkeys.imp_of_mem fun {r r'} hr hr' hne heq => hne ?_
    have hproject := (List.mem_filter.mp hr).2
    have hproject' := (List.mem_filter.mp hr').2
    rw [decide_eq_true_eq] at hproject hproject'
    change RunKey.mk r.1.projectId r.1.runId = RunKey.mk r'.1.projectId r'.1.runId
    rw [hproject, hproject', heq]

/-- Every run that is shown is archived from a run directory. -/
theorem archived_of_run {s₀ s : State ι} (hquiet : Quiet s₀) (hempty : s₀.db.Empty)
    (h : Relation.ReflTransGen (Archiving.Step rt fs interpret) s₀ s) {snapshot : Snapshot}
    (hshows : Shows s.db snapshot) (projectId : Text) :
    ∃ runs, List.Forall₂ (fun r run => ArchivedFrom rt interpret r.1 r.2 run)
      (snapshot.ofProject projectId) runs := by
  have hone : ∀ r ∈ snapshot.ofProject projectId, ∃ run, ArchivedFrom rt interpret r.1 r.2 run := by
    intro r hr
    have hrows := (hshows.committed r.1 r.2).mp (List.mem_filter.mp hr).1
    exact ((sized_of_run hquiet hempty h).committed r.1 r.2 hrows).archivedFrom
  generalize snapshot.ofProject projectId = entries at hone ⊢
  induction entries with
  | nil => exact ⟨[], .nil⟩
  | cons r entries ih =>
      obtain ⟨run, hrun⟩ := hone r List.mem_cons_self
      obtain ⟨runs, hruns⟩ := ih fun r hr => hone r (List.mem_cons_of_mem _ hr)
      exact ⟨run :: runs, .cons hrun hruns⟩

/-- The catalog has the sizes of the attachments of every archived run. -/
theorem sizes_of_run {s₀ s : State ι} (hquiet : Quiet s₀) (hempty : s₀.db.Empty)
    (h : Relation.ReflTransGen (Archiving.Step rt fs interpret) s₀ s) {snapshot : Snapshot}
    (hshows : Shows s.db snapshot) {projectId : Text} {runs : List ProjectedRun}
    (hruns : List.Forall₂ (fun r run => ArchivedFrom rt interpret r.1 r.2 run)
      (snapshot.ofProject projectId) runs) :
    ∀ run ∈ runs, ∀ a ∈ run.attachments, s.db.sizes a.sha256 = some a.sizeBytes := by
  intro run hrun
  obtain ⟨r, hr, harchived⟩ := mem_of_forall₂ hruns hrun
  have hrows := (hshows.committed r.1 r.2).mp (List.mem_filter.mp hr).1
  exact ((sized_of_run hquiet hempty h).committed r.1 r.2 hrows).attachments harchived

end archive

end QeReport.Queries

namespace QeReport.Archiving.Sample

open QeReport.Sample

/-- As `runtime`, with the schema of the protocol. -/
def checkedRuntime : Runtime := { runtime with validate := schemaRuntime.validate }

theorem checked_schema (t : Option EventType) (v : Json) (h : checkedRuntime.validate t v = none) :
    EventSchema.validates (fun _ => true) t v = true := by
  change (if EventSchema.validates (fun _ => true) t v then none else some []) = none at h
  split_ifs at h with hv
  exact hv

def checkedInterpret (_ : ℕ) (run : ProjectedRun) : Except Text DerivedQueryIndex :=
  deriveQueryIndex checkedRuntime run

/-- The run of the same test that came later, without an attachment. -/
def laterDirectory : FileSystem :=
  let inLater : AnyEvent → AnyEvent
    | .known e => .known { e with runId := txt "later" }
    | e => e
  directory
    [("1.ndjson", (sessionFrom "b" 1
      [.sessionStarted ⟨⟨txt "sdk", none⟩, some ⟨txt "junit", none⟩, none, none, none, none⟩,
        .attemptStarted ⟨txt "t1", 1,
          ⟨txt "t", some (txt "Adds"), .stable, txt "adds", [], none, none, none⟩⟩,
        Sample.attemptFinished "t1" .failed, Sample.sessionFinished, .runFinished]).map inLater)]

/-- What an archived run whose source replays is stored and read as. -/
theorem checked_stored {fs : FileSystem} {o : Offer}
    (hoffer : offerOf checkedRuntime checkedInterpret fs .ok queryIndexVersion request = .ok o)
    (hlocal : AttemptsLocal (directoryLog checkedRuntime fs (txt "run")))
    (hlast : RunFinishedLast (directoryLog checkedRuntime fs (txt "run"))) (n : ℕ) :
    o.version = queryIndexVersion ∧
    storedIndex checkedRuntime attachedDirectory checkedInterpret queryIndexVersion o.key (o.rows n) =
      some o.offeredIndex ∧
    ∃ snapshot run, validateRunDirectorySnapshot checkedRuntime fs (txt "run") retainOptions =
        some snapshot ∧
      ArchivedFrom checkedRuntime checkedInterpret o.key (o.rows n) run ∧
      projectRun o.key.projectId o.sourceLocator snapshot = .ok run := by
  obtain ⟨snapshot, validated, hsnapshot, hfrom, hversion⟩ := fromRun_of_offerOf hoffer
  have hstored : storedIndex checkedRuntime attachedDirectory checkedInterpret queryIndexVersion
      o.key (o.rows n) = some o.offeredIndex := by
    rw [← hversion]
    exact (hfrom.storedIndex_iff hsnapshot attachedDirectory rfl rfl).mpr ⟨rfl, hlocal, hlast⟩
  obtain ⟨run, hprojected, -⟩ := hfrom.index
  rw [hfrom.projectRun_eq] at hprojected
  exact ⟨hversion, hstored, snapshot, run, hsnapshot,
    ⟨fs, .ok, queryIndexVersion, request, o, n, snapshot, hoffer, rfl, rfl, rfl, hsnapshot,
      hprojected⟩, hprojected⟩

/-- What is shown of an offer, with its locator. -/
def located (o : Offer) : (Reclaim.RunKey × Text × Text × List RequiredBlob) × Text :=
  (shown o, o.sourceLocator)

/-- The run that a directory projects to. -/
def projectedFrom (fs : FileSystem) : Option ProjectedRun :=
  (validateRunDirectorySnapshot checkedRuntime fs (txt "run") retainOptions).bind (fun v =>
    (projectRun (txt "project") (txt "run") v).toOption)

/-- A run of the test, as it is archived and read. -/
structure Stored (fs : FileSystem) (o : Offer) (n : ℕ) (runId : Text) (run : ProjectedRun) :
    Prop where
  key : o.key = ⟨txt "project", runId⟩
  version : o.version = queryIndexVersion
  stored : storedIndex checkedRuntime attachedDirectory checkedInterpret queryIndexVersion o.key
    (o.rows n) = some o.offeredIndex
  archived : ArchivedFrom checkedRuntime checkedInterpret o.key (o.rows n) run
  projection : projectedFrom fs = some run

theorem stored_of_offer {fs : FileSystem} {o : Offer} {runId : Text} {blobs : List RequiredBlob}
    (hoffer : offerOf checkedRuntime checkedInterpret fs .ok queryIndexVersion request = .ok o)
    (hlocated : located o = ((⟨txt "project", runId⟩, txt "project", runId, blobs), txt "run"))
    (hlocal : AttemptsLocal (directoryLog checkedRuntime fs (txt "run")))
    (hlast : RunFinishedLast (directoryLog checkedRuntime fs (txt "run"))) (n : ℕ) :
    ∃ run, Stored fs o n runId run := by
  simp only [located, shown, Prod.mk.injEq] at hlocated
  obtain ⟨⟨hkey, -, -, -⟩, hlocator⟩ := hlocated
  obtain ⟨hversion, hstored, snapshot, run, hsnapshot, harchived, hprojection⟩ :=
    checked_stored hoffer hlocal hlast n
  rw [hkey, hlocator] at hprojection
  have hrun : projectedFrom fs = some run := by
    rw [projectedFrom, hsnapshot, Option.bind_some, hprojection]
    rfl
  exact ⟨run, hkey, hversion, hstored, harchived, hrun⟩

/-- The ingestion of the run with an attachment, before a second call. -/
theorem checked_inserted : ∃ (o : Offer) (run : ProjectedRun) (db : Db Bool),
    Relation.ReflTransGen (WriterStep checkedRuntime attachedDirectory checkedInterpret) empty
      (empty.to true db (.persist o (.answered (.inserted o.archive.runId 0)))) ∧
    Stored attachedDirectory o 0 (txt "run") run ∧ (db.runs o.key).committed = some (o.rows 0) ∧
    (∀ k, k ≠ o.key → (db.runs k).committed = none) ∧ db.sequence = 1 ∧
    Still (empty.to true db (.persist o (.answered (.inserted o.archive.runId 0)))) false := by
  have hchecked : (offerOf checkedRuntime checkedInterpret attachedDirectory .ok queryIndexVersion
      request).toOption.map located = some ((⟨txt "project", txt "run"⟩, txt "project", txt "run",
        [⟨attachedHash, 1⟩]), txt "run") ∧
      AttemptsLocal (directoryLog checkedRuntime attachedDirectory (txt "run")) ∧
      RunFinishedLast (directoryLog checkedRuntime attachedDirectory (txt "run")) := by
    decide +kernel
  obtain ⟨hshown, hlocal, hlast⟩ := hchecked
  obtain ⟨o, ho, hlocated⟩ := Option.map_eq_some_iff.mp hshown
  have hoffer := eq_ok_of_toOption ho
  obtain ⟨run, hstored⟩ := stored_of_offer hoffer hlocated hlocal hlast 0
  simp only [located, shown, Prod.mk.injEq] at hlocated
  obtain ⟨⟨hkey, hproject, hrunId, hblobs⟩, -⟩ := hlocated
  have halone := @inserts_alone Bool _ checkedRuntime attachedDirectory checkedInterpret
  obtain ⟨db, hrun, hrows, hothers, hheld, hheld', hsequence⟩ := halone (empty_quiet.still true)
    ⟨_, _, _, _, hoffer⟩ (by rw [hproject, hkey]) (by rw [hrunId, hkey]) rfl
    (by simp [hblobs, empty])
  refine ⟨o, run, db, hrun, hstored, hrows, hothers, hsequence, rfl, ?_, hheld, hheld'⟩
  exact (empty_quiet.still true).to_exclusive rfl db

/-- What a reader sees of an archive of the run with an attachment. -/
theorem checked_archived : ∃ (s : State Bool) (o : Offer) (run : ProjectedRun),
    Relation.ReflTransGen (Step checkedRuntime attachedDirectory checkedInterpret) empty s ∧
    Queries.Shows s.db [(o.key, o.rows 0)] ∧ Stored attachedDirectory o 0 (txt "run") run := by
  obtain ⟨o, run, db, hrun, hstored, hrows, hothers, -, -⟩ := checked_inserted
  refine ⟨_, o, run, WriterStep.run hrun, ⟨List.nodup_singleton _, fun k rows => ?_⟩, hstored⟩
  rw [List.mem_singleton, Prod.mk.injEq]
  change _ ↔ (db.runs k).committed = some rows
  by_cases hk : k = o.key
  · subst hk
    rw [hrows, Option.some.injEq]
    exact ⟨fun h => h.2.symm, fun h => ⟨rfl, h.symm⟩⟩
  · rw [hothers k hk]
    constructor
    · exact fun h => absurd h.1 hk
    · intro h
      cases h

/-- What a reader sees when the later run is archived too. -/
theorem checked_archived_twice : ∃ (s : State Bool) (o o' : Offer) (run run' : ProjectedRun),
    Relation.ReflTransGen (Step checkedRuntime attachedDirectory checkedInterpret) empty s ∧
    Queries.Shows s.db [(o.key, o.rows 0), (o'.key, o'.rows 1)] ∧
    Stored attachedDirectory o 0 (txt "run") run ∧
    Stored laterDirectory o' 1 (txt "later") run' := by
  obtain ⟨o, run, db, hrun, hstored, hrows, hothers, hsequence, hstill⟩ := checked_inserted
  have hchecked : (offerOf checkedRuntime checkedInterpret laterDirectory .ok queryIndexVersion
      request).toOption.map located = some ((⟨txt "project", txt "later"⟩, txt "project",
        txt "later", []), txt "run") ∧
      AttemptsLocal (directoryLog checkedRuntime laterDirectory (txt "run")) ∧
      RunFinishedLast (directoryLog checkedRuntime laterDirectory (txt "run")) := by
    decide +kernel
  obtain ⟨hshown, hlocal, hlast⟩ := hchecked
  obtain ⟨o', ho', hlocated⟩ := Option.map_eq_some_iff.mp hshown
  have hoffer := eq_ok_of_toOption ho'
  obtain ⟨run', hstored'⟩ := stored_of_offer hoffer hlocated hlocal hlast 1
  simp only [located, shown, Prod.mk.injEq] at hlocated
  obtain ⟨⟨hkey, hproject, hrunId, hblobs⟩, -⟩ := hlocated
  have hne : o'.key ≠ o.key := by
    rw [hkey, hstored.key]
    decide
  have halone := @inserts_alone Bool _ checkedRuntime attachedDirectory checkedInterpret
  obtain ⟨db', hagain, hrows', hothers', -⟩ := halone hstill ⟨_, _, _, _, hoffer⟩
    (by rw [hproject, hkey]) (by rw [hrunId, hkey]) (hothers o'.key hne) (by simp [hblobs])
  change (db'.runs o'.key).committed = some (o'.rows db.sequence) at hrows'
  rw [hsequence] at hrows'
  refine ⟨_, o, o', run, run', WriterStep.run (hrun.trans hagain), ⟨?_, fun k rows => ?_⟩, hstored,
    hstored'⟩
  · rw [List.map_cons, List.map_singleton, List.nodup_cons]
    exact ⟨by simpa using hne.symm, List.nodup_singleton _⟩
  · rw [List.mem_cons, List.mem_singleton, Prod.mk.injEq, Prod.mk.injEq]
    change _ ↔ (db'.runs k).committed = some rows
    by_cases hk' : k = o'.key
    · subst hk'
      rw [hrows', Option.some.injEq]
      constructor
      · rintro (h | h)
        · exact absurd h.1 hne
        · exact h.2.symm
      · exact fun h => .inr ⟨rfl, h.symm⟩
    · rw [hothers' k hk']
      change _ ↔ (db.runs k).committed = some rows
      by_cases hk : k = o.key
      · subst hk
        rw [hrows, Option.some.injEq]
        constructor
        · rintro (h | h)
          · exact h.2.symm
          · exact absurd h.1 hk'
        · exact fun h => .inl ⟨rfl, h.symm⟩
      · rw [hothers k hk]
        constructor
        · rintro (h | h)
          · exact absurd h.1 hk
          · exact absurd h.1 hk'
        · intro h
          cases h

end QeReport.Archiving.Sample

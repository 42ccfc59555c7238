import QeReport.Http.HistoryPages
import QeReport.Postgres.Sequences

/-! # Runs listed page by page

The listing of a project in keyset pages, newest archived first.  A page continues below the
sequence of the last run of the page before, which is the number of that run alone, so that the
pages together list every run once. -/

namespace QeReport.Http

open Archiving Cursor Queries
open Reclaim (RunKey)

/-! ### The rows of a listing -/

/-- A run with the facts of its index row. -/
abbrev Listed := RunKey × RunRows × RunIndexRow

/-- The ingestion sequence of a listed run. -/
def sequenceOf (r : Listed) : ℕ := r.2.1.head.ingestionSequence

def summaryOf (projectId : Text) (r : Listed) : RunSummary :=
  runSummary projectId r.1.runId r.2.1 r.2.2

/-- The runs of a project with their index rows. -/
def indexedRuns (projectId : Text) (snapshot : Snapshot) : List Listed :=
  (snapshot.ofProject projectId).filterMap (fun r => r.2.index.map (fun i => (r.1, r.2, i.facts)))

/-- The runs of a project, newest archived first. -/
def newestFirst (projectId : Text) (snapshot : Snapshot) : List Listed :=
  sortBy (fun a b => cmp (sequenceOf b) (sequenceOf a)) (indexedRuns projectId snapshot)

/-- The key of a listing: the sequences descend. -/
def sequenceKey (s : RunSummary) : ℕᵒᵈ := OrderDual.toDual s.ingestionSequence

section listing
variable {projectId : Text} {snapshot : Snapshot}

/-- Every run of a project that its index covers is listed with its index row. -/
theorem indexedRuns_entries (hcomplete : incomplete snapshot projectId = false) :
    (indexedRuns projectId snapshot).map (fun r => (r.1, r.2.1)) = snapshot.ofProject projectId := by
  rw [indexedRuns, List.map_filterMap]
  refine (List.filterMap_congr fun r hr => ?_).trans List.filterMap_some
  obtain ⟨i, hi, -⟩ := current_of_complete hcomplete hr
  rw [hi]
  rfl

theorem listedRuns_eq (hcomplete : incomplete snapshot projectId = false) (before : Option ℤ) :
    listedRuns projectId before snapshot =
      sortBy (fun a b => cmp (sequenceKey a) (sequenceKey b))
        (((indexedRuns projectId snapshot).map (summaryOf projectId)).filter
          (fun s => before.all (fun n => decide ((s.ingestionSequence : ℤ) < n)))) := by
  have hjoined : (snapshot.ofProject projectId).filterMap (fun r =>
      if r.2.current queryIndexVersion then
        r.2.index.map (fun i => runSummary projectId r.1.runId r.2 i.facts)
      else none) = (indexedRuns projectId snapshot).map (summaryOf projectId) := by
    rw [indexedRuns, List.map_filterMap]
    refine List.filterMap_congr fun r hr => ?_
    obtain ⟨i, hi, hversion, hfingerprint⟩ := current_of_complete hcomplete hr
    have hcurrent : r.2.current queryIndexVersion = true := by
      rw [RunRows.current, hi, Option.any_some, hversion, hfingerprint]
      simp
    rw [if_pos hcurrent, hi]
    rfl
  rw [listedRuns, hjoined]
  refine congrArg (fun c => sortBy c _) (funext fun a => funext fun b => ?_)
  exact (cmp_toDual ..).symm

/-- The sequence that the page after a run continues below. -/
def below (after : Option RunSummary) : Option ℤ := after.map (fun s => s.ingestionSequence)

/-- What a listing holds: each run once, the numbers descending. -/
structure Lists (projectId : Text) (snapshot : Snapshot) (l : List Listed) : Prop where
  perm : (l.map (fun r => (r.1, r.2.1))).Perm (snapshot.ofProject projectId)
  descending : l.Pairwise (fun r r' => sequenceOf r' < sequenceOf r)
  rows : ∀ after : Option RunSummary, listedRuns projectId (below after) snapshot =
    Pages.beyond sequenceKey (after.map sequenceKey) (l.map (summaryOf projectId))

theorem lists_newestFirst (hcomplete : incomplete snapshot projectId = false)
    (hdistinct : ((snapshot.ofProject projectId).map (fun r => r.2.head.ingestionSequence)).Nodup) :
    Lists projectId snapshot (newestFirst projectId snapshot) := by
  have hperm : (newestFirst projectId snapshot).Perm (indexedRuns projectId snapshot) := sortBy_perm _
  have hentries := indexedRuns_entries hcomplete
  have hnodup : ((indexedRuns projectId snapshot).map
      (fun r => OrderDual.toDual (sequenceOf r))).Nodup := by
    rw [← hentries, List.map_map] at hdistinct
    have hdual := hdistinct.map OrderDual.toDual.injective
    rwa [List.map_map] at hdual
  have hascending : Pages.Ascending (fun r => OrderDual.toDual (sequenceOf r))
      (newestFirst projectId snapshot) := Pages.ascending_sortBy hnodup
  have hsummaries : Pages.Ascending sequenceKey
      ((newestFirst projectId snapshot).map (summaryOf projectId)) := by
    rw [Pages.Ascending, List.pairwise_map]
    exact hascending
  refine ⟨?_, hascending.imp OrderDual.toDual_lt_toDual.mp, fun after => ?_⟩
  · rw [← hentries]
    exact hperm.map _
  · rw [listedRuns_eq hcomplete]
    refine Pages.Ascending.eq_of_mem (Pages.ascending_sortBy ?_) (hsummaries.filter _) fun s => ?_
    · have hkeys : (((indexedRuns projectId snapshot).map (summaryOf projectId)).map
          sequenceKey).Nodup := by
        rw [List.map_map]
        exact hnodup
      exact hkeys.sublist (List.filter_sublist.map _)
    · rw [mem_sortBy, List.mem_filter, Pages.mem_beyond, (hperm.map _).mem_iff]
      refine and_congr_right fun _ => ?_
      cases after with
      | none => simp [below]
      | some n => simp [below, sequenceKey]

end listing

/-! ### Pages -/

/-- The text of the cursor after a run. -/
def tokenAfter (projectId : Text) (s : RunSummary) : Text :=
  writeRunsCursor projectId s.ingestionSequence

/-- The request for one page of a listing. -/
def askRuns (snapshot : Snapshot) (projectId : Text) (limits : ℕ → Option ℤ) (k : ℕ)
    (cursor : Option Text) : Except Refusal RunsAnswer :=
  Http.listRuns snapshot projectId (limits k) cursor

section pages
variable {projectId : Text} {snapshot : Snapshot} {limit : Option ℤ} {n : ℕ}

theorem listRuns_eq {before : Option ℤ} (hproject : checkProjectId projectId = .ok ())
    (hlimit : checkLimit limit defaultPageSize maxPageSize = .ok n)
    (hbefore : checkSequence before (txt "beforeIngestionSequence") = .ok before)
    (hcomplete : incomplete snapshot projectId = false) :
    Queries.listRuns snapshot ⟨projectId, limit, before⟩ =
      .ok ⟨(listedRuns projectId before snapshot).take n,
        Pages.cursor (fun s => s.ingestionSequence) n (listedRuns projectId before snapshot)⟩ := by
  have hchecked : checkProject projectId = .ok () := by
    rw [checkProject, hproject]
    rfl
  rw [Queries.listRuns]
  simp only [hchecked, hlimit, hbefore, answering, hcomplete, Bool.false_eq_true, if_false,
    Pages.take_succ_take, bind, Except.bind]
  rw [← Pages.cursor_take]
  simp only [Pages.take_succ_take]

/-- A cursor of the listing is read back as the sequence it was written for. -/
theorem decode_tokenAfter {s : RunSummary} (h : s.ingestionSequence ≤ 9223372036854775807) :
    decodeRunsCursor projectId (tokenAfter projectId s) = .ok ⟨s.ingestionSequence, h⟩ :=
  (decode_runs projectId projectId ⟨s.ingestionSequence, h⟩).trans (if_pos rfl)

/-- The answer to a listing after a run of it. -/
theorem askRuns_eq {l : List Listed} (hlists : Lists projectId snapshot l)
    (hproject : checkProjectId projectId = .ok ())
    (hcomplete : incomplete snapshot projectId = false) {limits : ℕ → Option ℤ} {k : ℕ}
    (hlimit : checkLimit (limits k) defaultPageSize maxPageSize = .ok n)
    (hbounded : ∀ s ∈ l.map (summaryOf projectId), s.ingestionSequence ≤ 9223372036854775807)
    (after : Option RunSummary) (hafter : ∀ s, after = some s → s ∈ l.map (summaryOf projectId)) :
    ∃ answer, askRuns snapshot projectId limits k (after.map (tokenAfter projectId)) = .ok answer ∧
      answer.runs = ((Pages.beyond sequenceKey (after.map sequenceKey)
        (l.map (summaryOf projectId))).take n).map runSummaryDto ∧
      answer.nextCursor = Pages.cursor (tokenAfter projectId) n
        (Pages.beyond sequenceKey (after.map sequenceKey) (l.map (summaryOf projectId))) := by
  have hbefore : beforeOf projectId (after.map (tokenAfter projectId)) = .ok (below after) ∧
      checkSequence (below after) (txt "beforeIngestionSequence") = .ok (below after) := by
    cases after with
    | none => exact ⟨rfl, rfl⟩
    | some s =>
        have hbound := hbounded s (hafter s rfl)
        constructor
        · simp only [Option.map_some, beforeOf, decode_tokenAfter hbound, below]
        · have hsequence : below (some s) = some (s.ingestionSequence : ℤ) := rfl
          rw [hsequence]
          exact if_neg (by omega)
  have hpage := listRuns_eq hproject hlimit hbefore.2 hcomplete
  rw [hlists.rows] at hpage
  have hasked : asked (Queries.listRuns snapshot ⟨projectId, limits k, below after⟩) = .ok _ :=
    congrArg asked hpage
  rw [askRuns, Http.listRuns, hbefore.1]
  simp only [bind, Except.bind, hasked, pure, Except.pure, Pages.cursor_map]
  exact ⟨_, rfl, rfl, rfl⟩

end pages

/-- In every state that ingestions, rebuilds and passes reach, when the index covers a project, the
pages of its runs that a client reads one after the other end, and together list every archived run
once, newest archived first, whatever the limits of the pages; what is listed of a run are the
facts that its stored source derives, when it derives any. -/
theorem runs_listed_once {ι : Type} [DecidableEq ι] (rt : Runtime) (fs : QeReport.FileSystem)
    (interpret : ℕ → ProjectedRun → Except Text DerivedQueryIndex)
    {s₀ s : State ι} (hquiet : Quiet s₀) (hempty : s₀.db.Empty)
    (h : Relation.ReflTransGen (Archiving.Step rt fs interpret) s₀ s) (snapshot : Snapshot)
    (hshows : Queries.Shows s.db snapshot) (projectId : Text)
    (hproject : checkProjectId projectId = .ok ())
    (hcomplete : incomplete snapshot projectId = false)
    (hbounded : ∀ r ∈ snapshot, r.2.head.ingestionSequence ≤ 9223372036854775807) :
    ∃ l : List Listed, (l.map (fun r => (r.1, r.2.1))).Perm (snapshot.ofProject projectId) ∧
      l.Pairwise (fun r r' => sequenceOf r' < sequenceOf r) ∧
      (∀ r ∈ l, ∀ derived,
        storedIndex rt fs interpret queryIndexVersion r.1 r.2.1 = some derived →
        r.2.2 = derived.run) ∧
      ∀ limits : ℕ → Option ℤ, (∀ k n, limits k = some n → 1 ≤ n ∧ n ≤ maxPageSize) →
        ∃ pages, pages.flatMap RunsAnswer.runs =
            l.map (fun r => runSummaryDto (summaryOf projectId r)) ∧
          ∀ fuel, l.length < fuel →
            Pages.walk RunsAnswer.nextCursor (askRuns snapshot projectId limits) fuel 0 none =
              some (.ok pages) := by
  have hindexed := indexed_of_run hquiet hempty h
  have hsequenced := sequenced_of_run hquiet hempty h
  have hcommitted : ∀ r ∈ snapshot.ofProject projectId, (s.db.runs r.1).committed = some r.2 :=
    fun r hr => (hshows.committed _ _).mp (List.mem_filter.mp hr).1
  have hdistinct :
      ((snapshot.ofProject projectId).map (fun r => r.2.head.ingestionSequence)).Nodup := by
    have hkeys : ((snapshot.ofProject projectId).map Prod.fst).Nodup :=
      hshows.distinct.sublist (List.filter_sublist.map Prod.fst)
    rw [List.Nodup, List.pairwise_map] at hkeys ⊢
    exact hkeys.imp_of_mem fun ha hb hne heq =>
      hne (hsequenced.injective (hcommitted _ ha) (hcommitted _ hb) heq)
  have hlists := lists_newestFirst hcomplete hdistinct
  have hentry : ∀ r ∈ newestFirst projectId snapshot, (r.1, r.2.1) ∈ snapshot.ofProject projectId ∧
      ∃ i, r.2.1.index = some i ∧ r.2.2 = i.facts := by
    intro r hr
    obtain ⟨entry, hmem, hr⟩ := List.mem_filterMap.mp (mem_sortBy.mp hr)
    obtain ⟨i, hi, rfl⟩ := Option.map_eq_some_iff.mp hr
    exact ⟨hmem, i, hi, rfl⟩
  refine ⟨_, hlists.perm, hlists.descending, fun r hr derived hderived => ?_, fun limits hlimits => ?_⟩
  · obtain ⟨hmem, i, hi, hfacts⟩ := hentry r hr
    obtain ⟨j, hj, hversion, -⟩ := current_of_complete hcomplete hmem
    obtain rfl := Option.some.inj (hi.symm.trans hj)
    rw [← hversion] at hderived
    rw [hfacts]
    exact ((hindexed.rows _ _ (.inl (hcommitted _ hmem))).fresh hi hderived).1
  · choose size hsize using fun k => checkLimit_page (hlimits k)
    have hbounded' : ∀ s ∈ (newestFirst projectId snapshot).map (summaryOf projectId),
        s.ingestionSequence ≤ 9223372036854775807 := by
      intro s hs
      obtain ⟨r, hr, rfl⟩ := List.mem_map.mp hs
      exact hbounded _ (List.mem_filter.mp (hentry r hr).1).1
    have hascending : Pages.Ascending sequenceKey
        ((newestFirst projectId snapshot).map (summaryOf projectId)) := by
      rw [Pages.Ascending, List.pairwise_map]
      exact hlists.descending
    obtain ⟨pages, hpages, hwalk⟩ := Pages.walk_tokens_eq_ok hascending (fun k => (hsize k).1)
      (fun k after hafter =>
        askRuns_eq hlists hproject hcomplete (hsize k).2 hbounded' after hafter) 0 none
      (fun s hs => by cases hs)
    rw [Option.map_none, Pages.beyond_none] at hpages hwalk
    refine ⟨pages, ?_, fun fuel hfuel => ?_⟩
    · rw [hpages, List.map_map]
      rfl
    · rw [List.length_map] at hwalk
      exact hwalk fuel hfuel

/-- The listing of an archive of two runs, one run a page. -/
theorem runs_listed_once_attached : ∃ (snapshot : Snapshot) (l : List Listed)
    (pages : List RunsAnswer), l.length = 2 ∧
    (l.map (fun r => (r.1, r.2.1))).Perm (snapshot.ofProject (txt "project")) ∧
    pages.flatMap RunsAnswer.runs = l.map (fun r => runSummaryDto (summaryOf (txt "project") r)) ∧
    Pages.walk RunsAnswer.nextCursor (askRuns snapshot (txt "project") (fun _ => some 1)) 3 0 none =
      some (.ok pages) := by
  obtain ⟨s, o, o', _, _, hrun, hshows, hstored, hstored'⟩ := Sample.checked_archived_twice
  obtain ⟨hown, hcurrent⟩ := Sample.twice_current hstored hstored'
  obtain ⟨l, hperm, -, -, hpages⟩ := runs_listed_once Sample.checkedRuntime
    Sample.attachedDirectory Sample.checkedInterpret Sample.empty_quiet (fun _ => rfl) hrun
    _ hshows (txt "project") (by decide)
    (incomplete_eq_false_iff.mpr (by rw [hown]; exact hcurrent))
    (by
      rw [List.forall_mem_cons, List.forall_mem_singleton]
      exact ⟨Nat.zero_le _, Nat.one_le_iff_ne_zero.mpr (by decide)⟩)
  obtain ⟨pages, hshown, hwalk⟩ := hpages (fun _ => some 1) (by
    intro k n hn
    rw [← Option.some.inj hn]
    decide)
  have hlength : l.length = 2 := by
    have hsame := hperm.length_eq
    rw [List.length_map, hown] at hsame
    exact hsame
  exact ⟨_, l, pages, hlength, hperm, hshown, hwalk 3 (by omega)⟩

end QeReport.Http

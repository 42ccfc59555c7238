import QeReport.Http.Queries
import QeReport.Postgres.Gate

/-! # Histories read page by page

A client asks for the pages of a history one after the other, each with the cursor that the last
one named.  The cursor is decoded into the position of the last row of that page
(`afterOf_token`), so the pages together are the history, and the flakiness that is counted over
the index is the one of the read model. -/

namespace QeReport.Http

open Archiving Cursor Queries
open Reclaim (RunKey)

/-! ### Cursors of rows -/

/-- The cursor of a named occurrence. -/
def cursorOf (p : HistoryInstant × ExecutionOccurrence) (h : Named p) : Cursor.HistoryCursor where
  occurredAt := ⟨p.1.epochMs, (historyInstant_bounds h.instant).1⟩
  leap := p.1.leap
  runId := p.2.runId
  executionId := p.2.executionId
  leap_le := (historyInstant_bounds h.instant).2
  run_identifier := h.runId
  execution_identifier := h.executionId

/-- The text of the cursor after a row. -/
def tokenOf (key : HistoryKey) (row : OccurrenceRow) : Text :=
  (writeHistoryCursor key.projectId key.runnerName key.historicalId (cursorAt row)).getD []

section token
variable (rt : Runtime) (key : HistoryKey) {p : HistoryInstant × ExecutionOccurrence} (h : Named p)

include h in
theorem timeClip_named : timeClip p.1.epochMs = some ⟨p.1.epochMs, (historyInstant_bounds h.instant).1⟩ :=
  dif_pos (historyInstant_bounds h.instant).1

theorem writeHistoryCursor_row :
    writeHistoryCursor key.projectId key.runnerName key.historicalId (cursorAt (storedRow rt p)) =
      some (encodeHistoryCursor key.projectId key.runnerName key.historicalId (cursorOf p h)) := by
  have hdate : (cursorAt (storedRow rt p)).occurredAt = some (cursorOf p h).occurredAt :=
    timeClip_named h
  rw [writeHistoryCursor, hdate]
  rfl

theorem tokenOf_row : tokenOf key (storedRow rt p) =
    encodeHistoryCursor key.projectId key.runnerName key.historicalId (cursorOf p h) := by
  rw [tokenOf, writeHistoryCursor_row rt key h]
  rfl

include h in
/-- A cursor is read back as the position it was written for. -/
theorem afterOf_token (other : Text → Option Date) (limit : Option ℤ) :
    afterOf other key.projectId
        ⟨key.runnerName, key.historicalId, limit, some (tokenOf key (storedRow rt p))⟩ =
      .ok (some (cursorAt (storedRow rt p))) := by
  rw [afterOf]
  dsimp only
  rw [tokenOf_row rt key h, decode_history, if_pos rfl]
  refine congrArg (fun c => Except.ok (some c)) ?_
  rw [cursorAt, Queries.HistoryCursor.mk.injEq]
  exact ⟨(timeClip_named h).symm, rfl, rfl, rfl⟩

include h in
/-- The position of a cursor is that of its row. -/
theorem checkCursor_row : checkCursor (some (cursorAt (storedRow rt p))) =
    .ok (some (positionOf (storedRow rt p))) := by
  have hnonempty : ∀ {t : Text}, isProtocolIdentifier t = true → t ≠ [] := by
    rintro t ht rfl
    exact absurd ht (by decide)
  have hdate : (cursorAt (storedRow rt p)).occurredAt =
      some ⟨p.1.epochMs, (historyInstant_bounds h.instant).1⟩ := timeClip_named h
  have hleap := (historyInstant_bounds h.instant).2
  simp only [checkCursor, hdate]
  rw [if_neg, if_neg, if_neg]
  · rfl
  · exact hnonempty h.executionId
  · exact hnonempty h.runId
  · change ¬ ((p.1.leap : ℤ) < 0 ∨ 1000 < (p.1.leap : ℤ))
    omega

end token

/-! ### One page -/

section page
variable {rt : Runtime} {key : HistoryKey} {snapshot : Snapshot} {limit : Option ℤ} {n : ℕ}

/-- A request that passes the checks is answered from the rows beyond its position. -/
theorem getTestHistoryPage_eq {after : Option Queries.HistoryCursor} {pos : Option Position}
    (hproject : checkProjectId key.projectId = .ok ())
    (hlimit : checkLimit limit defaultPageSize maxPageSize = .ok n)
    (hafter : checkCursor after = .ok pos) (hcomplete : incomplete snapshot key.projectId = false) :
    getTestHistoryPage rt snapshot ⟨key, limit, after⟩ =
      .ok ⟨key, ((historyRows rt key pos snapshot).take n).map
          (Queries.occurrenceOf key.projectId key.runnerName key.historicalId),
        Pages.cursor cursorAt n (historyRows rt key pos snapshot)⟩ := by
  have hchecked : checkProject key.projectId = .ok () := by
    rw [checkProject, hproject]
    rfl
  rw [getTestHistoryPage]
  simp only [hchecked, hlimit, hafter, answering, hcomplete, Bool.false_eq_true, if_false,
    Pages.take_succ_take, bind, Except.bind]
  rw [← Pages.cursor_take]
  simp only [Pages.take_succ_take]

/-- The page of a history after a cursor, as `queryHistory` asks the query layer for it. -/
def historyPageAt (other : Text → Option Date) (rt : Runtime) (snapshot : Snapshot)
    (key : HistoryKey) (limit : Option ℤ) (cursor : Option Text) : Except Refusal HistoryPage := do
  let after ← afterOf other key.projectId ⟨key.runnerName, key.historicalId, limit, cursor⟩
  asked (getTestHistoryPage rt snapshot ⟨key, limit, after⟩)

/-- The cursor that is written for the next page. -/
def cursorAfter (key : HistoryKey) (page : HistoryPage) : Option Text :=
  page.next.map (fun after =>
    (writeHistoryCursor key.projectId key.runnerName key.historicalId after).getD [])

/-- The cursor that a page names is the one of its last row. -/
theorem cursorAfter_eq (occurrences : List ExecutionOccurrence) (l : List OccurrenceRow) :
    cursorAfter key ⟨key, occurrences, Pages.cursor cursorAt n l⟩ = Pages.cursor (tokenOf key) n l := by
  rw [cursorAfter, Pages.cursor_map]
  rfl

/-- The page of a history after one of its rows. -/
theorem historyPageAt_eq {runs : List ProjectedRun} (other : Text → Option Date)
    (h : Covers rt key.projectId (snapshot.ofProject key.projectId) runs)
    (hproject : checkProjectId key.projectId = .ok ())
    (hlimit : checkLimit limit defaultPageSize maxPageSize = .ok n)
    (hcomplete : incomplete snapshot key.projectId = false) (after : Option OccurrenceRow)
    (hafter : ∀ row, after = some row → row ∈ (historyOf key runs).map (storedRow rt)) :
    historyPageAt other rt snapshot key limit (after.map (tokenOf key)) =
      .ok ⟨key,
        ((Pages.beyond positionOf (after.map positionOf)
          ((historyOf key runs).map (storedRow rt))).take n).map
            (Queries.occurrenceOf key.projectId key.runnerName key.historicalId),
        Pages.cursor cursorAt n (Pages.beyond positionOf (after.map positionOf)
          ((historyOf key runs).map (storedRow rt)))⟩ := by
  have hdecoded : afterOf other key.projectId
      ⟨key.runnerName, key.historicalId, limit, after.map (tokenOf key)⟩ =
        .ok (after.map cursorAt) ∧
      checkCursor (after.map cursorAt) = .ok (after.map positionOf) := by
    cases after with
    | none => exact ⟨rfl, rfl⟩
    | some row =>
        obtain ⟨p, hp, rfl⟩ := h.named_row (hafter row rfl)
        exact ⟨afterOf_token rt key hp other limit, checkCursor_row rt hp⟩
  have hpage := @getTestHistoryPage_eq rt key snapshot limit n _ _ hproject hlimit hdecoded.2 hcomplete
  rw [h.historyRows_eq] at hpage
  rw [historyPageAt, hdecoded.1]
  exact congrArg asked hpage

/-- The answer to a history query is its page with the cursor that is written for the next one. -/
theorem queryHistory_of_page {other : Text → Option Date} {cursor : Option Text} {page : HistoryPage}
    (hpage : historyPageAt other rt snapshot key limit cursor = .ok page)
    (hwritten : ∀ after, page.next = some after →
      (writeHistoryCursor key.projectId key.runnerName key.historicalId after).isSome = true) :
    queryHistory other rt snapshot key.projectId ⟨key.runnerName, key.historicalId, limit, cursor⟩ =
      .ok ⟨page.runnerName, page.historicalId, page.occurrences.map occurrenceDto,
        cursorAfter key page⟩ := by
  obtain ⟨after, hafter, hasked⟩ := bind_eq_ok.mp hpage
  refine bind_eq_ok.mpr ⟨after, hafter, bind_eq_ok.mpr ⟨page, hasked, ?_⟩⟩
  unfold cursorAfter
  cases hnext : page.next with
  | none => rfl
  | some c =>
      obtain ⟨token, htoken⟩ := Option.isSome_iff_exists.mp (hwritten c hnext)
      simp only [htoken, Option.map_some, Option.getD_some, bind, Except.bind, pure, Except.pure]

/-- The flakiness of a test, counted over the rows of its history. -/
theorem getFlakinessSummary_eq {runs : List ProjectedRun}
    (h : Covers rt key.projectId (snapshot.ofProject key.projectId) runs)
    (hproject : checkProjectId key.projectId = .ok ())
    (hcomplete : incomplete snapshot key.projectId = false) :
    let flaky := ((historyOf key runs).map Prod.snd).filter (fun o => o.flaky)
    getFlakinessSummary rt snapshot key =
      .ok ⟨key, (historyOf key runs).length, flaky.length, decide (0 < flaky.length)⟩ := by
  have hchecked : checkProject key.projectId = .ok () := by
    rw [checkProject, hproject]
    rfl
  have hselected : selected rt key snapshot = (occurrencesOf key runs).map (storedRow rt) := h.selected
  have hperm : (historyOf key runs).Perm (occurrencesOf key runs) := sortBy_perm _
  have hflaky : ((occurrencesOf key runs).map (storedRow rt)).countP (fun row => row.flaky) =
      (((historyOf key runs).map Prod.snd).filter (fun o => o.flaky)).length := by
    rw [List.countP_map, ← List.countP_eq_length_filter, List.countP_map]
    exact hperm.symm.countP_eq _
  rw [getFlakinessSummary]
  simp only [hchecked, answering, hcomplete, hselected, bind, Except.bind, Bool.false_eq_true,
    if_false, hflaky, List.length_map, hperm.length_eq]

end page

/-! ### Every page -/

/-- The request for one page of a history: the page of the given number, with the limit that the
client sets for it. -/
def askPage (other : Text → Option Date) (rt : Runtime) (snapshot : Snapshot) (key : HistoryKey)
    (limits : ℕ → Option ℤ) (k : ℕ) (cursor : Option Text) : Except Refusal HistoryAnswer :=
  queryHistory other rt snapshot key.projectId ⟨key.runnerName, key.historicalId, limits k, cursor⟩

/-- The limits that the interface admits. -/
def Admitted (limits : ℕ → Option ℤ) : Prop := ∀ k n, limits k = some n → 1 ≤ n ∧ n ≤ maxPageSize

theorem checkLimit_page {limit : Option ℤ} (h : ∀ n, limit = some n → 1 ≤ n ∧ n ≤ maxPageSize) :
    ∃ n, 0 < n ∧ checkLimit limit defaultPageSize maxPageSize = .ok n := by
  cases limit with
  | none => exact ⟨defaultPageSize, by decide, rfl⟩
  | some n =>
      obtain ⟨hlow, hhigh⟩ := h n rfl
      have hsize : maxPageSize = 1000 := rfl
      have hsafe : isSafe n := by
        rw [isSafe]
        omega
      refine ⟨min n.toNat maxPageSize, by omega, ?_⟩
      rw [checkLimit]
      exact if_neg (by rw [not_or, not_not]; exact ⟨hsafe, by omega⟩)

section read
variable {rt : Runtime} {key : HistoryKey} {snapshot : Snapshot} {runs : List ProjectedRun}

/-- What the read model answers of the runs that an index covers. -/
theorem read_of_covers (h : Covers rt key.projectId (snapshot.ofProject key.projectId) runs)
    {catalog : Text → Option ℤ}
    (hsized : ∀ r ∈ runs, ∀ a ∈ r.attachments, catalog a.sha256 = some a.sizeBytes)
    (hproject : checkProjectId key.projectId = .ok ()) :
    let flaky := ((historyOf key runs).map Prod.snd).filter (fun o => o.flaky)
    ∃ b, assemble runs = .ok b ∧
      b.model.getTestHistory key.projectId key.runnerName key.historicalId =
        .ok ⟨key.projectId, key.runnerName, key.historicalId, (historyOf key runs).map Prod.snd⟩ ∧
      b.model.getFlakiness key.projectId key.runnerName key.historicalId =
        .ok ⟨key.projectId, key.runnerName, key.historicalId, (historyOf key runs).length,
          flaky.length, decide (0 < flaky.length), flaky⟩ := by
  obtain ⟨b, hb, hhistory⟩ := h.assembled hsized
  have hkept : (b.model.history.get?
      (historyKey key.projectId key.runnerName key.historicalId)).getD [] =
        (historyOf key runs).map Prod.snd := hhistory key.runnerName key.historicalId
  have hanswer : b.model.getTestHistory key.projectId key.runnerName key.historicalId =
      .ok ⟨key.projectId, key.runnerName, key.historicalId, (historyOf key runs).map Prod.snd⟩ := by
    rw [ReadModel.getTestHistory, hproject, hkept]
    rfl
  refine ⟨b, hb, hanswer, ?_⟩
  rw [ReadModel.getFlakiness, hanswer, ← List.length_map Prod.snd]
  rfl

/-- The pages of the query layer, read through the cursors of the interface, are the history. -/
theorem historyPages_walk (other : Text → Option Date)
    (h : Covers rt key.projectId (snapshot.ofProject key.projectId) runs)
    (hproject : checkProjectId key.projectId = .ok ())
    (hcomplete : incomplete snapshot key.projectId = false) {limits : ℕ → Option ℤ}
    (hlimits : Admitted limits) :
    ∃ pages, pages.flatMap HistoryPage.occurrences = (historyOf key runs).map Prod.snd ∧
      ∀ fuel, (historyOf key runs).length < fuel →
        Pages.walk (cursorAfter key) (fun k => historyPageAt other rt snapshot key (limits k)) fuel 0
          none = some (.ok pages) := by
  choose size hsize using fun k => checkLimit_page (hlimits k)
  have hread : ∀ k (after : Option OccurrenceRow), (∀ row, after = some row →
      row ∈ (historyOf key runs).map (storedRow rt)) →
      ∃ page, historyPageAt other rt snapshot key (limits k) (after.map (tokenOf key)) = .ok page ∧
        page.occurrences = ((Pages.beyond positionOf (after.map positionOf)
          ((historyOf key runs).map (storedRow rt))).take (size k)).map
            (Queries.occurrenceOf key.projectId key.runnerName key.historicalId) ∧
        cursorAfter key page = Pages.cursor (tokenOf key) (size k) (Pages.beyond positionOf
          (after.map positionOf) ((historyOf key runs).map (storedRow rt))) := fun k after hafter =>
    ⟨_, historyPageAt_eq other h hproject (hsize k).2 hcomplete after hafter, rfl,
      cursorAfter_eq ..⟩
  obtain ⟨pages, hpages, hwalk⟩ := Pages.walk_tokens_eq_ok h.rows_ascending
    (fun k => (hsize k).1) hread 0 none (fun row hrow => by cases hrow)
  rw [Option.map_none, Pages.beyond_none] at hpages hwalk
  refine ⟨pages, ?_, fun fuel hfuel => ?_⟩
  · rw [hpages, List.map_map]
    refine List.map_congr_left fun p hp => ?_
    rw [Function.comp_apply, occurrence_row hp]
  · rw [List.length_map] at hwalk
    exact hwalk fuel hfuel

/-- The answers of the interface hold the pages of the query layer. -/
theorem historyAnswers_walk (other : Text → Option Date)
    (h : Covers rt key.projectId (snapshot.ofProject key.projectId) runs)
    (hproject : checkProjectId key.projectId = .ok ())
    (hcomplete : incomplete snapshot key.projectId = false) {limits : ℕ → Option ℤ}
    (hlimits : Admitted limits) :
    ∃ pages, pages.flatMap HistoryAnswer.occurrences =
        ((historyOf key runs).map Prod.snd).map occurrenceDto ∧
      ∀ fuel, (historyOf key runs).length < fuel →
        Pages.walk HistoryAnswer.nextCursor (askPage other rt snapshot key limits) fuel 0 none =
          some (.ok pages) := by
  choose size hsize using fun k => checkLimit_page (hlimits k)
  have hread : ∀ k (after : Option OccurrenceRow), (∀ row, after = some row →
      row ∈ (historyOf key runs).map (storedRow rt)) →
      ∃ answer, askPage other rt snapshot key limits k (after.map (tokenOf key)) = .ok answer ∧
        answer.occurrences = ((Pages.beyond positionOf (after.map positionOf)
          ((historyOf key runs).map (storedRow rt))).take (size k)).map (fun row => occurrenceDto
            (Queries.occurrenceOf key.projectId key.runnerName key.historicalId row)) ∧
        answer.nextCursor = Pages.cursor (tokenOf key) (size k) (Pages.beyond positionOf
          (after.map positionOf) ((historyOf key runs).map (storedRow rt))) := by
    intro k after hafter
    have hpage := historyPageAt_eq other h hproject (hsize k).2 hcomplete after hafter
    refine ⟨_, queryHistory_of_page hpage fun c hc => ?_, ?_, cursorAfter_eq ..⟩
    · obtain ⟨row, hrow, rfl⟩ := Pages.mem_of_cursor hc
      obtain ⟨p, hp, rfl⟩ := h.named_row (Pages.mem_beyond.mp hrow).1
      rw [writeHistoryCursor_row rt key hp]
      rfl
    · rw [List.map_map]
      rfl
  obtain ⟨pages, hpages, hwalk⟩ := Pages.walk_tokens_eq_ok h.rows_ascending
    (fun k => (hsize k).1) hread 0 none (fun row hrow => by cases hrow)
  rw [Option.map_none, Pages.beyond_none] at hpages hwalk
  refine ⟨pages, ?_, fun fuel hfuel => ?_⟩
  · rw [hpages, List.map_map, List.map_map]
    refine List.map_congr_left fun p hp => ?_
    rw [Function.comp_apply, Function.comp_apply, occurrence_row hp]
  · rw [List.length_map] at hwalk
    exact hwalk fuel hfuel

end read

/-- In every state that ingestions, rebuilds and passes reach, for a project whose runs are all
currently indexed: the history pages, followed from the first through their cursors, end and hold
together, element for element, the history that the read model assembles from the projections of
the archived runs, whatever the limits; and the counts of the flakiness summary are the read
model's. -/
theorem history_read_exactly {ι : Type} [DecidableEq ι] (rt : Runtime) (fs : QeReport.FileSystem)
    (interpret : ℕ → ProjectedRun → Except Text DerivedQueryIndex)
    (hinterpret : interpret queryIndexVersion = deriveQueryIndex rt) (dateTime : Text → Bool)
    (hschema : ∀ t v, rt.validate t v = none → EventSchema.validates dateTime t v = true)
    {s₀ s : State ι} (hquiet : Quiet s₀) (hempty : s₀.db.Empty)
    (h : Relation.ReflTransGen (Archiving.Step rt fs interpret) s₀ s) (snapshot : Snapshot)
    (hshows : Queries.Shows s.db snapshot) (key : HistoryKey)
    (hproject : checkProjectId key.projectId = .ok ())
    (hcurrent : ∀ r ∈ snapshot.ofProject key.projectId, r.2.current queryIndexVersion = true)
    (other : Text → Option Date) :
    (∃ runs, List.Forall₂ (fun r run => ArchivedFrom rt interpret r.1 r.2 run)
      (snapshot.ofProject key.projectId) runs) ∧
    ∀ runs, List.Forall₂ (fun r run => ArchivedFrom rt interpret r.1 r.2 run)
      (snapshot.ofProject key.projectId) runs →
    ∃ b history flakiness summary, assemble runs = .ok b ∧
      b.model.getTestHistory key.projectId key.runnerName key.historicalId = .ok history ∧
      b.model.getFlakiness key.projectId key.runnerName key.historicalId = .ok flakiness ∧
      (∀ limits, Admitted limits →
        ∃ pages, pages.flatMap HistoryPage.occurrences = history.occurrences ∧
          ∀ fuel, history.occurrences.length < fuel →
            Pages.walk (cursorAfter key) (fun k => historyPageAt other rt snapshot key (limits k))
              fuel 0 none = some (.ok pages)) ∧
      getFlakinessSummary rt snapshot key = .ok summary ∧
      summary.totalOccurrences = flakiness.totalOccurrences ∧
      summary.flakyOccurrences = flakiness.flakyOccurrences := by
  refine ⟨archived_of_run hquiet hempty h hshows _, fun runs hruns => ?_⟩
  have hcomplete := incomplete_eq_false_iff.mpr hcurrent
  have hcovers := covers_of_run hinterpret hschema hquiet hempty h hshows hruns hcomplete
  obtain ⟨b, hb, hhistory, hflakiness⟩ :=
    read_of_covers hcovers (sizes_of_run hquiet hempty h hshows hruns) hproject
  refine ⟨b, _, _, _, hb, hhistory, hflakiness, fun limits hlimits => ?_,
    getFlakinessSummary_eq hcovers hproject hcomplete, rfl, rfl⟩
  obtain ⟨pages, hpages, hwalk⟩ := historyPages_walk other hcovers hproject hcomplete hlimits
  refine ⟨pages, hpages, fun fuel hfuel => hwalk fuel ?_⟩
  rwa [List.length_map] at hfuel

/-- The test of both runs has an occurrence in each. -/
theorem two_occurrences {o o' : Offer} {run run' : ProjectedRun} {b : ReadModelBuild}
    {history : TestHistory} (hstored : Sample.Stored Sample.attachedDirectory o 0 (txt "run") run)
    (hstored' : Sample.Stored Sample.laterDirectory o' 1 (txt "later") run')
    (hb : assemble [run, run'] = .ok b)
    (hhistory : b.model.getTestHistory (txt "project") (txt "junit") (txt "Adds") = .ok history) :
    history.occurrences.length = 2 := by
  have hlength : (do
      let run ← Sample.projectedFrom Sample.attachedDirectory
      let run' ← Sample.projectedFrom Sample.laterDirectory
      let b ← (assemble [run, run']).toOption
      let history ← (b.model.getTestHistory (txt "project") (txt "junit") (txt "Adds")).toOption
      return history.occurrences.length) = some 2 := by
    decide +kernel
  rw [hstored.projection, hstored'.projection] at hlength
  simpa only [Option.bind_eq_bind, Option.bind_some, hb, hhistory, Except.toOption, Option.pure_def,
    Option.some_inj] using hlength

/-- The limit of one occurrence a page. -/
theorem admitted_one : Admitted (fun _ => some 1) := by
  intro k n hn
  rw [← Option.some.inj hn]
  decide

/-- The history of the test in both runs, one occurrence a page. -/
theorem history_read_exactly_twice : ∃ (snapshot : Snapshot) (b : ReadModelBuild)
    (history : TestHistory) (pages : List HistoryPage), snapshot.length = 2 ∧
    history.occurrences.length = 2 ∧
    b.model.getTestHistory (txt "project") (txt "junit") (txt "Adds") = .ok history ∧
    pages.flatMap HistoryPage.occurrences = history.occurrences ∧
    Pages.walk (cursorAfter ⟨txt "project", txt "junit", txt "Adds"⟩)
      (fun _ => historyPageAt (fun _ => none) Sample.checkedRuntime snapshot
        ⟨txt "project", txt "junit", txt "Adds"⟩ (some 1))
      (history.occurrences.length + 1) 0 none = some (.ok pages) := by
  obtain ⟨s, o, o', run, run', hrun, hshows, hstored, hstored'⟩ := Sample.checked_archived_twice
  obtain ⟨hown, hcurrent⟩ := Sample.twice_current hstored hstored'
  obtain ⟨-, hread⟩ := history_read_exactly Sample.checkedRuntime Sample.attachedDirectory
    Sample.checkedInterpret rfl (fun _ => true) Sample.checked_schema Sample.empty_quiet
    (fun _ => rfl) hrun _ hshows ⟨txt "project", txt "junit", txt "Adds"⟩ (by decide)
    (by rw [hown]; exact hcurrent) (fun _ => none)
  obtain ⟨b, history, -, -, hb, hhistory, -, hpages, -⟩ := hread [run, run']
    (by rw [hown]; exact .cons hstored.archived (.cons hstored'.archived .nil))
  obtain ⟨pages, hshown, hwalk⟩ := hpages _ admitted_one
  exact ⟨_, b, history, pages, rfl, two_occurrences hstored hstored' hb hhistory, hhistory, hshown,
    hwalk _ (Nat.lt_succ_self _)⟩

end QeReport.Http

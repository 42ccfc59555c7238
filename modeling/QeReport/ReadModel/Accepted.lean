import QeReport.ReadModel.Flakiness
import QeReport.ReadModel.Timeline

/-! # The accepted runs

Runs of different ids whose attachments agree with one catalog of sizes are all accepted by
`ReadModel.assemble` (`accepted_perm`), and what the snapshot keeps for a test is their
occurrences in history order (`assemble_history`).  The runs of one archive are such runs.

The order in which runs are given never matters (`assemble_order_free`): what is accepted and
which problems there are depends on the runs alone, and so does whether a history can be sorted. -/

namespace QeReport

/-- The key of a run. -/
def ProjectedRun.key (run : ProjectedRun) : Text := runKey run.projectId run.runId

/-- The runs have different keys, and their attachments the sizes of one catalog. -/
structure Fits (catalog : Text → Option ℤ) (runs : List ProjectedRun) : Prop where
  distinct : (runs.map ProjectedRun.key).Nodup
  sized : ∀ r ∈ runs, ∀ a ∈ r.attachments, catalog a.sha256 = some a.sizeBytes

/-- Every blob has its size in the catalog. -/
def Sized (catalog : Text → Option ℤ) (blobs : JsMap Text Blob) : Prop :=
  ∀ sha256 blob, blobs.get? sha256 = some blob → catalog sha256 = some blob.sizeBytes

section accepting
variable {catalog : Text → Option ℤ} {runs : List ProjectedRun}

/-- The only candidate of the key of a run is the run. -/
theorem Fits.candidatesAt (h : Fits catalog runs) {r : ProjectedRun} (hr : r ∈ runs) :
    candidatesAt runs r.key = [r] := by
  have hunique : ∀ r' ∈ runs, r'.key = r.key → r' = r := fun r' hr' hkey =>
    List.inj_on_of_nodup_map h.distinct hr' hr hkey
  have hc := candidatesOf_candidatesAt runs r.key
  have hall : ∀ r' ∈ QeReport.candidatesAt runs r.key, r' = r := fun r' hr' =>
    hunique r' (hc.sound r' hr').1 (hc.sound r' hr').2
  have hnodup := hc.directories.of_map
  obtain ⟨r', hr', -⟩ := hc.complete r hr rfl
  cases hlist : QeReport.candidatesAt runs r.key with
  | nil =>
    rw [hlist] at hr'
    cases hr'
  | cons a as =>
    rw [hlist] at hall hnodup
    have ha := hall a List.mem_cons_self
    cases as with
    | nil => rw [ha]
    | cons b bs =>
      have hb := hall b (List.mem_cons_of_mem _ List.mem_cons_self)
      rw [ha, hb] at hnodup
      exact absurd List.mem_cons_self (List.nodup_cons.mp hnodup).1

/-- The keys in order, each with its run. -/
theorem Fits.sortedCandidates (h : Fits catalog runs) :
    ∃ rs : List ProjectedRun, rs.Perm runs ∧ sortedCandidates runs = rs.map (fun r => (r.key, [r])) := by
  have hkeys : ((candidatesByKey runs).entries.map Prod.fst).Perm (runs.map ProjectedRun.key) := by
    refine (List.perm_ext_iff_of_nodup (candidatesByKey runs).nodup h.distinct).mpr fun k => ?_
    rw [mem_candidateKeys, List.mem_map]
    exact exists_congr fun r => and_congr_right fun _ => eq_comm
  have hperm : (sortBy (fun a b => compare a.key b.key) runs).Perm runs := sortBy_perm _
  have hmap : (sortBy (fun a b => compare a.key b.key) runs).map ProjectedRun.key =
      sortedKeys runs := by
    rw [map_sortBy ProjectedRun.key (fun _ _ => rfl), sortedKeys,
      sortBy_eq_of_perm hkeys fun a _ b _ heq => Std.LawfulEqCmp.eq_of_compare heq]
  refine ⟨_, hperm, ?_⟩
  rw [sortedCandidates_eq, ← hmap, List.map_map]
  refine List.map_congr_left fun r hr => ?_
  rw [Function.comp_apply, h.candidatesAt (hperm.mem_iff.mp hr)]

theorem Sized.addReference {blobs : JsMap Text Blob} (h : Sized catalog blobs) {run : ProjectedRun}
    {a : AttachmentReference} (ha : catalog a.sha256 = some a.sizeBytes) :
    Sized catalog (addReference run blobs a) := by
  intro sha256 blob hget
  rw [QeReport.addReference, JsMap.get?_set] at hget
  by_cases hsame : sha256 = a.sha256
  · rw [if_pos hsame] at hget
    subst hsame
    cases hget
    cases hknown : blobs.get? a.sha256 with
    | none => exact ha
    | some known =>
      have hsize : catalog a.sha256 = some known.sizeBytes := h _ known hknown
      exact hsize
  · rw [if_neg hsame] at hget
    exact h _ _ hget

theorem Sized.references {blobs : JsMap Text Blob} (h : Sized catalog blobs) {run : ProjectedRun}
    {as : List AttachmentReference} (has : ∀ a ∈ as, catalog a.sha256 = some a.sizeBytes) :
    Sized catalog (as.foldl (QeReport.addReference run) blobs) := by
  induction as generalizing blobs with
  | nil => exact h
  | cons a as ih =>
    exact ih (h.addReference (has a List.mem_cons_self))
      fun b hb => has b (List.mem_cons_of_mem _ hb)

/-- A run that fits the catalog is accepted. -/
theorem assembleKey_fits {st : Assembling} (hst : Sized catalog st.blobs) {r : ProjectedRun}
    (hr : ∀ a ∈ r.attachments, catalog a.sha256 = some a.sizeBytes) :
    (assembleKey st (r.key, [r])).accepted = st.accepted.set r.key r ∧
      Sized catalog (assembleKey st (r.key, [r])).blobs := by
  have hnone : r.attachments.find? (contradicts st.blobs) = none := by
    refine List.find?_eq_none.mpr fun a ha hcontra => ?_
    rw [contradicts] at hcontra
    cases hknown : st.blobs.get? a.sha256 with
    | none =>
      rw [hknown] at hcontra
      cases hcontra
    | some known =>
      rw [hknown, decide_eq_true_eq] at hcontra
      exact hcontra (Option.some.inj ((hst _ _ hknown).symm.trans (hr a ha)))
  simp only [assembleKey, hnone]
  exact ⟨trivial, hst.references hr⟩

theorem values_set {m : JsMap Text ProjectedRun} {k : Text} (v : ProjectedRun)
    (h : m.get? k = none) : (m.set k v).values = m.values ++ [v] := by
  simp [JsMap.values, JsMap.set, JsMap.setEntries, JsMap.get?_eq_none.mp h]

/-- All of the runs are accepted. -/
theorem accepted_perm (h : Fits catalog runs) : (acceptRuns runs).accepted.values.Perm runs := by
  obtain ⟨rs, hperm, hsorted⟩ := h.sortedCandidates
  have hfold : ∀ (rs : List ProjectedRun) (st : Assembling), Sized catalog st.blobs →
      (∀ r ∈ rs, ∀ a ∈ r.attachments, catalog a.sha256 = some a.sizeBytes) →
      (rs.map ProjectedRun.key).Nodup → (∀ r ∈ rs, st.accepted.get? r.key = none) →
      ((rs.map (fun r => (r.key, [r]))).foldl assembleKey st).accepted.values =
        st.accepted.values ++ rs := by
    intro rs
    induction rs with
    | nil =>
      intro st _ _ _ _
      exact (List.append_nil _).symm
    | cons r rs ih =>
      intro st hst hsized hnodup hnew
      obtain ⟨haccepted, hblobs⟩ := assembleKey_fits hst (hsized r List.mem_cons_self)
      rw [List.map_cons, List.nodup_cons] at hnodup
      rw [List.map_cons, List.foldl_cons, ih _ hblobs
        (fun r' hr' => hsized r' (List.mem_cons_of_mem _ hr')) hnodup.2, haccepted,
        values_set r (hnew r List.mem_cons_self), List.append_assoc, List.singleton_append]
      intro r' hr'
      rw [haccepted, JsMap.get?_set_ne _ _ ?_]
      · exact hnew r' (List.mem_cons_of_mem _ hr')
      · intro hkey
        exact hnodup.1 (hkey ▸ List.mem_map_of_mem hr')
  rw [acceptRuns, hsorted, hfold rs ⟨.empty, .empty, []⟩ (fun _ _ hget => by cases hget)
    (fun r hr => h.sized r (hperm.mem_iff.mp hr)) ((hperm.map _).nodup_iff.mpr h.distinct)
    (fun _ _ => rfl)]
  exact hperm

end accepting

/-! ### Histories -/

theorem foldlM_set_ok {ε V W : Type} {f : W → Except ε V} {l : List (Text × W)} {m : JsMap Text V}
    (h : ∀ e ∈ l, ∃ v, f e.2 = .ok v) :
    ∃ m', l.foldlM (fun m e => do return m.set e.1 (← f e.2)) m = .ok m' := by
  induction l generalizing m with
  | nil => exact ⟨m, rfl⟩
  | cons e l ih =>
    obtain ⟨v, hv⟩ := h e List.mem_cons_self
    obtain ⟨m', hm'⟩ := ih (m := m.set e.1 v) fun e' he' => h e' (List.mem_cons_of_mem _ he')
    refine ⟨m', ?_⟩
    rw [List.foldlM_cons]
    simp only [hv]
    exact hm'

theorem map_snd_placed {os : List ExecutionOccurrence}
    {ps : List (HistoryInstant × ExecutionOccurrence)} (h : os.mapM placed = .ok ps) :
    ps.map Prod.snd = os := by
  have hpairs := Projector.mapM_eq_ok h
  clear h
  induction hpairs with
  | nil => rfl
  | cons hp _ ih =>
    obtain ⟨i, -, rfl⟩ := map_eq_ok.mp hp
    rw [List.map_cons, ih]

/-- An ascending list of the placed occurrences of a list is what sorting gives. -/
theorem sortOccurrences_eq {os : List ExecutionOccurrence}
    {ps l : List (HistoryInstant × ExecutionOccurrence)} (hps : os.mapM placed = .ok ps)
    (hperm : l.Perm ps) (hl : l.Pairwise (fun a b => compareHistoryOccurrences a b = .lt)) :
    sortOccurrences os = .ok (l.map Prod.snd) := by
  have hsnd := map_snd_placed hps
  unfold sortOccurrences
  split_ifs with hlen
  · have hsame : ps = l := by
      rw [← hsnd, List.length_map, ← hperm.length_eq] at hlen
      cases l with
      | nil => exact hperm.nil_eq.symm
      | cons a l =>
        cases l with
        | nil => exact List.perm_singleton.mp hperm.symm
        | cons b l => exact absurd hlen (by simp)
    rw [← hsame, hsnd]
  · have hanti : ∀ a ∈ l, ∀ b ∈ l, compareHistoryOccurrences a b = .eq → a = b := by
      have hrel : l.Pairwise (fun a b => compareHistoryOccurrences a b = .eq → a = b) :=
        hl.imp fun hlt heq => by rw [hlt] at heq; cases heq
      have : Std.Symm (fun a b => compareHistoryOccurrences a b = .eq → a = b) :=
        ⟨fun _ _ hab heq => (hab (Std.OrientedCmp.eq_symm heq)).symm⟩
      intro a ha b hb
      exact hrel.forall_of_forall (fun _ _ _ => rfl) ha hb
    have hsorted : sortBy compareHistoryOccurrences ps = l := by
      rw [← sortBy_eq_of_perm hperm hanti]
      exact sortBy_eq_self (hl.imp fun hlt => by rw [hlt]; decide)
    rw [hps]
    change Except.ok ((sortBy compareHistoryOccurrences ps).map Prod.snd) = _
    rw [hsorted]

theorem sortOccurrences_ok {os : List ExecutionOccurrence}
    {ps : List (HistoryInstant × ExecutionOccurrence)} (h : os.mapM placed = .ok ps) :
    ∃ l, sortOccurrences os = .ok l := by
  unfold sortOccurrences
  split_ifs
  · exact ⟨os, rfl⟩
  · rw [h]
    exact ⟨_, rfl⟩

section histories
variable {catalog : Text → Option ℤ} {runs : List ProjectedRun}
  {ps : ProjectedRun → List (HistoryInstant × ExecutionOccurrence)}

/-- The occurrences of the runs are placed one by one. -/
theorem flatten_placed {accepted : List ProjectedRun} {os : List (List ExecutionOccurrence)}
    (hos : accepted.mapM historyOccurrencesOf = .ok os)
    (hplaced : ∀ r ∈ accepted, ∃ o, historyOccurrencesOf r = .ok o ∧ o.mapM placed = .ok (ps r)) :
    os.flatten.mapM placed = .ok (accepted.flatMap ps) := by
  have hpairs := Projector.mapM_eq_ok hos
  clear hos
  induction hpairs with
  | nil => rfl
  | @cons r o accepted os ho _ ih =>
    obtain ⟨o', ho', hr⟩ := hplaced r List.mem_cons_self
    obtain rfl : o' = o := Except.ok.inj (ho'.symm.trans ho)
    rw [List.flatten_cons, List.flatMap_cons, List.mapM_append, hr,
      ih fun r' hr' => hplaced r' (List.mem_cons_of_mem _ hr')]
    rfl

theorem filter_placed {os : List ExecutionOccurrence}
    {l : List (HistoryInstant × ExecutionOccurrence)} (h : os.mapM placed = .ok l)
    (p : ExecutionOccurrence → Bool) :
    (os.filter p).mapM placed = .ok (l.filter (fun x => p x.2)) := by
  have hpairs := Projector.mapM_eq_ok h
  clear h
  induction hpairs with
  | nil => rfl
  | @cons o x os l hx _ ih =>
    obtain ⟨i, hi, rfl⟩ := map_eq_ok.mp hx
    rw [List.filter_cons, List.filter_cons]
    split_ifs with hp
    · rw [List.mapM_cons, hx, ih]
      rfl
    · exact ih

/-- Occurrences that have a place have a history. -/
theorem buildHistory_ok {accepted : List ProjectedRun} {os : List (List ExecutionOccurrence)}
    {l : List (HistoryInstant × ExecutionOccurrence)}
    (hos : accepted.mapM historyOccurrencesOf = .ok os) (hall : os.flatten.mapM placed = .ok l) :
    ∃ history, buildHistory accepted = .ok history := by
  obtain ⟨history, hhistory⟩ := foldlM_set_ok (f := sortOccurrences)
    (l := (JsMap.groupBy ExecutionOccurrence.key id os.flatten).entries)
    (m := JsMap.groupBy ExecutionOccurrence.key id os.flatten) fun e he => by
      have hget := JsMap.mem_entries.mp he
      rw [JsMap.get?_groupBy] at hget
      split_ifs at hget
      rw [← Option.some.inj hget, List.map_id]
      exact sortOccurrences_ok (filter_placed hall fun o => o.key = e.1)
  refine ⟨history, ?_⟩
  rw [buildHistory, hos]
  exact hhistory

/-- What the snapshot of such runs keeps for a test is any ascending list of their occurrences. -/
theorem assemble_history (h : Fits catalog runs)
    (hplaced : ∀ r ∈ runs, ∃ os, historyOccurrencesOf r = .ok os ∧ os.mapM placed = .ok (ps r)) :
    ∃ b, assemble runs = .ok b ∧
      ∀ (key : Text) (l : List (HistoryInstant × ExecutionOccurrence)),
      l.Perm ((runs.flatMap ps).filter (fun p => p.2.key = key)) →
      l.Pairwise (fun a b => compareHistoryOccurrences a b = .lt) →
      (b.model.history.get? key).getD [] = l.map Prod.snd := by
  have hperm := accepted_perm h
  have haccepted : ∀ r ∈ (acceptRuns runs).accepted.values, ∃ os,
      historyOccurrencesOf r = .ok os ∧ os.mapM placed = .ok (ps r) := fun r hr =>
    hplaced r (hperm.mem_iff.mp hr)
  obtain ⟨os, hos⟩ := Projector.mapM_ok fun r hr => (haccepted r hr).imp fun _ h => h.1
  have hall := flatten_placed hos haccepted
  obtain ⟨history, hbuilt⟩ := buildHistory_ok hos hall
  have hhistory : (JsMap.groupBy ExecutionOccurrence.key id os.flatten).entries.foldlM
      (fun m e => do return m.set e.1 (← sortOccurrences e.2))
      (JsMap.groupBy ExecutionOccurrence.key id os.flatten) = .ok history := by
    rw [buildHistory, hos] at hbuilt
    exact hbuilt
  refine ⟨⟨⟨(acceptRuns runs).accepted, history, freezeBlobs (acceptRuns runs).blobs⟩,
    (acceptRuns runs).problems⟩, ?_, ?_⟩
  · unfold assemble
    dsimp only
    rw [hbuilt]
    rfl
  · intro key l hl hasc
    have hsorted : sortOccurrences (os.flatten.filter (fun o => o.key = key)) =
        .ok (l.map Prod.snd) := by
      refine sortOccurrences_eq (filter_placed hall fun o => o.key = key) (hl.trans ?_) hasc
      exact ((hperm.flatMap_right ps).filter _).symm
    have hget := JsMap.get?_groupBy ExecutionOccurrence.key id os.flatten key
    obtain ⟨hmem, hno⟩ := JsMap.get?_foldlM_set (JsMap.nodup _) hhistory key
    change (history.get? key).getD [] = _
    split_ifs at hget with hkey
    · obtain ⟨v, hv, hfound⟩ := hmem _ (JsMap.mem_entries.mpr hget)
      rw [List.map_id, hsorted] at hv
      rw [hfound]
      exact (Except.ok.inj hv).symm
    · rw [hno (JsMap.get?_eq_none.mp hget), hget]
      rw [List.filter_eq_nil_iff.mpr fun o ho hk =>
        hkey (List.mem_map.mpr ⟨o, ho, of_decide_eq_true hk⟩)] at hsorted
      exact Except.ok.inj hsorted

end histories

/-! ### The order of the runs -/

/-- Each execution of a test with a history has a first attempt, and that started at an instant
of the history. -/
def Placeable (run : ProjectedRun) : Prop :=
  ∀ x ∈ run.executions, x.test.historicalId ≠ none → x.runnerName ≠ none →
    ∃ first ∈ x.attempts.head?, ∃ i, historyInstant first.startedAt = .ok i

/-- The occurrences of one execution have a place. -/
theorem Placeable.occurrences {run : ProjectedRun} (h : Placeable run) :
    ∃ os ps, historyOccurrencesOf run = .ok os ∧ os.mapM placed = .ok ps := by
  suffices hos : ∃ os, historyOccurrencesOf run = .ok os ∧ ∀ o ∈ os, ∃ p, placed o = .ok p by
    obtain ⟨os, hos, hall⟩ := hos
    obtain ⟨ps, hps⟩ := Projector.mapM_ok hall
    exact ⟨os, ps, hos, hps⟩
  have heach : ∀ (f : TestExecution → Except Text (List ExecutionOccurrence))
      (l : List TestExecution),
      (∀ x ∈ l, ∃ os, f x = .ok os ∧ ∀ o ∈ os, ∃ p, placed o = .ok p) →
      ∃ os, List.flatten <$> l.mapM f = .ok os ∧ ∀ o ∈ os, ∃ p, placed o = .ok p := by
    intro f l hl
    induction l with
    | nil => exact ⟨[], rfl, by simp⟩
    | cons x l ih =>
      obtain ⟨os, hos, hplaced⟩ := hl x List.mem_cons_self
      obtain ⟨rest, hrest, hall⟩ := ih fun x hx => hl x (List.mem_cons_of_mem _ hx)
      obtain ⟨ls, hls, rfl⟩ := map_eq_ok.mp hrest
      refine ⟨os ++ ls.flatten, by rw [List.mapM_cons, hos, hls]; rfl, fun o ho => ?_⟩
      rcases List.mem_append.mp ho with ho | ho
      · exact hplaced o ho
      · exact hall o ho
  refine heach _ _ fun x hx => ?_
  cases hhistorical : x.test.historicalId with
  | none => exact ⟨[], rfl, by simp⟩
  | some historicalId =>
    cases hrunner : x.runnerName with
    | none => exact ⟨[], rfl, by simp⟩
    | some runnerName =>
      obtain ⟨first, hfirst, i, hi⟩ := h x hx (by simp [hhistorical]) (by simp [hrunner])
      obtain ⟨rest, hattempts⟩ := List.head?_eq_some_iff.mp hfirst
      rw [hattempts]
      refine ⟨_, rfl, fun o ho => ?_⟩
      rw [List.mem_singleton.mp ho]
      exact ⟨_, congrArg _ hi⟩

/-- A snapshot of such runs is assembled. -/
theorem assemble_ok {runs : List ProjectedRun} (h : ∀ r ∈ runs, Placeable r) :
    ∃ b, assemble runs = .ok b := by
  have haccepted : ∀ r ∈ (acceptRuns runs).accepted.values, ∃ ps os,
      historyOccurrencesOf r = .ok os ∧ os.mapM placed = .ok ps := fun r hr => by
    obtain ⟨os, ps, hos, hps⟩ := (h r (mem_accepted hr)).occurrences
    exact ⟨ps, os, hos, hps⟩
  obtain ⟨ps, hps⟩ : ∃ ps : ProjectedRun → List (HistoryInstant × ExecutionOccurrence),
      ∀ r ∈ (acceptRuns runs).accepted.values, ∃ os,
        historyOccurrencesOf r = .ok os ∧ os.mapM placed = .ok (ps r) := by
    choose! ps hps using haccepted
    exact ⟨ps, hps⟩
  obtain ⟨os, hos⟩ := Projector.mapM_ok fun r hr => (hps r hr).imp fun _ h => h.1
  obtain ⟨history, hbuilt⟩ := buildHistory_ok hos (flatten_placed hos hps)
  refine ⟨⟨⟨(acceptRuns runs).accepted, history, freezeBlobs (acceptRuns runs).blobs⟩,
    (acceptRuns runs).problems⟩, ?_⟩
  unfold assemble
  dsimp only
  rw [hbuilt]
  rfl

/-- The order of the runs does not matter: assembling them gives builds that answer alike, or
throws the same error; and it gives them when every occurrence has its place in the history. -/
theorem assemble_order_free {runs runs' : List ProjectedRun} (h : Distinguished runs)
    (hperm : runs.Perm runs') :
    ((∃ e, assemble runs = .error e ∧ assemble runs' = .error e) ∨
      ∃ b b', assemble runs = .ok b ∧ assemble runs' = .ok b' ∧ SameAnswers b b') ∧
    ((∀ r ∈ runs, Placeable r) →
      ∃ b b', assemble runs = .ok b ∧ assemble runs' = .ok b' ∧ SameAnswers b b') := by
  have halike : (∃ e, assemble runs = .error e ∧ assemble runs' = .error e) ∨
      ∃ b b', assemble runs = .ok b ∧ assemble runs' = .ok b' ∧ SameAnswers b b' := by
    obtain ⟨haccepted, hblobs, hproblems⟩ := acceptRuns_perm h hperm
    unfold assemble
    dsimp only
    rw [← haccepted, ← hblobs]
    cases buildHistory (acceptRuns runs).accepted.values with
    | error e => exact .inl ⟨e, rfl, rfl⟩
    | ok history =>
      refine .inr ⟨_, _, rfl, rfl, ⟨rfl, fun _ _ => rfl, fun _ _ _ => rfl, fun _ _ _ => rfl,
        fun _ => rfl, rfl, fun p => hproblems.mem_iff⟩⟩
  refine ⟨halike, fun hplaceable => ?_⟩
  rcases halike with ⟨e, he, -⟩ | hok
  · obtain ⟨b, hb⟩ := assemble_ok hplaceable
    rw [hb] at he
    cases he
  · exact hok

namespace Sample

/-- The one attempt at a test, at the given time. -/
def attemptAt (startedAt : Text) : Attempt where
  attemptId := txt "a1"
  attemptNumber := 1
  sessionId := txt "s"
  startedAt := startedAt
  test := ⟨txt "t1", some (txt "h1"), .stable, txt "pays", [], none, none, none⟩
  finished := true
  finishedAt := some startedAt
  status := some .passed
  rawStatus := none
  expectedStatus := none
  durationMs := none
  failures := []
  steps := []
  attachments := []

/-- A run of one test at the given time, with its attachments. -/
def testedAt (runId runDirectory startedAt : Text) (attachments : List AttachmentReference) :
    ProjectedRun :=
  { runAt runId runDirectory attachments with
    executions := [⟨txt "t1", some (txt "junit"), (attemptAt startedAt).test, [attemptAt startedAt],
      attemptAt startedAt, true, some .passed, false⟩] }

/-- A run in two directories, two runs of one test that disagree about the size of a blob, and a
third run of the test. -/
def conflictingRuns : List ProjectedRun :=
  [runAt (txt "r1") (txt "d1") [], runAt (txt "r1") (txt "d2") [],
    testedAt (txt "r2") (txt "d3") (txt "2026-01-02T00:00:00Z")
      [⟨txt "s", txt "a", none, txt "log", txt "text/plain", 3, txt "00"⟩],
    testedAt (txt "r3") (txt "d4") (txt "2026-01-01T00:00:00Z")
      [⟨txt "s", txt "a", none, txt "log", txt "text/plain", 4, txt "00"⟩],
    testedAt (txt "r4") (txt "d5") (txt "2026-01-01T00:00:00Z") []]

/-- Two runs of one test at a time that the schema accepts and the history does not. -/
def beyondRuns : List ProjectedRun :=
  [testedAt (txt "r1") (txt "d1") (txt "2026-01-01T24:59:60+01:00") [],
    testedAt (txt "r2") (txt "d2") (txt "2026-01-01T24:59:60+01:00") []]

instance decidablePlaceable (run : ProjectedRun) : Decidable (Placeable run) :=
  decidable_of_iff (∀ x ∈ run.executions, x.test.historicalId ≠ none → x.runnerName ≠ none →
    (x.attempts.head?.any fun first => (historyInstant first.startedAt).isOk) = true) <| by
  unfold Placeable
  refine forall₂_congr fun x _ => imp_congr_right fun _ => imp_congr_right fun _ => ?_
  cases x.attempts.head? with
  | none => simp
  | some first => cases hi : historyInstant first.startedAt <;> simp [Except.isOk, Except.toBool, hi]

end Sample

/-- Both orders give models. -/
theorem assemble_order_free_conflicts :
    ∃ b b', assemble Sample.conflictingRuns = .ok b ∧
      assemble Sample.conflictingRuns.reverse = .ok b' ∧ SameAnswers b b' :=
  (assemble_order_free (by unfold Distinguished; decide)
    (List.reverse_perm _).symm).2 (by decide)

/-- Runs with a start the history has no place for are not assembled in any order. -/
theorem assemble_beyond : ¬ ∀ runs runs' : List ProjectedRun, Distinguished runs →
    runs.Perm runs' →
    ∃ b b', assemble runs = .ok b ∧ assemble runs' = .ok b' ∧ SameAnswers b b' := by
  intro h
  have hthrows : (assemble Sample.beyondRuns).isOk = false := by decide
  obtain ⟨b, -, hb, -⟩ := h Sample.beyondRuns Sample.beyondRuns.reverse
    (by unfold Distinguished; decide) (List.reverse_perm _).symm
  rw [hb] at hthrows
  cases hthrows

end QeReport

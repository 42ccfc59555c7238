import QeReport.Postgres.Once

/-! # The index says what the source says

The rows of the query index of a run are written by three calls: an ingestion writes what the
offered directory projects to, a repair and a rebuild what the stored source projects to.  Every
row of a run, committed or not, has the index that its stored source derives (`Indexed`): for an
ingestion because the two projections agree, for the others because the source of a run does not
change while they work. -/

namespace QeReport

open Reclaim (RunKey)

namespace Archiving

/-! ### What every row says -/

open Slots

section sound
variable (rt : Runtime) (fs : FileSystem)
  (interpret : ℕ → ProjectedRun → Except Text DerivedQueryIndex)

/-- The run is the one that is archived, or the one that the stored source projects to. -/
def ProjectsTo (k : RunKey) (rows : RunRows) (run : ProjectedRun) : Prop :=
  ArchivedFrom rt interpret k rows run ∨ projectStored rt fs k rows = some run

/-- The index is of the run it stands under, and its rows are derived from its projection. -/
def IndexSound (k : RunKey) (rows : RunRows) : Prop :=
  ∀ i, rows.index = some i → (i.facts.projectId = k.projectId ∧ i.facts.runId = k.runId) ∧
    ∃ run derived, ProjectsTo rt fs interpret k rows run ∧
      interpret i.indexVersion run = .ok derived ∧ i.facts = derived.run ∧
      rows.occurrences = derived.occurrences.map (insertedRow k i.indexVersion)

variable {rt fs interpret} {k : RunKey} {rows rows' : RunRows} {run : ProjectedRun}
  {version : ℕ} {derived : DerivedQueryIndex}

/-- What is derived from the stored source is derived from the run it projects to. -/
theorem storedIndex_eq_some (h : storedIndex rt fs interpret version k rows = some derived) :
    ∃ run, projectStored rt fs k rows = some run ∧ interpret version run = .ok derived := by
  obtain ⟨run, hrun, hderived⟩ := Option.bind_eq_some_iff.mp h
  exact ⟨run, hrun, eq_ok_of_toOption hderived⟩

theorem replay_of_projectStored (h : projectStored rt fs k rows = some run) :
    ∃ v, replayStored rt fs (rows.stored k) = .ok v ∧
      projectRun k.projectId rows.head.sourceLocator v = .ok run := by
  obtain ⟨v, hreplayed, hprojected⟩ := Option.bind_eq_some_iff.mp h
  exact ⟨v, eq_ok_of_toOption hreplayed, eq_ok_of_toOption hprojected⟩

theorem ProjectsTo.extends (h : ProjectsTo rt fs interpret k rows run)
    (hextends : rows.Extends rows') : ProjectsTo rt fs interpret k rows' run := by
  refine h.imp (fun harchived => harchived.extends hextends) fun hstored => ?_
  rwa [projectStored, hextends.stored, hextends.head]

/-- The run that an index is derived from is the one of the stored source, when that replays. -/
theorem ProjectsTo.stored (h : ProjectsTo rt fs interpret k rows run) {v : ValidatedRun}
    (hreplay : replayStored rt fs (rows.stored k) = .ok v) :
    projectStored rt fs k rows = some run :=
  h.elim (fun harchived => harchived.projectStored hreplay) id

/-- The run that an index is derived from is the archived one. -/
theorem ProjectsTo.archived (h : ProjectsTo rt fs interpret k rows run) {run' : ProjectedRun}
    (harchived : ArchivedFrom rt interpret k rows run') : run = run' := by
  rcases h with hrun | hstored
  · exact hrun.unique harchived
  · obtain ⟨v, hreplay, -⟩ := replay_of_projectStored hstored
    exact Option.some.inj (hstored.symm.trans (harchived.projectStored hreplay))

/-- A sound index is the one that the stored source derives. -/
theorem IndexSound.fresh (h : IndexSound rt fs interpret k rows) {i : IndexHead}
    (hi : rows.index = some i)
    (hderived : storedIndex rt fs interpret i.indexVersion k rows = some derived) :
    i.facts = derived.run ∧
      rows.occurrences = derived.occurrences.map (insertedRow k i.indexVersion) := by
  obtain ⟨-, run, derived', hrun, hinterpreted, hfacts, hoccurrences⟩ := h i hi
  obtain ⟨run', hstored, hderived⟩ := storedIndex_eq_some hderived
  obtain ⟨v, hreplay, -⟩ := replay_of_projectStored hstored
  obtain rfl := Option.some.inj ((hrun.stored hreplay).symm.trans hstored)
  obtain rfl := Except.ok.inj (hinterpreted.symm.trans hderived)
  exact ⟨hfacts, hoccurrences⟩

end sound

/-- All rows of all runs, committed or not. -/
def AllRows {ι : Type} (P : RunKey → RunRows → Prop) (db : Db ι) : Prop :=
  ∀ k rows, (db.runs k).Has rows → P k rows

section rows
variable {ι : Type} [DecidableEq ι] {P : RunKey → RunRows → Prop} {db db' : Db ι} {p : ι}

omit [DecidableEq ι] in
theorem AllRows.of_runs (h : AllRows P db) (hruns : db'.runs = db.runs) : AllRows P db' := by
  intro k rows hrows
  rw [hruns] at hrows
  exact h k rows hrows

omit [DecidableEq ι] in
theorem AllRows.leave (h : AllRows P db) {k : RunKey} {row : Option RunRows}
    (hrow : ∀ rows, row = some rows → P k rows) : AllRows P (db.leave p k row) := by
  intro k' rows hrows
  by_cases hk : k' = k
  · subst hk
    rw [Db.leave_runs] at hrows
    rcases hrows.of_leave with hold | hnew
    · exact h k' rows hold
    · exact hrow rows hnew
  · rw [Db.leave_runs_of_ne db p row hk] at hrows
    exact h k' rows hrows

theorem AllRows.writes (h : AllRows P db) {k : RunKey} {rows rows' : RunRows}
    (hwrites : db.Writes p k rows rows' db') (hrow : P k rows → P k rows') : AllRows P db' := by
  rw [hwrites.left]
  refine h.leave fun r hr => ?_
  obtain rfl := Option.some.inj hr
  exact hrow (h k rows (Slot.has_of_seenBy hwrites.seen))

theorem AllRows.finish (h : AllRows P db) (commit : Bool) : AllRows P (db.finish p commit) :=
  fun k rows hrows => h k rows hrows.of_finish

theorem AllRows.deleteRuns (h : AllRows P db) (asOf : ℤ) (runs : List RunKey) :
    AllRows P (db.deleteRuns p asOf runs) := by
  intro k rows hrows
  rw [Db.deleteRuns] at hrows
  dsimp only at hrows
  split_ifs at hrows
  · rcases hrows.of_leave with hold | hnew
    · exact h k rows hold
    · cases hnew
  · exact h k rows hrows

end rows

section steps
variable {ι : Type} [DecidableEq ι]
variable {rt : Runtime} {fs : FileSystem}
  {interpret : ℕ → ProjectedRun → Except Text DerivedQueryIndex}

/-- What does not change the source nor the index keeps the index sound. -/
theorem IndexSound.extends {k : RunKey} {rows rows' : RunRows}
    (h : IndexSound rt fs interpret k rows) (hextends : rows.Extends rows')
    (hindex : rows'.index = rows.index) (hoccurrences : rows'.occurrences = rows.occurrences) :
    IndexSound rt fs interpret k rows' := by
  intro i hi
  obtain ⟨hkey, run, derived, hrun, hinterpreted, hfacts, hrows⟩ := h i (hindex ▸ hi)
  exact ⟨hkey, run, derived, hrun.extends hextends, hinterpreted, hfacts, hoccurrences.trans hrows⟩

theorem IndexSound.retained {k : RunKey} {rows : RunRows} {expiresAt : ℤ}
    (h : IndexSound rt fs interpret k rows) :
    IndexSound rt fs interpret k (recordRetention expiresAt rows).1 := by
  refine h.extends (RunRows.recordRetention_extends expiresAt rows) ?_ ?_
  · unfold recordRetention
    split <;> rfl
  · unfold recordRetention
    split <;> rfl

theorem indexSound_of_none {k : RunKey} {rows : RunRows} (h : rows.index = none) :
    IndexSound rt fs interpret k rows := by
  intro i hi
  rw [h] at hi
  cases hi

/-- An index that is replaced by one derived from the projection is sound. -/
theorem IndexSound.replaced {k : RunKey} {rows rows' : RunRows} {version : ℕ}
    {index : DerivedQueryIndex} {fingerprint : Text} {run : ProjectedRun}
    (h : replaceQueryIndex k version index fingerprint rows = .ok rows')
    (hrun : ProjectsTo rt fs interpret k rows run) (hinterpreted : interpret version run = .ok index) :
    IndexSound rt fs interpret k rows' := by
  intro i hi
  have hkey := RunRows.replaceQueryIndex_key h
  have hextends := RunRows.replaceQueryIndex_extends h
  rw [RunRows.replaceQueryIndex_eq_ok h] at hi
  obtain rfl := Option.some.inj hi
  exact ⟨hkey, run, index, hrun.extends hextends, hinterpreted, rfl,
    by rw [RunRows.replaceQueryIndex_eq_ok h]⟩

/-- Every statement of an ingestion keeps the indexes sound. -/
theorem PersistStep.sound {s : State ι} {p : ι} {o : Offer} {db : Db ι} {pc pc' : Persist}
    (h : Open rt fs interpret s) (hp : s.calls p = .persist o pc) (hoffered : Offered rt interpret o)
    (hsound : AllRows (IndexSound rt fs interpret) s.db)
    (hstep : PersistStep rt fs interpret p o s.db pc db pc') :
    AllRows (IndexSound rt fs interpret) db := by
  have hknows := h.persist p o pc hp
  -- the rows that an insert sees are the ones it left
  have hinserting : ∀ {n lines index rows rows'}, Inserting p o (s.db.runs o.key) n lines index →
      s.db.Writes p o.key rows rows' db →
      rows.head = o.head n ∧ rows.lines = lines ∧ rows.index = index := by
    intro n lines index rows rows' hinserting hwrites
    obtain ⟨-, r, hr, hhead, hlines, hindex⟩ := hinserting
    have hseen := hwrites.seen
    rw [Slot.seenBy_of_held hr] at hseen
    obtain rfl := Option.some.inj hseen
    exact ⟨hhead, hlines, hindex⟩
  cases hstep with
  | locks hwrites => exact hsound.writes hwrites id
  | claims =>
      refine AllRows.leave (hsound.of_runs rfl) fun rows hrows => ?_
      rw [← Option.some.inj hrows]
      exact indexSound_of_none rfl
  | records hrecords => exact hsound.of_runs hrecords.runs
  | writes hwrites =>
      exact hsound.writes hwrites fun _ => indexSound_of_none (hinserting hknows hwrites).2.2
  | relatesAll hwrites =>
      exact hsound.writes hwrites fun hrows =>
        hrows.extends (RunRows.relateBlobs_extends _ _) rfl rfl
  | retainsNew hwrites => exact hsound.writes hwrites fun hrows => hrows.retained
  | indexesNew hreplaced hwrites =>
      obtain ⟨hhead, hlines, -⟩ := hinserting hknows hwrites
      refine hsound.writes hwrites fun _ => ?_
      obtain ⟨run, hrun, hinterpreted⟩ := hoffered.archivedFrom rfl hhead hlines
      exact .replaced hreplaced (.inl hrun) hinterpreted
  | inserts | insertsUnheard => exact hsound.finish true
  | holds hwrites => exact hsound.writes hwrites id
  | recordsMissing hrecords => exact hsound.of_runs hrecords.runs
  | relatesMissing hwrites =>
      exact hsound.writes hwrites fun hrows =>
        hrows.extends (RunRows.relateBlobs_extends _ _) rfl rfl
  | retains hwrites => exact hsound.writes hwrites fun hrows => hrows.retained
  | repairs hrepaired hwrites =>
      refine hsound.writes hwrites fun hrows => ?_
      rcases RunRows.repairStoredIndex_cases hrepaired with ⟨rfl, -⟩ | ⟨derived, hderived, hreplaced, -⟩
      · exact hrows
      · obtain ⟨run, hrun, hinterpreted⟩ := storedIndex_eq_some hderived
        exact .replaced hreplaced (.inr hrun) hinterpreted
  | commits | commitsUnheard => exact hsound.finish true
  | fails => exact hsound.finish false
  | _ => exact hsound.of_runs rfl

theorem RebuildStep.sound {s : State ι} {p : ι} {r : RebuildRequest} {db : Db ι} {pc pc' : Rebuild}
    (h : Open rt fs interpret s) (hp : s.calls p = .rebuild r pc)
    (hsound : AllRows (IndexSound rt fs interpret) s.db)
    (hstep : RebuildStep rt fs interpret p r s.db pc db pc') :
    AllRows (IndexSound rt fs interpret) db := by
  have hknows := h.rebuild p r pc hp
  have hshared : (s.calls p).shared = true := by
    rw [hp]
    exact hstep.isOpen
  cases hstep with
  | locks hwrites => exact hsound.writes hwrites id
  | replaces hreplaced hwrites =>
      refine hsound.writes hwrites fun _ => ?_
      -- the rows that are replaced extend the ones that were read
      obtain ⟨rows, hrows, hread⟩ := hknows
      obtain ⟨rows', hrows', hextends⟩ := h.seen hshared hwrites.seen rows hrows
      obtain rfl := Option.some.inj hrows'
      obtain ⟨run, hrun, hinterpreted⟩ := storedIndex_eq_some hread
      exact .replaced hreplaced ((show ProjectsTo rt fs interpret _ rows run from .inr hrun).extends
        hextends) hinterpreted
  | commits | commitsUnheard => exact hsound.finish true
  | cannotLock => exact hsound.finish false
  | cannotReplace => exact hsound.finish false
  | cannotCommit => exact hsound.finish false
  | fails => exact hsound.finish false
  | _ => exact hsound.of_runs rfl

theorem PassStep.sound {p : ι} {m : PassRequest} {db db' : Db ι} {pc pc' : Pass}
    {P : RunKey → RunRows → Prop} (h : AllRows P db) (hstep : PassStep p m db pc db' pc') :
    AllRows P db' := by
  cases hstep with
  | deletes => exact h.deleteRuns m.asOf _
  | commits => exact h.finish true
  | batchFails => exact h.finish false
  | commitFails => exact h.finish false
  | fails => exact h.finish false
  | _ => exact h.of_runs rfl

/-! ### Runs -/

variable (rt fs interpret) in
/-- What holds of the indexes and the offers between any two statements. -/
structure Indexed (s : State ι) : Prop where
  isOpen : Open rt fs interpret s
  rows : AllRows (IndexSound rt fs interpret) s.db
  offers : ∀ p o pc, s.calls p = .persist o pc → Offered rt interpret o

/-- An archive without a run. -/
def Db.Empty (db : Db ι) : Prop := ∀ k, (db.runs k).committed = none

omit [DecidableEq ι] in
theorem Quiet.indexed {s : State ι} (h : Quiet s) (hempty : s.db.Empty) :
    Indexed rt fs interpret s := by
  refine ⟨h.isOpen, fun k rows hrows => ?_, fun p o pc hp => ?_⟩
  · rcases hrows with hcommitted | ⟨q, hheld⟩
    · rw [hempty k] at hcommitted
      cases hcommitted
    · rw [h.runs k] at hheld
      cases hheld
  · rw [h.calls] at hp
    cases hp

theorem Step.indexed {s s' : State ι} (h : Indexed rt fs interpret s)
    (hstep : Step rt fs interpret s s') : Indexed rt fs interpret s' := by
  have hothers : ∀ {p : ι} {db : Db ι} {c : Call}, (∀ o pc, c = .persist o pc → Offered rt interpret o) →
      ∀ q o pc, (s.to p db c).calls q = .persist o pc → Offered rt interpret o := by
    intro p db c hc q o pc hq
    by_cases hqp : q = p
    · rw [hqp, s.to_self] at hq
      exact hc o pc hq
    · rw [s.to_of_ne db c hqp] at hq
      exact h.offers q o pc hq
  refine ⟨hstep.isOpen h.isOpen, ?_, ?_⟩
  · cases hstep with
    | ingest | reindex | sweep => exact h.rows
    | persist hp hstep => exact hstep.sound h.isOpen hp (h.offers _ _ _ hp) h.rows
    | rebuild hp hstep => exact hstep.sound h.isOpen hp h.rows
    | maintain hp hstep => exact hstep.sound h.rows
    | sever => exact h.rows.finish false
    | late _ hstep => exact h.rows.of_runs hstep.runs
  · cases hstep with
    | ingest hp hoffered =>
        refine hothers fun o pc hc => ?_
        cases hc
        exact hoffered
    | persist hp =>
        refine hothers fun o pc hc => ?_
        cases hc
        exact h.offers _ _ _ hp
    | _ => exact hothers fun o pc hc => by cases hc

theorem indexed_of_run {s₀ s : State ι} (hquiet : Quiet s₀) (hempty : s₀.db.Empty)
    (h : Relation.ReflTransGen (Step rt fs interpret) s₀ s) : Indexed rt fs interpret s := by
  induction h with
  | refl => exact hquiet.indexed hempty
  | tail _ hstep ih => exact hstep.indexed ih

end steps

end Archiving

end QeReport

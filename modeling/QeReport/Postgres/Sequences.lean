import QeReport.Postgres.Freshness

/-! # The order of the archive

A run gets its ingestion sequence from a counter when its identity is claimed, and keeps it: in
every state each number belongs to at most one run, committed or not (`sequenced_of_run`).  Numbers
that were drawn in vain are left out. -/

namespace QeReport

open Reclaim (RunKey)

namespace Archiving

/-- The number of the rows has been drawn, and for the run they stand under. -/
def Drawn (owner : ℕ → RunKey) (next : ℕ) (k : RunKey) (rows : RunRows) : Prop :=
  rows.head.ingestionSequence < next ∧ owner rows.head.ingestionSequence = k

/-- Every number belongs to one run. -/
def Db.Sequenced {ι : Type} (db : Db ι) : Prop :=
  ∃ owner, AllRows (Drawn owner db.sequence) db

section drawn
variable {owner : ℕ → RunKey} {next : ℕ} {k : RunKey} {rows rows' : RunRows}

theorem Drawn.of_head (h : Drawn owner next k rows) (hhead : rows'.head = rows.head) :
    Drawn owner next k rows' := by
  rw [Drawn, hhead]
  exact h

theorem Drawn.claim (h : Drawn owner next k rows) (claimed : RunKey) :
    Drawn (Function.update owner next claimed) (next + 1) k rows := by
  refine ⟨Nat.lt_succ_of_lt h.1, ?_⟩
  rw [Function.update_of_ne h.1.ne]
  exact h.2

end drawn

section steps
variable {ι : Type} [DecidableEq ι] {rt : Runtime} {fs : FileSystem}
  {interpret : ℕ → ProjectedRun → Except Text DerivedQueryIndex} {db db' : Db ι} {p : ι}

omit [DecidableEq ι] in
theorem Db.Sequenced.of_runs (h : db.Sequenced) (hruns : db'.runs = db.runs)
    (hsequence : db'.sequence = db.sequence) : db'.Sequenced := by
  obtain ⟨owner, hdrawn⟩ := h
  refine ⟨owner, ?_⟩
  rw [hsequence]
  exact hdrawn.of_runs hruns

/-- A statement that keeps the head of the rows it writes. -/
theorem Db.Sequenced.writes (h : db.Sequenced) {k : RunKey} {rows rows' : RunRows}
    (hwrites : db.Writes p k rows rows' db') (hhead : rows'.head = rows.head) : db'.Sequenced := by
  obtain ⟨owner, hdrawn⟩ := h
  refine ⟨owner, ?_⟩
  have hsequence : db'.sequence = db.sequence := by
    rw [hwrites.left]
    rfl
  rw [hsequence]
  exact hdrawn.writes hwrites fun hrows => hrows.of_head hhead

theorem Db.Sequenced.finish (h : db.Sequenced) (commit : Bool) : (db.finish p commit).Sequenced := by
  obtain ⟨owner, hdrawn⟩ := h
  exact ⟨owner, hdrawn.finish commit⟩

theorem PersistStep.sequenced {o : Offer} {pc pc' : Persist} (h : db.Sequenced)
    (hstep : PersistStep rt fs interpret p o db pc db' pc') : db'.Sequenced := by
  cases hstep with
  | claims =>
      obtain ⟨owner, hdrawn⟩ := h
      -- the number that is drawn has no owner yet
      refine ⟨Function.update owner db.sequence o.key, AllRows.leave ?_ fun rows hrows => ?_⟩
      · exact fun k rows hrows => (hdrawn k rows hrows).claim o.key
      · rw [← Option.some.inj hrows]
        exact ⟨Nat.lt_succ_self _, Function.update_self ..⟩
  | loses =>
      obtain ⟨owner, hdrawn⟩ := h
      exact ⟨Function.update owner db.sequence o.key,
        fun k rows hrows => (hdrawn k rows hrows).claim o.key⟩
  | locks hwrites => exact h.writes hwrites rfl
  | holds hwrites => exact h.writes hwrites rfl
  | writes hwrites => exact h.writes hwrites rfl
  | relatesAll hwrites => exact h.writes hwrites rfl
  | relatesMissing hwrites => exact h.writes hwrites rfl
  | retainsNew hwrites => exact h.writes hwrites (RunRows.recordRetention_extends _ _).head
  | retains hwrites => exact h.writes hwrites (RunRows.recordRetention_extends _ _).head
  | indexesNew hreplaced hwrites =>
      exact h.writes hwrites (RunRows.replaceQueryIndex_extends hreplaced).head
  | repairs hrepaired hwrites =>
      exact h.writes hwrites (RunRows.repairStoredIndex_extends hrepaired).head
  | records hrecords => exact h.of_runs hrecords.runs (by rw [hrecords.inserted]; rfl)
  | recordsMissing hrecords => exact h.of_runs hrecords.runs (by rw [hrecords.inserted]; rfl)
  | inserts | insertsUnheard => exact h.finish true
  | commits | commitsUnheard => exact h.finish true
  | fails => exact h.finish false
  | _ => exact h.of_runs rfl rfl

theorem RebuildStep.sequenced {r : RebuildRequest} {pc pc' : Rebuild} (h : db.Sequenced)
    (hstep : RebuildStep rt fs interpret p r db pc db' pc') : db'.Sequenced := by
  cases hstep with
  | locks hwrites => exact h.writes hwrites rfl
  | replaces hreplaced hwrites =>
      exact h.writes hwrites (RunRows.replaceQueryIndex_extends hreplaced).head
  | commits | commitsUnheard => exact h.finish true
  | cannotLock => exact h.finish false
  | cannotReplace => exact h.finish false
  | cannotCommit => exact h.finish false
  | fails => exact h.finish false
  | _ => exact h.of_runs rfl rfl

theorem PassStep.sequenced {m : PassRequest} {pc pc' : Pass} (h : db.Sequenced)
    (hstep : PassStep p m db pc db' pc') : db'.Sequenced := by
  have hsequence : db'.sequence = db.sequence := by
    cases hstep <;> rfl
  obtain ⟨owner, hdrawn⟩ := h
  refine ⟨owner, ?_⟩
  rw [hsequence]
  exact hstep.sound hdrawn

theorem Step.sequenced {s s' : State ι} (h : s.db.Sequenced) (hstep : Step rt fs interpret s s') :
    s'.db.Sequenced := by
  cases hstep with
  | ingest | reindex | sweep => exact h
  | persist _ hstep => exact hstep.sequenced h
  | rebuild _ hstep => exact hstep.sequenced h
  | maintain _ hstep => exact hstep.sequenced h
  | sever => exact h.finish false
  | late _ hstep => exact h.of_runs hstep.runs (by cases hstep <;> rfl)

theorem sequenced_of_run {s₀ s : State ι} (hquiet : Quiet s₀) (hempty : s₀.db.Empty)
    (h : Relation.ReflTransGen (Step rt fs interpret) s₀ s) : s.db.Sequenced := by
  induction h with
  | refl =>
      refine ⟨fun _ => ⟨[], []⟩, fun k rows hrows => ?_⟩
      rcases hrows with hcommitted | ⟨q, hheld⟩
      · rw [hempty k] at hcommitted
        cases hcommitted
      · rw [hquiet.runs k] at hheld
        cases hheld
  | tail _ hstep ih => exact hstep.sequenced ih

omit [DecidableEq ι] in
/-- No two archived runs have one number. -/
theorem Db.Sequenced.injective (h : db.Sequenced) {k k' : RunKey} {rows rows' : RunRows}
    (hrows : (db.runs k).committed = some rows) (hrows' : (db.runs k').committed = some rows')
    (hsame : rows.head.ingestionSequence = rows'.head.ingestionSequence) : k = k' := by
  obtain ⟨owner, hdrawn⟩ := h
  rw [← (hdrawn k rows (.inl hrows)).2, hsame, (hdrawn k' rows' (.inl hrows')).2]

end steps

end Archiving

end QeReport

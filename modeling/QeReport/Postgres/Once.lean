import QeReport.Postgres.Offers
import QeReport.Postgres.Writers

/-! # One archive for one identity

Ingestions of one identity run beside each other and beside rebuilds, with no pass in between.  At
most one of them answers `inserted`; every other one that returns is answered by whether its
content is the archived one; what is archived is never changed or lost (`archived_once`).  Rows
change only with a commit that answers `inserted` or `already_present`, that ends the rebuild of a
run, or whose answer is lost (`WriterStep.commits`), so that a conflict changes none. -/

namespace QeReport

open Reclaim (RunKey)

namespace Archiving

open Slots

/-- The answer is the one that the archived rows give. -/
def PersistResult.Right (rt : Runtime) (o : Offer) (rows : RunRows) : PersistResult → Prop
  | .inserted runId n =>
      runId = o.archive.runId ∧ rows.head = o.head n ∧ rows.lines = o.archive.lines
  | .alreadyPresent runId n _ _ _ =>
      runId = o.archive.runId ∧ Agrees rt o rows ⟨o.archive.contentFingerprint, n⟩
  | .conflict runId stored offered => runId = o.archive.runId ∧
      (rows.fingerprintFor rt o.archive.fingerprintVersion).fingerprint = stored ∧
      offered = o.archive.contentFingerprint ∧ stored ≠ offered

/-- The call has inserted the run, or holds it to insert it. -/
def Persist.claimed : Persist → Bool
  | .recording _ | .writing _ | .relatingAll _ | .retainingNew _ | .indexingNew _
  | .committingNew _ | .answered (.inserted ..) => true
  | _ => false

section once
variable {ι : Type} [DecidableEq ι]
variable {rt : Runtime} {fs : FileSystem}
  {interpret : ℕ → ProjectedRun → Except Text DerivedQueryIndex}

variable (rt fs interpret) in
/-- A step with no maintenance pass before or after it. -/
structure WriterStep (s s' : State ι) : Prop where
  step : Step rt fs interpret s s'
  before : ∀ p, (s.calls p).exclusive = false
  after : ∀ p, (s'.calls p).exclusive = false

/-! ### Commits -/

/-- The call commits. -/
inductive Commits : Call → Call → Prop where
  | inserted {o : Offer} {n : ℕ} :
      Commits (.persist o (.committingNew n))
        (.persist o (.answered (.inserted o.archive.runId n)))
  | present {o : Offer} {stored : StoredFingerprint} {added : ℕ} {retentionAdded rebuilt : Bool} :
      Commits (.persist o (.committing stored added retentionAdded rebuilt))
        (.persist o (.answered (.alreadyPresent o.archive.runId stored.ingestionSequence added
          retentionAdded rebuilt)))
  | rebuilt {r : RebuildRequest} {runId : Text} {rest : List (Text × Text)} {result : RebuildResult} :
      Commits (.rebuild r (.committing runId rest result))
        (.rebuild r (.reading rest { result with rebuilt := result.rebuilt + 1 }))
  -- the answer of the `COMMIT` is lost
  | insertedUnheard {o : Offer} {n : ℕ} :
      Commits (.persist o (.committingNew n)) (.persist o .failed)
  | presentUnheard {o : Offer} {stored : StoredFingerprint} {added : ℕ}
      {retentionAdded rebuilt : Bool} :
      Commits (.persist o (.committing stored added retentionAdded rebuilt)) (.persist o .failed)
  | rebuiltUnheard {r : RebuildRequest} {runId : Text} {rest : List (Text × Text)}
      {result : RebuildResult} : Commits (.rebuild r (.committing runId rest result))
        (.rebuild r (.reading rest { result with problems := result.problems ++ [runId] }))

/-- What is committed is the same. -/
structure SameRows (db db' : Db ι) : Prop where
  runs : ∀ k, (db'.runs k).committed = (db.runs k).committed
  blobs : ∀ h, (db'.blobs h).committed = (db.blobs h).committed

section statements
variable {db db' : Db ι} {p : ι}

omit [DecidableEq ι] in
theorem SameRows.refl (db : Db ι) : SameRows db db := ⟨fun _ => rfl, fun _ => rfl⟩

omit [DecidableEq ι] in
theorem sameRows_leave (db : Db ι) (p : ι) (k : RunKey) (row : Option RunRows) :
    SameRows db (db.leave p k row) := by
  refine ⟨fun k' => ?_, fun _ => rfl⟩
  by_cases hk : k' = k
  · subst hk
    rw [Db.leave_runs]
    rfl
  · rw [Db.leave_runs_of_ne db p row hk]

theorem Db.Writes.sameRows {k : RunKey} {rows rows' : RunRows} (h : db.Writes p k rows rows' db') :
    SameRows db db' := by
  rw [h.left]
  exact sameRows_leave db p k _

theorem Db.RecordsBlobs.sameRows {blobs : List RequiredBlob} (h : db.RecordsBlobs p blobs db') :
    SameRows db db' := by
  refine ⟨fun k => by rw [h.runs], fun hash => ?_⟩
  rw [h.inserted, Db.insertBlobs]
  dsimp only
  split <;> rfl

theorem sameRows_rollback (db : Db ι) (p : ι) : SameRows db (db.finish p false) :=
  ⟨fun k => Slot.rollback_committed p (db.runs k), fun h => Slot.rollback_committed p (db.blobs h)⟩

/-- An ingestion changes nothing but by its commit. -/
theorem PersistStep.sameRows {o : Offer} {pc pc' : Persist}
    (h : PersistStep rt fs interpret p o db pc db' pc') :
    Commits (.persist o pc) (.persist o pc') ∨ SameRows db db' := by
  cases h with
  | inserts => exact .inl .inserted
  | insertsUnheard => exact .inl .insertedUnheard
  | commits => exact .inl .present
  | commitsUnheard => exact .inl .presentUnheard
  | locks hwrites => exact .inr hwrites.sameRows
  | claims =>
      exact .inr ⟨(sameRows_leave { db with sequence := db.sequence + 1 } p o.key _).runs, fun _ => rfl⟩
  | records hrecords => exact .inr hrecords.sameRows
  | writes hwrites => exact .inr hwrites.sameRows
  | relatesAll hwrites => exact .inr hwrites.sameRows
  | retainsNew hwrites => exact .inr hwrites.sameRows
  | indexesNew _ hwrites => exact .inr hwrites.sameRows
  | holds hwrites => exact .inr hwrites.sameRows
  | recordsMissing hrecords => exact .inr hrecords.sameRows
  | relatesMissing hwrites => exact .inr hwrites.sameRows
  | retains hwrites => exact .inr hwrites.sameRows
  | repairs _ hwrites => exact .inr hwrites.sameRows
  | fails => exact .inr (sameRows_rollback db p)
  | _ => exact .inr ⟨fun _ => rfl, fun _ => rfl⟩

theorem RebuildStep.sameRows {r : RebuildRequest} {pc pc' : Rebuild}
    (h : RebuildStep rt fs interpret p r db pc db' pc') :
    Commits (.rebuild r pc) (.rebuild r pc') ∨ SameRows db db' := by
  cases h with
  | commits => exact .inl .rebuilt
  | commitsUnheard => exact .inl .rebuiltUnheard
  | locks hwrites => exact .inr hwrites.sameRows
  | replaces _ hwrites => exact .inr hwrites.sameRows
  | cannotLock => exact .inr (sameRows_rollback db p)
  | cannotReplace => exact .inr (sameRows_rollback db p)
  | cannotCommit => exact .inr (sameRows_rollback db p)
  | fails => exact .inr (sameRows_rollback db p)
  | _ => exact .inr ⟨fun _ => rfl, fun _ => rfl⟩

omit [DecidableEq ι] in
theorem LateStep.sameRows {late late' : Late} (h : LateStep db late db' late') :
    SameRows db db' := by
  refine ⟨fun k => ?_, fun hash => ?_⟩
  · rw [h.runs]
  · rw [h.blobs]

end statements

/-- Rows change only with a commit. -/
theorem WriterStep.commits {s s' : State ι} (h : WriterStep rt fs interpret s s') :
    (∃ p, Commits (s.calls p) (s'.calls p)) ∨ SameRows s.db s'.db := by
  obtain ⟨hstep, hbefore, -⟩ := h
  cases hstep with
  | ingest => exact .inr (.refl _)
  | reindex => exact .inr (.refl _)
  | sweep => exact .inr (.refl _)
  | @persist p o pc pc' db hp hstep =>
      rcases hstep.sameRows with hcommits | hsame
      · refine .inl ⟨p, ?_⟩
        rw [hp, State.to_self]
        exact hcommits
      · exact .inr hsame
  | @rebuild p r pc pc' db hp hstep =>
      rcases hstep.sameRows with hcommits | hsame
      · refine .inl ⟨p, ?_⟩
        rw [hp, State.to_self]
        exact hcommits
      · exact .inr hsame
  | @maintain p m pc pc' db hp hstep =>
      have hnone := hbefore p
      rw [hp] at hnone
      exact absurd hstep.isOpen (Bool.eq_false_iff.mp hnone)
  | sever => exact .inr (sameRows_rollback _ _)
  | late _ hstep => exact .inr hstep.sameRows

/-! ### Answers -/

theorem PersistResult.Right.extends {o : Offer} {rows rows' : RunRows} {r : PersistResult}
    (h : r.Right rt o rows) (hextends : rows.Extends rows') : r.Right rt o rows' := by
  cases r with
  | inserted runId n => exact ⟨h.1, hextends.head.trans h.2.1, hextends.lines.trans h.2.2⟩
  | alreadyPresent runId n _ _ _ => exact ⟨h.1, h.2.extends hextends⟩
  | conflict runId stored offered =>
      refine ⟨h.1, ?_, h.2.2⟩
      rw [hextends.fingerprintFor]
      exact h.2.1

omit [DecidableEq ι] in
/-- A look that finds other content is answered by it. -/
theorem right_compare {o : Offer} {slot : Slot ι RunRows} {stored : StoredFingerprint}
    {next : StoredFingerprint → Persist} {rows : RunRows} (hrows : slot.committed = some rows)
    (hfound : rows.fingerprintFor rt o.archive.fingerprintVersion = stored) {r : PersistResult}
    (h : o.compare stored next = .answered r) (hnext : next stored ≠ .answered r) :
    ∃ rows, slot.committed = some rows ∧ r.Right rt o rows := by
  unfold Offer.compare at h
  split_ifs at h with hsame
  · cases h
    exact ⟨rows, hrows, rfl, by rw [hfound], rfl, hsame⟩
  · exact absurd h hnext

/-- An answer is right when it is given. -/
theorem PersistStep.right {s : State ι} {p : ι} {o : Offer} {db : Db ι} {pc : Persist}
    {r : PersistResult} (h : Open rt fs interpret s) (hp : s.calls p = .persist o pc)
    (hstep : PersistStep rt fs interpret p o s.db pc db (.answered r)) :
    ∃ rows, (db.runs o.key).committed = some rows ∧ r.Right rt o rows := by
  have hknows := h.persist p o pc hp
  generalize hpc : Persist.answered r = pc' at hstep
  cases hstep with
  | looks hrows hversion =>
      exact right_compare hrows (fingerprintFor_same hversion) hpc.symm (by simp)
  | looksLost hrows hversion =>
      exact right_compare hrows (fingerprintFor_same hversion) hpc.symm (by simp)
  | recomputes hlines =>
      obtain ⟨rows, hrows, rfl, hversion⟩ := hknows
      rw [hrows] at hlines
      subst hlines
      exact right_compare hrows (fingerprintFor_older hversion) hpc.symm (by simp)
  | recomputesLost hlines =>
      obtain ⟨rows, hrows, rfl, hversion⟩ := hknows
      rw [hrows] at hlines
      subst hlines
      exact right_compare hrows (fingerprintFor_older hversion) hpc.symm (by simp)
  | relates => split_ifs at hpc
  | surveys => split_ifs at hpc
  | inserts =>
      cases hpc
      obtain ⟨hnone, rows, hheld, hhead, hlines, -⟩ := hknows
      refine ⟨rows, ?_, rfl, hhead, hlines⟩
      change ((s.db.runs o.key).finish p true).committed = _
      rw [Slot.finish_of_held true hheld]
      rfl
  | @commits stored =>
      cases hpc
      obtain ⟨rows₀, hrows₀, hagrees⟩ := hknows.committed
      obtain ⟨rows, hheld⟩ := hknows.held
      have hextends : rows₀.Extends rows := by
        have hshared : (s.calls p).shared = true := by
          rw [hp]
          rfl
        obtain ⟨rows', hrows', hextends⟩ := (h.slots o.key p _ hheld hshared).1 rows₀ hrows₀
        rwa [← Option.some.inj hrows'] at hextends
      refine ⟨rows, ?_, rfl, ?_⟩
      · change ((s.db.runs o.key).finish p true).committed = _
        rw [Slot.finish_of_held true hheld]
        rfl
      · have hstored : (⟨o.archive.contentFingerprint, stored.ingestionSequence⟩ : StoredFingerprint) =
            stored := by rw [← hagrees.offered]
        rw [hstored]
        exact hagrees.extends hextends
  | _ => cases hpc

/-- What holds of the answers, as long as no pass runs. -/
structure Once (rt : Runtime) (s : State ι) : Prop where
  answers : ∀ p o r, s.calls p = .persist o (.answered r) →
    ∃ rows, (s.db.runs o.key).committed = some rows ∧ r.Right rt o rows
  alone : ∀ p q o o' pc pc', s.calls p = .persist o pc → s.calls q = .persist o' pc' →
    o.key = o'.key → pc.claimed = true → pc'.claimed = true → p = q

omit [DecidableEq ι] in
theorem Quiet.once {s : State ι} (h : Quiet s) : Once rt s := by
  refine ⟨fun p o r hp => ?_, fun p q o o' pc pc' hp => ?_⟩
  · rw [h.calls] at hp
    cases hp
  · rw [h.calls] at hp
    cases hp

/-- An ingestion claims a run with the insert, which finds none. -/
theorem PersistStep.claimed {p : ι} {o : Offer} {db db' : Db ι} {pc pc' : Persist}
    (h : PersistStep rt fs interpret p o db pc db' pc') (hclaimed : pc'.claimed = true) :
    pc.claimed = true ∨ (db.runs o.key).FreeFor p ∧ (db.runs o.key).committed = none := by
  cases h with
  | claims hfree hnone => exact .inr ⟨hfree, hnone⟩
  | looks | recomputes | looksLost | recomputesLost =>
      unfold Offer.compare at hclaimed
      split_ifs at hclaimed <;> cases hclaimed
  | relates => split_ifs at hclaimed <;> cases hclaimed
  | surveys => split_ifs at hclaimed <;> cases hclaimed
  | records | writes | relatesAll | retainsNew | indexesNew | inserts => exact .inl rfl
  | _ => cases hclaimed

omit [DecidableEq ι] in
/-- A run that is claimed is held by the claimant, or archived. -/
theorem Once.claimed_cases {s : State ι} (h : Open rt fs interpret s) (honce : Once rt s) {q : ι}
    {o : Offer} {pc : Persist} (hq : s.calls q = .persist o pc) (hclaimed : pc.claimed = true) :
    (s.db.runs o.key).HeldBy q ∨ (s.db.runs o.key).committed ≠ none := by
  have hknows := h.persist q o pc hq
  have hheld : ∀ {n lines index}, Inserting q o (s.db.runs o.key) n lines index →
      (s.db.runs o.key).HeldBy q := fun hinserting => by
    obtain ⟨-, rows, hrows, -⟩ := hinserting
    exact ⟨_, hrows⟩
  cases pc with
  | recording | writing | relatingAll | retainingNew | indexingNew | committingNew =>
      exact .inl (hheld hknows)
  | answered r =>
      obtain ⟨rows, hrows, -⟩ := honce.answers q o r hq
      rw [hrows]
      exact .inr (Option.some_ne_none rows)
  | _ => cases hclaimed

theorem Once.to {s : State ι} (h : Open rt fs interpret s) (honce : Once rt s) {p : ι} {db : Db ι}
    {c : Call} (hgrown : ∀ k, Grown (s.db.runs k).committed (db.runs k).committed)
    (hanswers : ∀ o r, c = .persist o (.answered r) →
      ∃ rows, (db.runs o.key).committed = some rows ∧ r.Right rt o rows)
    (hclaims : ∀ o pc, c = .persist o pc → pc.claimed = true →
      (∃ pc₀, s.calls p = .persist o pc₀ ∧ pc₀.claimed = true) ∨
        (s.db.runs o.key).FreeFor p ∧ (s.db.runs o.key).committed = none) :
    Once rt (s.to p db c) := by
  -- a claim of `p` and one of another call on the same run
  have hapart : ∀ q o o' pc pc', q ≠ p → c = .persist o pc → s.calls q = .persist o' pc' →
      o.key = o'.key → pc.claimed = true → pc'.claimed = true → False := by
    intro q o o' pc pc' hne hc hq hkey hclaimed hclaimed'
    rcases hclaims o pc hc hclaimed with ⟨pc₀, hp, hclaimed₀⟩ | ⟨hfree, hnone⟩
    · exact hne (honce.alone p q o o' pc₀ pc' hp hq hkey hclaimed₀ hclaimed').symm
    · rw [hkey] at hfree hnone
      rcases honce.claimed_cases h hq hclaimed' with ⟨row, hrow⟩ | hsome
      · exact hne (hfree q row hrow)
      · exact hsome hnone
  refine ⟨fun q o r hq => ?_, fun a b o o' pc pc' ha hb hkey hclaimed hclaimed' => ?_⟩
  · by_cases hqp : q = p
    · rw [hqp, s.to_self] at hq
      exact hanswers o r hq
    · rw [s.to_of_ne db c hqp] at hq
      obtain ⟨rows, hrows, hright⟩ := honce.answers q o r hq
      obtain ⟨rows', hrows', hextends⟩ := hgrown _ rows hrows
      exact ⟨rows', hrows', hright.extends hextends⟩
  · by_cases hap : a = p
    · by_cases hbp : b = p
      · rw [hap, hbp]
      · rw [hap, s.to_self] at ha
        rw [s.to_of_ne db c hbp] at hb
        exact (hapart b o o' pc pc' hbp ha hb hkey hclaimed hclaimed').elim
    · rw [s.to_of_ne db c hap] at ha
      by_cases hbp : b = p
      · rw [hbp, s.to_self] at hb
        exact (hapart a o' o pc' pc hap hb ha hkey.symm hclaimed' hclaimed).elim
      · rw [s.to_of_ne db c hbp] at hb
        exact honce.alone a b o o' pc pc' ha hb hkey hclaimed hclaimed'

theorem WriterStep.once {s s' : State ι} (h : Open rt fs interpret s) (honce : Once rt s)
    (hstep : WriterStep rt fs interpret s s') : Once rt s' := by
  obtain ⟨hstep, hbefore, -⟩ := hstep
  cases hstep with
  | ingest =>
      refine honce.to h (fun k => .refl _) (fun o r hc => by cases hc) fun o pc hc hclaimed => ?_
      cases hc
      cases hclaimed
  | reindex => exact honce.to h (fun k => .refl _) (fun o r hc => by cases hc) fun o pc hc => by cases hc
  | sweep => exact honce.to h (fun k => .refl _) (fun o r hc => by cases hc) fun o pc hc => by cases hc
  | @persist p o pc pc' db hp hstep =>
      refine honce.to h (h.grown (hstep.moves h hp).1.access (hbefore p)) (fun o' r hc => ?_)
        fun o' pc'' hc hclaimed => ?_
      · cases hc
        exact hstep.right h hp
      · cases hc
        rcases hstep.claimed hclaimed with hold | hnew
        · exact .inl ⟨pc, hp, hold⟩
        · exact .inr hnew
  | @rebuild p r pc pc' db hp hstep =>
      exact honce.to h (h.grown (hstep.moves h hp).1.access (hbefore p)) (fun o r hc => by cases hc)
        fun o pc hc => by cases hc
  | @maintain p m pc pc' db hp hstep =>
      have hnone := hbefore p
      rw [hp] at hnone
      exact absurd hstep.isOpen (Bool.eq_false_iff.mp hnone)
  | @sever p late hlate =>
      exact honce.to h (h.grown (fun k => .finishes false) (hbefore p))
        (fun o r hc => by cases hc) fun o pc hc => by cases hc
  | @late p late late' db hp hstep =>
      refine honce.to h (fun k => ?_) (fun o r hc => by cases hc) fun o pc hc => by cases hc
      rw [hstep.runs]
      exact .refl _

/-! ### Runs -/

section run
variable {s₀ s s' : State ι}

theorem WriterStep.isOpen (h : Open rt fs interpret s) (hstep : WriterStep rt fs interpret s s') :
    Open rt fs interpret s' := hstep.step.isOpen h

theorem WriterStep.grown (h : Open rt fs interpret s) (hstep : WriterStep rt fs interpret s s')
    (k : RunKey) : Grown (s.db.runs k).committed (s'.db.runs k).committed := by
  obtain ⟨p, db, c, rfl, hmoves, -⟩ := hstep.step.cases_moves h
  exact h.grown hmoves.access (hstep.before p) k

theorem WriterStep.run (h : Relation.ReflTransGen (WriterStep rt fs interpret) s s') :
    Relation.ReflTransGen (Step rt fs interpret) s s' := by
  induction h with
  | refl => exact .refl
  | tail _ hstep ih => exact ih.tail hstep.step

theorem once_of_run (hquiet : Quiet s₀)
    (h : Relation.ReflTransGen (WriterStep rt fs interpret) s₀ s) :
    Open rt fs interpret s ∧ Once rt s := by
  induction h with
  | refl => exact ⟨hquiet.isOpen, hquiet.once⟩
  | tail _ hstep ih => exact ⟨hstep.isOpen ih.1, hstep.once ih.1 ih.2⟩

theorem grown_of_run (h : Open rt fs interpret s)
    (hrun : Relation.ReflTransGen (WriterStep rt fs interpret) s s') (k : RunKey) :
    Open rt fs interpret s' ∧ Grown (s.db.runs k).committed (s'.db.runs k).committed := by
  induction hrun with
  | refl => exact ⟨h, .refl _⟩
  | tail _ hstep ih => exact ⟨hstep.isOpen ih.1, ih.2.trans (hstep.grown ih.1 k)⟩

end run

/-! ### An ingestion by itself -/

section alone
variable {s₀ : State ι} {p : ι} {o : Offer}

theorem State.to_to (s : State ι) (p : ι) (db db' : Db ι) (c c' : Call) :
    (s.to p db c).to p db' c' = s.to p db' c' := by
  unfold State.to
  rw [Function.update_idem]

/-- No transaction is open, no pass runs, and the call is still to be made. -/
structure Still (s : State ι) (p : ι) : Prop where
  idle : s.calls p = .idle
  lease : ∀ q, (s.calls q).exclusive = false
  runs : ∀ k, (s.db.runs k).held = none
  blobs : ∀ h, (s.db.blobs h).held = none

omit [DecidableEq ι] in
theorem Quiet.still (h : Quiet s₀) (p : ι) : Still s₀ p := by
  refine ⟨h.calls p, fun q => ?_, h.runs, h.blobs⟩
  rw [h.calls]
  rfl

theorem Still.to_exclusive (h : Still s₀ p) {c : Call} (hc : c.exclusive = false) (db : Db ι)
    (q : ι) : ((s₀.to p db c).calls q).exclusive = false := by
  by_cases hqp : q = p
  · rw [hqp, State.to_self]
    exact hc
  · rw [s₀.to_of_ne db c hqp]
    exact h.lease q

omit [DecidableEq ι] in
theorem Still.free (h : Still s₀ p) (k : RunKey) : (s₀.db.runs k).FreeFor p := by
  intro q row hq
  rw [h.runs] at hq
  cases hq

/-- The call is made. -/
theorem Still.begins (h : Still s₀ p) (hoffered : Offered rt interpret o) :
    Relation.ReflTransGen (WriterStep rt fs interpret) s₀ (s₀.to p s₀.db (.persist o .looking)) :=
  .single ⟨.ingest h.idle hoffered h.lease, h.lease, h.to_exclusive rfl s₀.db⟩

/-- The next statement of an ingestion beside calls that are made before or after it. -/
theorem Still.tail (h : Still s₀ p) {db db' : Db ι} {pc pc' : Persist}
    (hrun : Relation.ReflTransGen (WriterStep rt fs interpret) s₀ (s₀.to p db (.persist o pc)))
    (hstep : PersistStep rt fs interpret p o db pc db' pc') :
    Relation.ReflTransGen (WriterStep rt fs interpret) s₀ (s₀.to p db' (.persist o pc')) := by
  refine hrun.tail ⟨?_, h.to_exclusive rfl db, h.to_exclusive rfl db'⟩
  rw [← s₀.to_to p db db' (.persist o pc) (.persist o pc')]
  exact .persist (s₀.to_self p db _) hstep

/-- The transaction holds the run, and these are its rows. -/
def Db.Holds (db : Db ι) (p : ι) (k : RunKey) (rows : RunRows) : Prop :=
  (db.runs k).held = some (p, some rows)

theorem Db.Holds.writes {db : Db ι} {k : RunKey} {rows : RunRows} (h : db.Holds p k rows)
    (rows' : RunRows) : db.Writes p k rows rows' (db.leave p k (some rows')) ∧
      (db.leave p k (some rows')).Holds p k rows' := by
  refine ⟨⟨fun q row hq => ?_, Slot.seenBy_of_held h, rfl⟩, ?_⟩
  · exact (congrArg Prod.fst (Option.some.inj (h.symm.trans hq))).symm
  · unfold Db.Holds
    rw [Db.leave_runs]
    rfl

theorem publishes_all (h : Still s₀ p) (rest : List RequiredBlob) (db : Db ι)
    (hrun : Relation.ReflTransGen (WriterStep rt fs interpret) s₀
      (s₀.to p db (.persist o (.publishing rest)))) :
    ∃ objects, Relation.ReflTransGen (WriterStep rt fs interpret) s₀
      (s₀.to p { db with objects := objects } (.persist o .claiming)) := by
  induction rest generalizing db with
  | nil => exact ⟨db.objects, h.tail hrun .published⟩
  | cons b rest ih =>
      have hnext := h.tail hrun (.publishes List.mem_cons_self)
      rw [List.erase_cons_head] at hnext
      obtain ⟨objects, hclaiming⟩ := ih _ hnext
      exact ⟨objects, hclaiming⟩

/-- The rows of a run that is inserted. -/
def Offer.rows (o : Offer) (ingestionSequence : ℕ) : RunRows where
  head := o.head ingestionSequence
  lines := o.archive.lines
  blobs := o.hashes
  expiresAt := some o.expiresAt
  index := some ⟨o.version, o.archive.contentFingerprint, o.offeredIndex.run⟩
  occurrences := o.offeredIndex.occurrences.map (insertedRow o.key o.version)

/-- An ingestion beside no other call inserts a run that is not archived, when the catalog knows
none of its blobs. -/
theorem inserts_alone (hstill : Still s₀ p) (hoffered : Offered rt interpret o)
    (hproject : o.offeredIndex.run.projectId = o.key.projectId)
    (hrunId : o.offeredIndex.run.runId = o.key.runId)
    (hnone : (s₀.db.runs o.key).committed = none)
    (hblobs : ∀ b ∈ o.archive.requiredBlobs, (s₀.db.blobs b.sha256).committed = none ∧
      o.archive.requiredBlobs.find? (fun c => c.sha256 = b.sha256) = some b) :
    ∃ db, Relation.ReflTransGen (WriterStep rt fs interpret) s₀
      (s₀.to p db (.persist o (.answered (.inserted o.archive.runId s₀.db.sequence)))) ∧
      (db.runs o.key).committed = some (o.rows s₀.db.sequence) ∧
      (∀ k, k ≠ o.key → (db.runs k).committed = (s₀.db.runs k).committed) ∧
      (∀ k, (db.runs k).held = none) ∧ (∀ h, (db.blobs h).held = none) ∧
      db.sequence = s₀.db.sequence + 1 := by
  have hbegin : Relation.ReflTransGen (WriterStep rt fs interpret) s₀
      (s₀.to p s₀.db (.persist o .looking)) := hstill.begins hoffered
  obtain ⟨objects, hclaiming⟩ := publishes_all hstill _ _ (hstill.tail hbegin (.absent hnone))
  have hrecording := hstill.tail hclaiming (.claims (hstill.free _) hnone)
  have hrecords : ∀ {db : Db ι}, db.blobs = s₀.db.blobs →
      db.RecordsBlobs p o.archive.requiredBlobs (db.insertBlobs p o.archive.requiredBlobs) := by
    intro db hdb
    refine ⟨fun b hb q row hq => ?_, rfl, fun b hb => ?_⟩
    · rw [hdb, hstill.blobs] at hq
      cases hq
    · obtain ⟨hcommitted, hfind⟩ := hblobs b hb
      have hseen : (db.blobs b.sha256).seenBy p = none := by
        rw [hdb, Slot.seenBy, hstill.blobs]
        exact hcommitted
      rw [Db.insertBlobs]
      dsimp only
      rw [hseen, hfind]
      exact Slot.seenBy_of_held rfl
  have hwriting := hstill.tail hrecording (.records (hrecords rfl))
  have hholds : ({ s₀.db with objects := objects, sequence := s₀.db.sequence + 1 }.leave p o.key
      (some ⟨o.head s₀.db.sequence, [], [], none, none, []⟩) |>.insertBlobs p
        o.archive.requiredBlobs).Holds p o.key ⟨o.head s₀.db.sequence, [], [], none, none, []⟩ := by
    unfold Db.Holds
    rw [Db.insertBlobs_runs, Db.leave_runs]
    rfl
  obtain ⟨hlines, hholds⟩ := hholds.writes ⟨o.head s₀.db.sequence, o.archive.lines, [], none, none, []⟩
  have hrelating := hstill.tail hwriting (.writes hlines)
  obtain ⟨hrelated, hholds⟩ := hholds.writes
    ⟨o.head s₀.db.sequence, o.archive.lines, o.hashes, none, none, []⟩
  have hnew : relateBlobs o.hashes ⟨o.head s₀.db.sequence, o.archive.lines, [], none, none, []⟩ =
      (⟨o.head s₀.db.sequence, o.archive.lines, o.hashes, none, none, []⟩, o.hashes.length) := by
    simp [relateBlobs]
  have hretaining := hstill.tail hrelating (.relatesAll (by rw [hnew]; exact hrelated))
  obtain ⟨hretained, hholds⟩ := hholds.writes (recordRetention o.expiresAt _).1
  have hindexing := hstill.tail hretaining (.retainsNew hretained)
  obtain ⟨hindexed, hholds⟩ := hholds.writes (o.rows s₀.db.sequence)
  have hreplaced : replaceQueryIndex o.key o.version o.offeredIndex o.archive.contentFingerprint
      (recordRetention o.expiresAt
        ⟨o.head s₀.db.sequence, o.archive.lines, o.hashes, none, none, []⟩).1 =
      .ok (o.rows s₀.db.sequence) := by
    refine if_neg ?_
    rw [not_or, not_not, not_not]
    exact ⟨hproject, hrunId⟩
  refine ⟨_, hstill.tail (hstill.tail hindexing (.indexesNew hreplaced hindexed)) .inserts,
    congrArg Slot.committed (Slot.finish_of_held true hholds), fun k hk => ?_, fun k => ?_,
    fun h => ?_, rfl⟩
  · rw [Db.finish]
    simp only [Db.leave_runs_of_ne _ _ _ hk, Db.insertBlobs_runs]
    have hfree : ¬ (s₀.db.runs k).HeldBy p := by
      rw [Slot.HeldBy, hstill.runs]
      simp
    rw [Slot.finish_of_not_held true hfree]
  · refine Slot.finish_held_of_free true ?_
    by_cases hk : k = o.key
    · subst hk
      exact fun q row hq => congrArg Prod.fst (Option.some.inj (hq.symm.trans hholds))
    · simp only [Db.leave_runs_of_ne _ _ _ hk, Db.insertBlobs_runs]
      exact hstill.free k
  · refine Slot.finish_held_of_free true fun q row hq => ?_
    change ((Db.insertBlobs _ p o.archive.requiredBlobs).blobs h).held = some (q, row) at hq
    rw [Db.insertBlobs] at hq
    dsimp only at hq
    split at hq
    · exact congrArg Prod.fst (Option.some.inj hq).symm
    · have hnone := hstill.blobs h
      rw [show (s₀.db.blobs h).held = some (q, row) from hq] at hnone
      cases hnone

/-- An ingestion of a run that is archived in full, beside no other call, writes nothing. -/
theorem present_alone (hstill : Still s₀ p) (hoffered : Offered rt interpret o) {rows : RunRows}
    {n : ℕ} {expiresAt : ℤ} (hrows : (s₀.db.runs o.key).committed = some rows)
    (hhead : rows.head = o.head n) (hhashes : ∀ h ∈ o.hashes, h ∈ rows.blobs)
    (hexpires : rows.expiresAt = some expiresAt) (hcurrent : rows.current o.version = true) :
    ∃ db, Relation.ReflTransGen (WriterStep rt fs interpret) s₀
      (s₀.to p db (.persist o (.answered (.alreadyPresent o.archive.runId n 0 false false)))) := by
  have hbegin : Relation.ReflTransGen (WriterStep rt fs interpret) s₀
      (s₀.to p s₀.db (.persist o .looking)) := hstill.begins hoffered
  have hlooks := hstill.tail hbegin (.looks hrows (by rw [hhead]; rfl))
  rw [Offer.compare, if_neg (by rw [hhead]; exact not_not.mpr rfl), hhead] at hlooks
  have hlocking := hstill.tail hlooks (.relates rfl)
  rw [hrows, if_neg (by simpa using hhashes)] at hlocking
  have hseen : (s₀.db.runs o.key).seenBy p = some rows := by
    rw [Slot.seenBy, hstill.runs]
    exact hrows
  have hretaining := hstill.tail hlocking (.locks ⟨hstill.free _, hseen, rfl⟩)
  have hholds : (s₀.db.leave p o.key (some rows)).Holds p o.key rows := by
    unfold Db.Holds
    rw [Db.leave_runs]
    rfl
  have hretention : recordRetention o.expiresAt rows = (rows, false) := by
    unfold recordRetention
    rw [hexpires]
  obtain ⟨hretained, hholds⟩ := hholds.writes rows
  have hindexing := hstill.tail hretaining (.retains (by rw [hretention]; exact hretained))
  rw [hretention] at hindexing
  obtain ⟨hkept, -⟩ := hholds.writes rows
  have hcommitting := hstill.tail hindexing (.repairs (if_pos hcurrent) hkept)
  exact ⟨_, hstill.tail hcommitting .commits⟩

end alone

/-! ### Any number of them -/

/-- However the ingestions of an identity and the rebuilds of its project interleave, fail and
stop, at most one ingestion answers `inserted`, every answer is the one that the archived rows
give, and the source of an archived run, its expiry once it is recorded, and its relations stay;
rows change only with the commit of a call that is no conflict. -/
theorem archived_once (rt : Runtime) (fs : FileSystem)
    (interpret : ℕ → ProjectedRun → Except Text DerivedQueryIndex) {s₀ s s' : State ι}
    (hquiet : Quiet s₀) (h : Relation.ReflTransGen (WriterStep rt fs interpret) s₀ s)
    (h' : Relation.ReflTransGen (WriterStep rt fs interpret) s s') :
    (∀ p q o o' runId runId' n n', s.calls p = .persist o (.answered (.inserted runId n)) →
      s.calls q = .persist o' (.answered (.inserted runId' n')) → o.key = o'.key → p = q) ∧
    (∀ p o r, s.calls p = .persist o (.answered r) →
      ∃ rows, (s.db.runs o.key).committed = some rows ∧ r.Right rt o rows) ∧
    (∀ k rows, (s.db.runs k).committed = some rows →
      ∃ rows', (s'.db.runs k).committed = some rows' ∧ rows.Extends rows') ∧
    ∀ s'', WriterStep rt fs interpret s s'' →
      (∃ p, Commits (s.calls p) (s''.calls p)) ∨ SameRows s.db s''.db := by
  obtain ⟨hopen, honce⟩ := once_of_run hquiet h
  refine ⟨fun p q o o' runId runId' n n' hp hq hkey => ?_, honce.answers, fun k rows hrows => ?_,
    fun s'' hstep => hstep.commits⟩
  · exact honce.alone p q o o' _ _ hp hq hkey rfl rfl
  · exact (grown_of_run hopen h' k).2 rows hrows

end once

namespace Sample

open QeReport.Sample

/-- The hash of the one byte `x`. -/
def attachedHash : Text :=
  txt "2d711642b726b04401627ca9fbac32f5c8530fb1903cc4db02258717921a4881"

/-- A run of one test with an attachment. -/
def attachedDirectory : FileSystem :=
  let events := directory
    [("1.ndjson", sessionFrom "a" 1
      [.sessionStarted ⟨⟨txt "sdk", none⟩, some ⟨txt "junit", none⟩, none, none, none, none⟩,
        .attemptStarted ⟨txt "t1", 1,
          ⟨txt "t", some (txt "Adds"), .stable, txt "adds", [], none, none, none⟩⟩,
        .attachmentAdded ⟨txt "t1", none, txt "log", txt "text/plain", 1, attachedHash⟩,
        Sample.attemptFinished "t1" .passed, Sample.sessionFinished, .runFinished])]
  let attached := txt "run/attachments/" ++ attachedHash
  { events with
    entryKind := fun path => if path = attached then .file else events.entryKind path
    openRegular := fun path =>
      if path = attached then .ok ⟨txt "x", 1, attachedHash⟩ else events.openRegular path }

/-- The interpretation of the present index version. -/
def interpret (_ : ℕ) (run : ProjectedRun) : Except Text DerivedQueryIndex :=
  deriveQueryIndex runtime run

/-- The ingestion of the directory `run`. -/
def request : PersistRequest := ⟨txt "project", txt "run", 0, none⟩

/-- The identity of an offer and of its index, and the blobs. -/
def shown (o : Offer) : RunKey × Text × Text × List RequiredBlob :=
  (o.key, o.offeredIndex.run.projectId, o.offeredIndex.run.runId, o.archive.requiredBlobs)

/-- Nothing is archived, and no call is made. -/
def empty : State Bool :=
  ⟨⟨fun _ => ⟨none, none⟩, fun _ => ⟨none, none⟩, fun _ => False, 0⟩, fun _ => .idle⟩

theorem empty_quiet : Quiet empty := ⟨fun _ => rfl, fun _ => rfl, fun _ => rfl⟩

theorem attached_offer : ∃ o,
    offerOf runtime interpret attachedDirectory .ok queryIndexVersion request = .ok o ∧
    shown o = (⟨txt "project", txt "run"⟩, txt "project", txt "run", [⟨attachedHash, 1⟩]) := by
  have hshown : (offerOf runtime interpret attachedDirectory .ok queryIndexVersion
      request).toOption.map shown =
        some (⟨txt "project", txt "run"⟩, txt "project", txt "run", [⟨attachedHash, 1⟩]) := by
    decide +kernel
  obtain ⟨o, ho, hfacts⟩ := Option.map_eq_some_iff.mp hshown
  exact ⟨o, eq_ok_of_toOption ho, hfacts⟩

/-- The ingestion of the run with an attachment, before a second call. -/
theorem attached_archived : ∃ o db,
    offerOf runtime interpret attachedDirectory .ok queryIndexVersion request = .ok o ∧
    o.archive.requiredBlobs = [⟨attachedHash, 1⟩] ∧
    Relation.ReflTransGen (WriterStep runtime attachedDirectory interpret) empty
      (empty.to true db (.persist o (.answered (.inserted o.archive.runId 0)))) ∧
    (db.runs o.key).committed = some (o.rows 0) ∧
    Still (empty.to true db (.persist o (.answered (.inserted o.archive.runId 0)))) false := by
  obtain ⟨o, hoffer, hshown⟩ := attached_offer
  simp only [shown, Prod.mk.injEq] at hshown
  obtain ⟨hkey, hproject, hrunId, hblobs⟩ := hshown
  have halone := @inserts_alone Bool _ runtime attachedDirectory interpret
  obtain ⟨db, hrun, hrows, -, hheld, hheld', -⟩ := halone (empty_quiet.still true)
    ⟨_, _, _, _, hoffer⟩ (by rw [hproject, hkey]) (by rw [hrunId, hkey]) rfl
    (by simp [hblobs, empty])
  refine ⟨o, db, hoffer, hblobs, hrun, hrows, rfl, ?_, hheld, hheld'⟩
  exact (empty_quiet.still true).to_exclusive rfl db

end Sample

/-- The run with an attachment is ingested twice: it is inserted, and then already present. -/
theorem archived_once_attached : ∃ o db db' rows, Offered Sample.runtime Sample.interpret o ∧
    Relation.ReflTransGen
      (WriterStep Sample.runtime Sample.attachedDirectory Sample.interpret) Sample.empty
      ((Sample.empty.to true db (.persist o (.answered (.inserted o.archive.runId 0)))).to false db'
        (.persist o (.answered (.alreadyPresent o.archive.runId 0 0 false false)))) ∧
    (db'.runs o.key).committed = some rows ∧ rows.head = o.head 0 ∧
    rows.lines = o.archive.lines ∧ Agrees Sample.runtime o rows ⟨o.archive.contentFingerprint, 0⟩ := by
  obtain ⟨o, db, hoffer, -, hrun, hrows, hstill⟩ := Sample.attached_archived
  have hpresent := @present_alone Bool _ Sample.runtime Sample.attachedDirectory Sample.interpret
  obtain ⟨db', hagain⟩ := hpresent hstill ⟨_, _, _, _, hoffer⟩ hrows rfl (fun _ => id) rfl
    (by simp [RunRows.current, Offer.rows, Offer.head])
  have hboth := hrun.trans hagain
  obtain ⟨-, hanswers, -, -⟩ := archived_once Sample.runtime Sample.attachedDirectory
    Sample.interpret Sample.empty_quiet hboth .refl
  obtain ⟨rows, hrows', -, hagrees⟩ := hanswers false o _ (State.to_self ..)
  obtain ⟨rows', hrows'', -, hhead, hlines⟩ := hanswers true o (.inserted o.archive.runId 0) rfl
  rw [hrows'] at hrows''
  obtain rfl := Option.some.inj hrows''
  exact ⟨o, db, db', rows, ⟨_, _, _, _, hoffer⟩, hboth, hrows', hhead, hlines, hagrees⟩

end Archiving

end QeReport

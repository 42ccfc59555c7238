import QeReport.Postgres.Once

/-! # The expiry of an archived run

A transaction that holds a run leaves the expiry that is committed there, or the one of its own
call (`Dated`).  So the expiry of a run is the one of the call that was the first to commit one
(`WriterStep.expiry`), and with what `Once` says of the answers this is all that ingestions of one
identity beside each other come to (`ingestions_agree`). -/

namespace QeReport

open Reclaim (RunKey)

namespace Archiving

open Slots

/-- The recorded expiry of the rows. -/
def expiryOf (row : Option RunRows) : Option ℤ := row.bind (fun rows => rows.expiresAt)

/-- The expiry that the call records where none is recorded. -/
def Call.expiry : Call → Option ℤ
  | .persist o _ => some o.expiresAt
  | _ => none

section dated
variable {ι : Type} [DecidableEq ι]
variable {rt : Runtime} {fs : FileSystem}
  {interpret : ℕ → ProjectedRun → Except Text DerivedQueryIndex}
variable {p : ι} {e : Option ℤ} {db db' : Db ι}

/-- The rows that a transaction has left have no expiry, the committed one, or its own. -/
def Db.Dated (p : ι) (e : Option ℤ) (db : Db ι) : Prop :=
  ∀ k row, (db.runs k).held = some (p, row) →
    expiryOf row = none ∨ expiryOf row = expiryOf (db.runs k).committed ∨ expiryOf row = e

/-! ### Statements -/

omit [DecidableEq ι] in
theorem Db.Dated.of_runs (h : db.Dated p e) (hruns : db'.runs = db.runs) : db'.Dated p e := by
  intro k row hrow
  rw [hruns] at hrow ⊢
  exact h k row hrow

omit [DecidableEq ι] in
theorem Db.Dated.leave (h : db.Dated p e) {k : RunKey} {row : Option RunRows}
    (hrow : expiryOf row = none ∨ expiryOf row = expiryOf (db.runs k).committed ∨
      expiryOf row = e) : (db.leave p k row).Dated p e := by
  intro k' row' hrow'
  by_cases hk : k' = k
  · subst hk
    rw [Db.leave_runs] at hrow' ⊢
    obtain rfl : row = row' := congrArg Prod.snd (Option.some.inj hrow')
    exact hrow
  · rw [Db.leave_runs_of_ne db p row hk] at hrow' ⊢
    exact h k' row' hrow'

/-- A statement that keeps the expiry it sees, or records the one of its call. -/
theorem Db.Dated.writes (h : db.Dated p e) {k : RunKey} {rows rows' : RunRows}
    (hwrites : db.Writes p k rows rows' db')
    (hrow : rows'.expiresAt = rows.expiresAt ∨ rows'.expiresAt = e) : db'.Dated p e := by
  rw [hwrites.left]
  refine h.leave ?_
  rcases hrow with hsame | hown
  · have hseen := hwrites.seen
    change rows'.expiresAt = none ∨ rows'.expiresAt = _ ∨ rows'.expiresAt = e
    rw [hsame]
    by_cases hheld : (db.runs k).HeldBy p
    · obtain ⟨row, hrow⟩ := hheld
      rw [Slot.seenBy_of_held hrow] at hseen
      have hdated := h k row hrow
      rwa [hseen] at hdated
    · rw [Slot.seenBy_of_not_held hheld] at hseen
      rw [hseen]
      exact .inr (.inl rfl)
  · exact .inr (.inr hown)

theorem Db.dated_finish (db : Db ι) (p : ι) (e : Option ℤ) (commit : Bool) :
    (db.finish p commit).Dated p e := fun k row hrow =>
  absurd ⟨row, hrow⟩ (Slot.finish_not_held p commit (db.runs k))

theorem recordRetention_expiry (expiresAt : ℤ) (rows : RunRows) :
    (recordRetention expiresAt rows).1.expiresAt = rows.expiresAt ∨
      (recordRetention expiresAt rows).1.expiresAt = some expiresAt := by
  unfold recordRetention
  split
  · exact .inl rfl
  · exact .inr rfl

theorem replaceQueryIndex_expiry {k : RunKey} {version : ℕ} {derived : DerivedQueryIndex}
    {fingerprint : Text} {rows rows' : RunRows}
    (h : replaceQueryIndex k version derived fingerprint rows = .ok rows') :
    rows'.expiresAt = rows.expiresAt := by
  rw [RunRows.replaceQueryIndex_eq_ok h]

theorem PersistStep.dated {o : Offer} {pc pc' : Persist} (h : db.Dated p (some o.expiresAt))
    (hstep : PersistStep rt fs interpret p o db pc db' pc') : db'.Dated p (some o.expiresAt) := by
  cases hstep with
  | locks hwrites => exact h.writes hwrites (.inl rfl)
  | claims =>
      have hnumbered : ({ db with sequence := db.sequence + 1 } : Db ι).Dated p (some o.expiresAt) :=
        h.of_runs rfl
      exact hnumbered.leave (.inl rfl)
  | records hrecords => exact h.of_runs hrecords.runs
  | writes hwrites => exact h.writes hwrites (.inl rfl)
  | relatesAll hwrites => exact h.writes hwrites (.inl rfl)
  | retainsNew hwrites => exact h.writes hwrites (recordRetention_expiry _ _)
  | indexesNew hreplaced hwrites =>
      exact h.writes hwrites (.inl (replaceQueryIndex_expiry hreplaced))
  | inserts | insertsUnheard => exact db.dated_finish p _ true
  | holds hwrites => exact h.writes hwrites (.inl rfl)
  | recordsMissing hrecords => exact h.of_runs hrecords.runs
  | relatesMissing hwrites => exact h.writes hwrites (.inl rfl)
  | retains hwrites => exact h.writes hwrites (recordRetention_expiry _ _)
  | repairs hrepaired hwrites =>
      refine h.writes hwrites (.inl ?_)
      rcases RunRows.repairStoredIndex_cases hrepaired with ⟨rfl, -⟩ | ⟨derived, -, hreplaced, -⟩
      · rfl
      · exact replaceQueryIndex_expiry hreplaced
  | commits | commitsUnheard => exact db.dated_finish p _ true
  | fails => exact db.dated_finish p _ false
  | _ => exact h.of_runs rfl

theorem RebuildStep.dated {r : RebuildRequest} {pc pc' : Rebuild} (h : db.Dated p e)
    (hstep : RebuildStep rt fs interpret p r db pc db' pc') : db'.Dated p e := by
  cases hstep with
  | locks hwrites => exact h.writes hwrites (.inl rfl)
  | replaces hreplaced hwrites =>
      exact h.writes hwrites (.inl (replaceQueryIndex_expiry hreplaced))
  | commits | commitsUnheard => exact db.dated_finish p _ true
  | cannotLock => exact db.dated_finish p _ false
  | cannotReplace => exact db.dated_finish p _ false
  | cannotCommit => exact db.dated_finish p _ false
  | fails => exact db.dated_finish p _ false
  | _ => exact h.of_runs rfl

/-! ### Steps -/

/-- What every transaction has left is dated by its call. -/
def State.Dated (s : State ι) : Prop := ∀ p, s.db.Dated p (s.calls p).expiry

omit [DecidableEq ι] in
theorem Quiet.dated {s : State ι} (h : Quiet s) : s.Dated := by
  intro p k row hrow
  rw [h.runs] at hrow
  cases hrow

/-- A statement of a call touches what the other calls have left nowhere. -/
theorem State.Dated.to {s : State ι} (h : s.Dated) {c : Call}
    (haccess : ∀ k, Access p (s.db.runs k) (db.runs k)) (hown : db.Dated p c.expiry) :
    (s.to p db c).Dated := by
  intro q k row hrow
  by_cases hqp : q = p
  · subst hqp
    rw [s.to_self]
    exact hown k row hrow
  · rw [s.to_of_ne db c hqp]
    have hold := (haccess k).held hrow hqp
    have hsame : db.runs k = s.db.runs k := (haccess k).keeps ⟨row, hold⟩ hqp
    change _ ∨ _ = expiryOf (db.runs k).committed ∨ _
    rw [hsame]
    exact h q k row hold

theorem WriterStep.dated {s s' : State ι} (hopen : Open rt fs interpret s) (h : s.Dated)
    (hstep : WriterStep rt fs interpret s s') : s'.Dated := by
  obtain ⟨hstep, hbefore, -⟩ := hstep
  -- a call that holds nothing has left nothing
  have hnothing : ∀ {p : ι} {c : Call}, (∀ k, ¬ (s.calls p).Holds k) → s.db.Dated p c.expiry :=
    fun hp k row hrow => absurd (hopen.held k _ row hrow) (hp k)
  cases hstep with
  | @ingest p o hp | @reindex p o hp | @sweep p o hp =>
      refine h.to (fun k => .still) (hnothing fun k => ?_)
      rw [hp]
      exact id
  | @persist p o pc pc' db hp hstep =>
      have hown := h p
      rw [hp] at hown
      exact h.to (hstep.moves hopen hp).1.access (hstep.dated hown)
  | @rebuild p r pc pc' db hp hstep =>
      have hown := h p
      rw [hp] at hown
      exact h.to (hstep.moves hopen hp).1.access (hstep.dated hown)
  | @maintain p m pc pc' db hp hstep =>
      have hnone := hbefore p
      rw [hp] at hnone
      exact absurd hstep.isOpen (Bool.eq_false_iff.mp hnone)
  | @sever p late hlate => exact h.to (fun k => .finishes false) (s.db.dated_finish p _ false)
  | @late p late late' db hp hstep =>
      have hown := h p
      rw [hp] at hown
      refine h.to (fun k => ?_) (hown.of_runs hstep.runs)
      rw [hstep.runs]
      exact .still

theorem dated_of_run {s₀ s : State ι} (hquiet : Quiet s₀)
    (h : Relation.ReflTransGen (WriterStep rt fs interpret) s₀ s) : s.Dated := by
  induction h with
  | refl => exact hquiet.dated
  | tail hrun hstep ih => exact hstep.dated (once_of_run hquiet hrun).1 ih

/-! ### Who commits -/

section commits
variable {s s' : State ι} {k : RunKey}

omit [DecidableEq ι] in
theorem Commits.ne {c c' : Call} (h : Commits c c') : c' ≠ c := by
  cases h <;> simp

/-- The one call that a step moves. -/
theorem WriterStep.mover (hopen : Open rt fs interpret s) (hstep : WriterStep rt fs interpret s s') :
    ∃ p, (∀ k, Access p (s.db.runs k) (s'.db.runs k)) ∧ (∀ q, s'.calls q ≠ s.calls q → q = p) := by
  obtain ⟨p, db, c, rfl, hmoves, -⟩ := hstep.step.cases_moves hopen
  refine ⟨p, hmoves.access, fun q hq => ?_⟩
  by_contra hne
  exact hq (s.to_of_ne db c hne)

/-- The committed rows of a run change with the commit of the call that holds it. -/
theorem WriterStep.committer (hopen : Open rt fs interpret s)
    (hstep : WriterStep rt fs interpret s s')
    (hchanged : (s'.db.runs k).committed ≠ (s.db.runs k).committed) :
    ∃ p, (s.db.runs k).held = some (p, (s'.db.runs k).committed) ∧
      Commits (s.calls p) (s'.calls p) := by
  obtain ⟨p, haccess, hmoved⟩ := hstep.mover hopen
  rcases (haccess k).committed_cases with hsame | ⟨row, hrow, hslot⟩
  · exact absurd hsame hchanged
  · rcases hstep.commits with ⟨q, hq⟩ | hsame
    · obtain rfl := hmoved q hq.ne
      exact ⟨q, by rw [hrow, hslot], hq⟩
    · exact absurd (hsame.runs k) hchanged

/-- An expiry that is recorded was recorded before, or is the one of the call that commits. -/
theorem WriterStep.expiry (hopen : Open rt fs interpret s) (hdated : s.Dated)
    (hstep : WriterStep rt fs interpret s s') {rows' : RunRows} {e : ℤ}
    (hrows' : (s'.db.runs k).committed = some rows') (he : rows'.expiresAt = some e) :
    (∃ rows, (s.db.runs k).committed = some rows ∧ rows.expiresAt = some e) ∨
      ∃ p o pc, s.calls p = .persist o pc ∧ o.key = k ∧ o.expiresAt = e ∧
        Commits (s.calls p) (s'.calls p) := by
  by_cases hsame : (s'.db.runs k).committed = (s.db.runs k).committed
  · exact .inl ⟨rows', hsame ▸ hrows', he⟩
  · obtain ⟨p, hheld, hcommits⟩ := hstep.committer hopen hsame
    have hrow : expiryOf (s'.db.runs k).committed = some e := by
      rw [hrows']
      exact he
    rcases hdated p k _ hheld with hnone | hcommitted | hown
    · rw [hrow] at hnone
      cases hnone
    · rw [hrow] at hcommitted
      exact .inl (Option.bind_eq_some_iff.mp hcommitted.symm)
    · rw [hrow] at hown
      have hholds := hopen.held k p _ hheld
      cases hp : s.calls p with
      | persist o pc =>
          rw [hp] at hown hholds
          exact .inr ⟨p, o, pc, hp, hholds.2.symm, (Option.some.inj hown).symm, hp ▸ hcommits⟩
      | _ =>
          rw [hp] at hown
          cases hown

/-! ### Conflicts -/

/-- The call comes to no conflict any more. -/
def Call.settled : Call → Bool
  | .persist _ (.answered (.conflict ..)) => false
  | .persist _ pc => !pc.isOpen
  | .rebuild _ _ => true
  | _ => false

omit [DecidableEq ι] in
theorem Commits.settled {c c' : Call} (h : Commits c c') : c'.settled = true := by
  cases h <;> rfl

theorem Call.settled_of_open (o : Offer) {pc : Persist} (h : pc.isOpen = true) :
    (Call.persist o pc).settled = false := by
  cases pc with
  | answered r => cases h
  | failed => cases h
  | _ => rfl

/-- What a call has committed it does not answer with a conflict. -/
theorem WriterStep.settled (hstep : WriterStep rt fs interpret s s') {p : ι}
    (h : (s.calls p).settled = true) : (s'.calls p).settled = true := by
  -- the call that moves is another one, or it is not settled, or a rebuild
  have hto : ∀ {q : ι} {db : Db ι} {c : Call}, ((s.calls q).settled = false ∨ c.settled = true) →
      ((s.to q db c).calls p).settled = true := by
    intro q db c hc
    by_cases hpq : p = q
    · subst hpq
      rw [s.to_self]
      rcases hc with hfalse | htrue
      · rw [hfalse] at h
        cases h
      · exact htrue
    · rw [s.to_of_ne db c hpq]
      exact h
  obtain ⟨hstep, -, -⟩ := hstep
  cases hstep with
  | ingest hp | reindex hp | sweep hp => exact hto (.inl (by rw [hp]; rfl))
  | persist hp hstep => exact hto (.inl (by rw [hp]; exact Call.settled_of_open _ hstep.isOpen))
  | rebuild => exact hto (.inr rfl)
  | maintain hp => exact hto (.inl (by rw [hp]; rfl))
  | late hp => exact hto (.inl (by rw [hp]; rfl))
  | @sever p late hlate =>
      refine hto (.inl ?_)
      cases hp : s.calls p with
      | persist o pc =>
          rw [hp] at hlate
          cases pc with
          | publishing => rfl
          | _ => cases hlate
      | maintain => rfl
      | _ =>
          rw [hp] at hlate
          cases hlate

/-- No statement of a call that ends in a conflict changes a row. -/
theorem WriterStep.conflict (hopen : Open rt fs interpret s) (hstep : WriterStep rt fs interpret s s')
    {t : State ι} (hrun : Relation.ReflTransGen (WriterStep rt fs interpret) s' t) {p : ι} {o : Offer}
    {runId stored offered : Text}
    (hp : t.calls p = .persist o (.answered (.conflict runId stored offered)))
    (hmoved : s'.calls p ≠ s.calls p) : SameRows s.db s'.db := by
  refine hstep.commits.resolve_left ?_
  rintro ⟨q, hq⟩
  obtain ⟨mover, -, hmover⟩ := hstep.mover hopen
  obtain rfl : q = p := (hmover q hq.ne).trans (hmover p hmoved).symm
  have hsettled : (t.calls q).settled = true := by
    clear hp
    induction hrun with
    | refl => exact hq.settled
    | tail _ hnext ih => exact hnext.settled ih
  rw [hp] at hsettled
  cases hsettled

end commits

/-! ### Any number of ingestions -/

def PersistResult.isConflict : PersistResult → Bool
  | .conflict .. => true
  | _ => false

omit [DecidableEq ι] in
/-- An answer is a conflict where the archived content is another. -/
theorem PersistResult.Right.isConflict_iff {o : Offer} {rows : RunRows} {r : PersistResult}
    (h : r.Right rt o rows) : r.isConflict = true ↔
      (rows.fingerprintFor rt o.archive.fingerprintVersion).fingerprint ≠
        o.archive.contentFingerprint := by
  cases r with
  | inserted runId n =>
      have hsame : (rows.fingerprintFor rt o.archive.fingerprintVersion).fingerprint =
          o.archive.contentFingerprint := by
        rw [fingerprintFor_same (by rw [h.2.1]; rfl), h.2.1]
        rfl
      exact iff_of_false (by simp [isConflict]) (not_not.mpr hsame)
  | alreadyPresent runId n added retentionAdded rebuilt =>
      exact iff_of_false (by simp [isConflict]) (not_not.mpr (by rw [h.2.found]))
  | conflict runId stored offered =>
      obtain ⟨-, hstored, rfl, hne⟩ := h
      rw [hstored]
      exact iff_of_true rfl hne

/-- However ingestions of one identity interleave, fail and stop beside each other and beside
rebuilds: at most one answers `inserted`; every answer is right of the archived rows, and a
conflict exactly where their content is another than the offered one; a call that ends in a
conflict changes no row; the archived source stays as it is; and the expiry is the one of the call
that was the first to commit one. -/
theorem ingestions_agree (rt : Runtime) (fs : FileSystem)
    (interpret : ℕ → ProjectedRun → Except Text DerivedQueryIndex) {s₀ s s' : State ι}
    (hquiet : Quiet s₀) (h : Relation.ReflTransGen (WriterStep rt fs interpret) s₀ s)
    (h' : Relation.ReflTransGen (WriterStep rt fs interpret) s s') (k : RunKey) :
    (∀ p q o o' runId runId' n n', o.key = k → o'.key = k →
      s.calls p = .persist o (.answered (.inserted runId n)) →
      s.calls q = .persist o' (.answered (.inserted runId' n')) → p = q) ∧
    (∀ p o r, o.key = k → s.calls p = .persist o (.answered r) →
      ∃ rows, (s.db.runs k).committed = some rows ∧ r.Right rt o rows ∧
        (r.isConflict = true ↔
          (rows.fingerprintFor rt o.archive.fingerprintVersion).fingerprint ≠
            o.archive.contentFingerprint)) ∧
    (∀ s₁, WriterStep rt fs interpret s s₁ → Relation.ReflTransGen (WriterStep rt fs interpret) s₁ s' →
      ∀ p o runId stored offered,
        s'.calls p = .persist o (.answered (.conflict runId stored offered)) →
        s₁.calls p ≠ s.calls p → SameRows s.db s₁.db) ∧
    (∀ rows, (s.db.runs k).committed = some rows → ∃ rows', (s'.db.runs k).committed = some rows' ∧
      rows'.head = rows.head ∧ rows'.lines = rows.lines ∧
      ∀ e, rows.expiresAt = some e → rows'.expiresAt = some e) ∧
    ∀ s₁, WriterStep rt fs interpret s s₁ → ∀ rows₁ e, (s₁.db.runs k).committed = some rows₁ →
      rows₁.expiresAt = some e →
      (∃ rows, (s.db.runs k).committed = some rows ∧ rows.expiresAt = some e) ∨
      ∃ p o pc, s.calls p = .persist o pc ∧ o.key = k ∧ o.expiresAt = e ∧
        Commits (s.calls p) (s₁.calls p) := by
  obtain ⟨hopen, honce⟩ := once_of_run hquiet h
  refine ⟨fun p q o o' runId runId' n n' hk hk' hp hq => ?_, fun p o r hk hp => ?_,
    fun s₁ hstep hrun p o runId stored offered hp hmoved => ?_, fun rows hrows => ?_,
    fun s₁ hstep rows₁ e hrows₁ he => ?_⟩
  · exact honce.alone p q o o' _ _ hp hq (hk.trans hk'.symm) rfl rfl
  · obtain ⟨rows, hrows, hright⟩ := honce.answers p o r hp
    exact ⟨rows, hk ▸ hrows, hright, hright.isConflict_iff⟩
  · exact hstep.conflict hopen hrun hp hmoved
  · obtain ⟨rows', hrows', hextends⟩ := (grown_of_run hopen h' k).2 rows hrows
    exact ⟨rows', hrows', hextends.head, hextends.lines, hextends.expiresAt⟩
  · exact hstep.expiry hopen (dated_of_run hquiet h) hrows₁ he

end dated

namespace Sample

open QeReport.Sample

/-- An expiry is only carried along. -/
theorem offerOf_expires {rt : Runtime} {interpret : ℕ → ProjectedRun → Except Text DerivedQueryIndex}
    {fs : FileSystem} {name : Text → Except Text Text} {version : ℕ} {request : PersistRequest}
    {o : Offer} (h : offerOf rt interpret fs name version request = .ok o) (e : ℤ) :
    offerOf rt interpret fs name version { request with expiresAt := e } =
      .ok { o with expiresAt := e } := by
  have hfrom : ∀ validated, offerFrom rt interpret version request validated = .ok o →
      offerFrom rt interpret version { request with expiresAt := e } validated =
        .ok { o with expiresAt := e } := by
    intro validated h
    unfold offerFrom at h ⊢
    dsimp only at h ⊢
    split_ifs at h ⊢
    obtain ⟨archive, harchive, h⟩ := bind_eq_ok.mp h
    obtain ⟨run, hrun, h⟩ := bind_eq_ok.mp h
    obtain ⟨index, hindex, h⟩ := bind_eq_ok.mp h
    cases h
    exact bind_eq_ok.mpr ⟨archive, harchive, bind_eq_ok.mpr ⟨run, hrun,
      bind_eq_ok.mpr ⟨index, hindex, rfl⟩⟩⟩
  unfold offerOf at h ⊢
  obtain ⟨_, hproject, h⟩ := bind_eq_ok.mp h
  refine bind_eq_ok.mpr ⟨_, hproject, ?_⟩
  dsimp only at h ⊢
  cases hsnapshot : validateRunDirectorySnapshot rt fs request.runDirectory retainOptions with
  | none =>
      rw [hsnapshot] at h
      cases h
  | some snapshot =>
      rw [hsnapshot] at h
      dsimp only at h ⊢
      split_ifs at h ⊢
      · exact hfrom snapshot h
      · obtain ⟨validated, hvalidated, h⟩ := bind_eq_ok.mp h
        exact bind_eq_ok.mpr ⟨validated, hvalidated, hfrom validated h⟩

end Sample

/-- The run with an attachment is ingested, and again with a later expiry. -/
theorem ingestions_agree_attached : ∃ o db db', Offered Sample.runtime Sample.interpret o ∧
    Offered Sample.runtime Sample.interpret { o with expiresAt := o.expiresAt + 1 } ∧
    Relation.ReflTransGen
      (WriterStep Sample.runtime Sample.attachedDirectory Sample.interpret) Sample.empty
      ((Sample.empty.to true db (.persist o (.answered (.inserted o.archive.runId 0)))).to false db'
        (.persist { o with expiresAt := o.expiresAt + 1 }
          (.answered (.alreadyPresent o.archive.runId 0 0 false false)))) ∧
    ∃ rows, (db'.runs o.key).committed = some rows ∧ rows.head = o.head 0 ∧
      rows.lines = o.archive.lines ∧ rows.expiresAt = some o.expiresAt := by
  obtain ⟨o, db, hoffer, -, hrun, hrows, hstill⟩ := Sample.attached_archived
  have hagain : Offered Sample.runtime Sample.interpret { o with expiresAt := o.expiresAt + 1 } :=
    ⟨_, _, _, _, Sample.offerOf_expires hoffer _⟩
  have hpresent := @present_alone Bool _ Sample.runtime Sample.attachedDirectory Sample.interpret
  obtain ⟨db', hsecond⟩ := hpresent hstill hagain hrows rfl (fun _ => id) rfl
    (by simp [RunRows.current, Offer.rows, Offer.head])
  obtain ⟨-, -, -, hkept, -⟩ := ingestions_agree Sample.runtime Sample.attachedDirectory
    Sample.interpret Sample.empty_quiet hrun hsecond o.key
  obtain ⟨rows, hrows', hhead, hlines, hexpires⟩ := hkept (o.rows 0) hrows
  exact ⟨o, db, db', ⟨_, _, _, _, hoffer⟩, hagain, hrun.trans hsecond, rows, hrows', hhead, hlines,
    hexpires _ rfl⟩

end Archiving

end QeReport

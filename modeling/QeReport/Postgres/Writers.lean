import QeReport.Postgres.Archiving

/-! # What the writers of the archive keep

A call that works on a run holds it from the statement that takes it to its end
(`Open.held`), and what it leaves there extends what is committed (`Open.slots`).  With the lease,
which keeps every pass away from an ingestion or a rebuild (`Open.lease`), what such a call has
read of a run stays true until it returns (`Open.persist`, `Open.rebuild`). -/

namespace QeReport

open Reclaim (RunKey)

namespace Archiving

open Slots

/-- What is there extends to what is there later. -/
def Grown (c c' : Option RunRows) : Prop := ∀ rows, c = some rows → ∃ rows', c' = some rows' ∧
  rows.Extends rows'

theorem Grown.refl (c : Option RunRows) : Grown c c := fun rows h => ⟨rows, h, RunRows.Extends.refl rows⟩

theorem Grown.trans {c c' c'' : Option RunRows} (h : Grown c c') (h' : Grown c' c'') :
    Grown c c'' := by
  intro rows hrows
  obtain ⟨rows', hrows', hextends⟩ := h rows hrows
  obtain ⟨rows'', hrows'', hextends'⟩ := h' rows' hrows'
  exact ⟨rows'', hrows'', hextends.trans hextends'⟩

/-! ### Statements -/

section statements
variable {ι : Type} [DecidableEq ι]

namespace Db
variable {db db' : Db ι} {p : ι} {k k' : RunKey} {rows rows' : RunRows}

omit [DecidableEq ι] in
theorem leave_runs (db : Db ι) (p : ι) (k : RunKey) (row : Option RunRows) :
    (db.leave p k row).runs k = (db.runs k).leave p row := Function.update_self ..

omit [DecidableEq ι] in
theorem leave_runs_of_ne (db : Db ι) (p : ι) {k k' : RunKey} (row : Option RunRows)
    (hne : k' ≠ k) : (db.leave p k row).runs k' = db.runs k' := Function.update_of_ne hne ..

theorem leave_access (db : Db ι) (p : ι) {k : RunKey} (row : Option RunRows)
    (hfree : (db.runs k).FreeFor p) (k' : RunKey) :
    Access p (db.runs k') ((db.leave p k row).runs k') := by
  by_cases hk : k' = k
  · subst hk
    rw [leave_runs]
    exact .leaves row hfree
  · rw [leave_runs_of_ne db p row hk]
    exact .still

theorem Writes.access (h : db.Writes p k rows rows' db') (k' : RunKey) :
    Access p (db.runs k') (db'.runs k') := by
  rw [h.left]
  exact leave_access db p _ h.free k'

theorem Writes.slot (h : db.Writes p k rows rows' db') :
    db'.runs k = ⟨(db.runs k).committed, some (p, some rows')⟩ := by
  rw [h.left, leave_runs]
  rfl

theorem Writes.slot_of_ne (h : db.Writes p k rows rows' db') (hne : k' ≠ k) :
    db'.runs k' = db.runs k' := by
  rw [h.left, leave_runs_of_ne db p _ hne]

theorem insertBlobs_runs (db : Db ι) (p : ι) (blobs : List RequiredBlob) :
    (db.insertBlobs p blobs).runs = db.runs := rfl

theorem RecordsBlobs.runs {blobs : List RequiredBlob} (h : db.RecordsBlobs p blobs db') :
    db'.runs = db.runs := by rw [h.inserted, insertBlobs_runs]

end Db

end statements

/-! ### Who holds a run -/

/-- The ingestion is in the transaction that holds its run. -/
def Persist.holds : Persist → Bool
  | .recording _ | .writing _ | .relatingAll _ | .retainingNew _ | .indexingNew _
  | .committingNew _ | .surveying _ | .recordingMissing .. | .relatingMissing .. | .retaining ..
  | .indexing .. | .committing .. => true
  | _ => false

/-- The run that a rebuild holds. -/
def Rebuild.runId : Rebuild → Option Text
  | .replacing runId _ _ _ _ | .committing runId _ _ => some runId
  | _ => none

/-- The call holds the run. -/
def Call.Holds (k : RunKey) : Call → Prop
  | .idle => False
  | .persist o pc => pc.holds = true ∧ k = o.key
  | .rebuild r pc => ∃ runId, pc.runId = some runId ∧ k = r.key runId
  | .maintain _ pc => pc = .committing
  | .severed _ => False

/-! ### What an open call knows -/

section knows
variable (rt : Runtime) (fs : FileSystem)
  (interpret : ℕ → ProjectedRun → Except Text DerivedQueryIndex)
variable {ι : Type}

/-- The rows have the stored fingerprint, and it is the one that is offered. -/
structure Agrees (o : Offer) (rows : RunRows) (stored : StoredFingerprint) : Prop where
  found : rows.fingerprintFor rt o.archive.fingerprintVersion = stored
  offered : stored.fingerprint = o.archive.contentFingerprint

/-- The transaction is inserting the run, with these lines and this index so far. -/
structure Inserting (p : ι) (o : Offer) (s : Slot ι RunRows) (n : ℕ) (lines : List ArchivedLine)
    (index : Option IndexHead) : Prop where
  committed : s.committed = none
  held : ∃ rows, s.held = some (p, some rows) ∧ rows.head = o.head n ∧ rows.lines = lines ∧
    rows.index = index

/-- The transaction holds an archived run of the offered content. -/
structure Repairing (p : ι) (o : Offer) (s : Slot ι RunRows) (stored : StoredFingerprint) : Prop where
  committed : ∃ rows, s.committed = some rows ∧ Agrees rt o rows stored
  held : ∃ rows, s.held = some (p, some rows)

/-- What an open ingestion knows of its run. -/
def Persist.Knows (p : ι) (o : Offer) (s : Slot ι RunRows) : Persist → Prop
  | .recomputing head | .recomputingLost head => ∃ rows, s.committed = some rows ∧
      rows.head = head ∧ head.fingerprintVersion ≠ o.archive.fingerprintVersion
  | .relating stored | .locking stored | .holding stored =>
      ∃ rows, s.committed = some rows ∧ Agrees rt o rows stored
  | .recording n | .writing n => Inserting p o s n [] none
  | .relatingAll n | .retainingNew n | .indexingNew n => Inserting p o s n o.archive.lines none
  | .committingNew n => Inserting p o s n o.archive.lines
      (some ⟨o.version, o.archive.contentFingerprint, o.offeredIndex.run⟩)
  | .surveying stored | .recordingMissing stored _ | .relatingMissing stored _
  | .retaining stored _ | .indexing stored _ _ | .committing stored _ _ _ =>
      Repairing rt p o s stored
  | _ => True

/-- What an open rebuild knows of the run it is at. -/
def Rebuild.Knows (r : RebuildRequest) (runs : Table ι RunKey RunRows) : Rebuild → Prop
  | .locking runId _ derived _ _ | .replacing runId _ derived _ _ =>
      ∃ rows, (runs (r.key runId)).committed = some rows ∧
        storedIndex rt fs interpret r.version (r.key runId) rows = some derived
  | _ => True

end knows

/-- What holds of the calls and the runs between any two statements. -/
structure Open {ι : Type} (rt : Runtime) (fs : FileSystem)
    (interpret : ℕ → ProjectedRun → Except Text DerivedQueryIndex) (s : State ι) : Prop where
  lease : ∀ p q, (s.calls p).exclusive = true → q ≠ p →
    (s.calls q).exclusive = false ∧ (s.calls q).shared = false
  held : ∀ k q row, (s.db.runs k).held = some (q, row) → (s.calls q).Holds k
  slots : ∀ k q row, (s.db.runs k).held = some (q, row) → (s.calls q).shared = true →
    Grown (s.db.runs k).committed row ∧ row ≠ none
  persist : ∀ p o pc, s.calls p = .persist o pc → pc.Knows rt p o (s.db.runs o.key)
  rebuild : ∀ p r pc, s.calls p = .rebuild r pc → pc.Knows rt fs interpret r s.db.runs

/-- Every call is still to be made, and no transaction is open. -/
structure Quiet {ι : Type} (s : State ι) : Prop where
  calls : ∀ p, s.calls p = .idle
  runs : ∀ k, (s.db.runs k).held = none
  blobs : ∀ h, (s.db.blobs h).held = none

section keeping
variable {ι : Type} [DecidableEq ι]
variable {rt : Runtime} {fs : FileSystem}
  {interpret : ℕ → ProjectedRun → Except Text DerivedQueryIndex}

omit [DecidableEq ι] in
theorem Quiet.isOpen {s : State ι} (h : Quiet s) : Open rt fs interpret s := by
  refine ⟨fun p q hp => ?_, fun k q row hrow => ?_, fun k q row hrow => ?_, fun p o pc hp => ?_,
    fun p r pc hp => ?_⟩
  · rw [h.calls] at hp
    cases hp
  · rw [h.runs] at hrow
    cases hrow
  · rw [h.runs] at hrow
    cases hrow
  · rw [h.calls] at hp
    cases hp
  · rw [h.calls] at hp
    cases hp

theorem Persist.isOpen_of_holds {pc : Persist} (h : pc.holds = true) : pc.isOpen = true := by
  cases pc <;> simp_all [Persist.holds, Persist.isOpen]

theorem Rebuild.isOpen_of_runId {pc : Rebuild} {runId : Text} (h : pc.runId = some runId) :
    pc.isOpen = true := by
  cases pc <;> simp_all [Rebuild.runId, Rebuild.isOpen]

/-- A call that holds a run is open. -/
theorem Call.Holds.isOpen {k : RunKey} {c : Call} (h : c.Holds k) :
    c.shared = true ∨ c.exclusive = true := by
  cases c with
  | idle => cases h
  | persist o pc =>
      exact .inl (Persist.isOpen_of_holds h.1)
  | rebuild r pc =>
      obtain ⟨runId, hrun, -⟩ := h
      exact .inl (Rebuild.isOpen_of_runId hrun)
  | maintain m pc =>
      rw [show pc = .committing from h]
      exact .inr rfl
  | severed late => cases h

/-! ### What stays true -/

theorem storedIndex_extends {rows rows' : RunRows} (h : rows.Extends rows')
    (version : ℕ) (k : RunKey) :
    storedIndex rt fs interpret version k rows' = storedIndex rt fs interpret version k rows := by
  unfold storedIndex projectStored
  rw [h.stored k, h.head]

theorem Agrees.extends {o : Offer} {rows rows' : RunRows} {stored : StoredFingerprint}
    (h : Agrees rt o rows stored) (hextends : rows.Extends rows') : Agrees rt o rows' stored :=
  ⟨(hextends.fingerprintFor rt _).trans h.found, h.offered⟩

omit [DecidableEq ι] in
theorem Persist.Knows.of_closed {p : ι} {o : Offer} {s : Slot ι RunRows} {pc : Persist}
    (h : pc.isOpen = false) : pc.Knows rt p o s := by
  cases pc with
  | answered | failed => trivial
  | _ => cases h

omit [DecidableEq ι] in
theorem Rebuild.Knows.of_closed {r : RebuildRequest} {runs : Table ι RunKey RunRows} {pc : Rebuild}
    (h : pc.isOpen = false) : pc.Knows rt fs interpret r runs := by
  cases pc with
  | finished => trivial
  | _ => cases h

section stable
variable {p q : ι} {o : Offer} {s s' : Slot ι RunRows}

/-- What an open ingestion knows survives a statement of any other call. -/
theorem Persist.Knows.stable {pc : Persist} (h : pc.Knows rt q o s) (haccess : Access p s s')
    (hne : q ≠ p) (hgrown : Grown s.committed s'.committed) : pc.Knows rt q o s' := by
  by_cases hheld : s.HeldBy q
  · rw [haccess.keeps hheld hne]
    exact h
  · have hinserting : ∀ {n lines index}, ¬ Inserting q o s n lines index := by
      rintro n lines index ⟨-, rows, hrows, -⟩
      exact hheld ⟨_, hrows⟩
    have hrepairing : ∀ {stored}, ¬ Repairing rt q o s stored := by
      rintro stored ⟨-, rows, hrows⟩
      exact hheld ⟨_, hrows⟩
    have hagrees : ∀ {stored}, (∃ rows, s.committed = some rows ∧ Agrees rt o rows stored) →
        ∃ rows, s'.committed = some rows ∧ Agrees rt o rows stored := by
      rintro stored ⟨rows, hrows, hagrees⟩
      obtain ⟨rows', hrows', hextends⟩ := hgrown rows hrows
      exact ⟨rows', hrows', hagrees.extends hextends⟩
    have hhead : ∀ {head}, (∃ rows, s.committed = some rows ∧ rows.head = head ∧
          head.fingerprintVersion ≠ o.archive.fingerprintVersion) →
        ∃ rows, s'.committed = some rows ∧ rows.head = head ∧
          head.fingerprintVersion ≠ o.archive.fingerprintVersion := by
      rintro head ⟨rows, hrows, rfl, hversion⟩
      obtain ⟨rows', hrows', hextends⟩ := hgrown rows hrows
      exact ⟨rows', hrows', hextends.head, hversion⟩
    cases pc with
    | recomputing | recomputingLost => exact hhead h
    | relating | locking | holding => exact hagrees h
    | recording | writing | relatingAll | retainingNew | indexingNew | committingNew =>
        exact absurd h hinserting
    | surveying | recordingMissing | relatingMissing | retaining | indexing | committing =>
        exact absurd h hrepairing
    | _ => trivial

omit [DecidableEq ι] in
theorem Rebuild.Knows.stable {r : RebuildRequest} {pc : Rebuild} {runs runs' : Table ι RunKey RunRows}
    (h : pc.Knows rt fs interpret r runs) (hgrown : ∀ k, Grown (runs k).committed (runs' k).committed) :
    pc.Knows rt fs interpret r runs' := by
  have hstored : ∀ {runId derived}, (∃ rows, (runs (r.key runId)).committed = some rows ∧
        storedIndex rt fs interpret r.version (r.key runId) rows = some derived) →
      ∃ rows, (runs' (r.key runId)).committed = some rows ∧
        storedIndex rt fs interpret r.version (r.key runId) rows = some derived := by
    rintro runId derived ⟨rows, hrows, hderived⟩
    obtain ⟨rows', hrows', hextends⟩ := hgrown _ rows hrows
    exact ⟨rows', hrows', (storedIndex_extends hextends _ _).trans hderived⟩
  cases pc with
  | locking | replacing => exact hstored h
  | _ => trivial

end stable

/-! ### One step -/

/-- A statement of the call `p`: what it does to the runs, and what the call holds after it. -/
structure Moves (s : State ι) (p : ι) (db : Db ι) (c : Call) : Prop where
  access : ∀ k, Access p (s.db.runs k) (db.runs k)
  held : ∀ k row, (db.runs k).held = some (p, row) → c.Holds k
  slots : ∀ k row, (db.runs k).held = some (p, row) → c.shared = true →
    Grown (db.runs k).committed row ∧ row ≠ none

/-- What the lease lets a call become. -/
structure Leased (s : State ι) (p : ι) (c : Call) : Prop where
  exclusive : c.exclusive = true → (s.calls p).exclusive = true ∨
    ∀ q, (s.calls q).exclusive = false ∧ (s.calls q).shared = false
  shared : c.shared = true → (s.calls p).shared = true ∨ ∀ q, (s.calls q).exclusive = false

section moves
variable {s : State ι} {p : ι} {db : Db ι} {c : Call}

theorem State.to_self (s : State ι) (p : ι) (db : Db ι) (c : Call) : (s.to p db c).calls p = c :=
  Function.update_self ..

theorem State.to_of_ne (s : State ι) {p q : ι} (db : Db ι) (c : Call) (hne : q ≠ p) :
    (s.to p db c).calls q = s.calls q := Function.update_of_ne hne ..

/-- A call that is not a pass lets every run only grow. -/
theorem Open.grown (h : Open rt fs interpret s) (haccess : ∀ k, Access p (s.db.runs k) (db.runs k))
    (hp : (s.calls p).exclusive = false) (k : RunKey) :
    Grown (s.db.runs k).committed (db.runs k).committed := by
  refine grows Grown.refl (haccess k) fun row hrow => ?_
  rcases (h.held k p row hrow).isOpen with hshared | hexclusive
  · exact (h.slots k p row hrow hshared).1
  · rw [hp] at hexclusive
    cases hexclusive

theorem Open.moves (h : Open rt fs interpret s) (hmoves : Moves s p db c) (hleased : Leased s p c)
    (hpersist : ∀ o pc, c = .persist o pc → pc.Knows rt p o (db.runs o.key))
    (hrebuild : ∀ r pc, c = .rebuild r pc → pc.Knows rt fs interpret r db.runs) :
    Open rt fs interpret (s.to p db c) := by
  have hself := s.to_self p db c
  have hother : ∀ {q}, q ≠ p → (s.to p db c).calls q = s.calls q := s.to_of_ne db c
  -- a pass is alone, so that any other open call sees the runs only grow
  have hgrown : ∀ {q}, q ≠ p → (s.calls q).shared = true →
      ∀ k, Grown (s.db.runs k).committed (db.runs k).committed := by
    intro q hne hq
    refine h.grown hmoves.access ?_
    cases hexclusive : (s.calls p).exclusive with
    | false => rfl
    | true =>
        rw [(h.lease p q hexclusive hne).2] at hq
        cases hq
  refine ⟨fun a b ha hne => ?_, fun k q row hrow => ?_, fun k q row hrow hq => ?_,
    fun q o pc hq => ?_, fun q r pc hq => ?_⟩
  · by_cases hap : a = p
    · subst hap
      rw [hself] at ha
      rw [hother hne]
      rcases hleased.exclusive ha with hold | hnone
      · exact h.lease a b hold hne
      · exact hnone b
    · rw [hother hap] at ha
      by_cases hbp : b = p
      · subst hbp
        rw [hself]
        obtain ⟨hexclusive, hshared⟩ := h.lease a b ha hne
        constructor
        · by_contra hc
          rcases hleased.exclusive (Bool.not_eq_false _ ▸ hc) with hold | hnone
          · rw [hexclusive] at hold
            cases hold
          · rw [(hnone a).1] at ha
            cases ha
        · by_contra hc
          rcases hleased.shared (Bool.not_eq_false _ ▸ hc) with hold | hnone
          · rw [hshared] at hold
            cases hold
          · rw [hnone a] at ha
            cases ha
      · rw [hother hbp]
        exact h.lease a b ha hne
  · by_cases hqp : q = p
    · subst hqp
      rw [hself]
      exact hmoves.held k row hrow
    · rw [hother hqp]
      exact h.held k q row ((hmoves.access k).held hrow hqp)
  · by_cases hqp : q = p
    · subst hqp
      rw [hself] at hq
      exact hmoves.slots k row hrow hq
    · rw [hother hqp] at hq
      have hold := (hmoves.access k).held hrow hqp
      have hsame : db.runs k = s.db.runs k := (hmoves.access k).keeps ⟨row, hold⟩ hqp
      change Grown (db.runs k).committed row ∧ _
      rw [hsame]
      exact h.slots k q row hold hq
  · by_cases hqp : q = p
    · subst hqp
      rw [hself] at hq
      exact hpersist o pc hq
    · rw [hother hqp] at hq
      have hknows := h.persist q o pc hq
      by_cases hopen : (s.calls q).shared = true
      · exact hknows.stable (hmoves.access _) hqp (hgrown hqp hopen _)
      · rw [hq, Bool.not_eq_true] at hopen
        exact Persist.Knows.of_closed hopen
  · by_cases hqp : q = p
    · subst hqp
      rw [hself] at hq
      exact hrebuild r pc hq
    · rw [hother hqp] at hq
      have hknows := h.rebuild q r pc hq
      by_cases hopen : (s.calls q).shared = true
      · exact hknows.stable (hgrown hqp hopen)
      · rw [hq, Bool.not_eq_true] at hopen
        exact Rebuild.Knows.of_closed hopen

/-- The run that the call holds is what its transaction left; a statement that leaves no other
rows leaves the run as it is. -/
theorem Moves.still (h : Open rt fs interpret s) (hp : (s.calls p).shared = true)
    (hruns : db.runs = s.db.runs) (hholds : ∀ k, (s.calls p).Holds k → c.Holds k) :
    Moves s p db c := by
  refine ⟨fun k => ?_, fun k row hrow => ?_, fun k row hrow _ => ?_⟩
  · rw [hruns]
    exact .still
  · rw [hruns] at hrow
    exact hholds k (h.held k p row hrow)
  · rw [hruns] at hrow ⊢
    exact h.slots k p row hrow hp

/-- The end of a transaction. -/
theorem Moves.finished (s : State ι) (p : ι) (commit : Bool) (c : Call) :
    Moves s p (s.db.finish p commit) c := by
  have hnone : ∀ k row, ((s.db.finish p commit).runs k).held ≠ some (p, row) := fun k row hrow =>
    Slot.finish_not_held p commit (s.db.runs k) ⟨row, hrow⟩
  exact ⟨fun k => .finishes commit, fun k row hrow => absurd hrow (hnone k row),
    fun k row hrow => absurd hrow (hnone k row)⟩

/-- Rows that a call leaves under a run. -/
theorem Moves.left (h : Open rt fs interpret s) (hp : (s.calls p).shared = true) {k : RunKey}
    {rows : RunRows} (hslot : db.runs k = ⟨(s.db.runs k).committed, some (p, some rows)⟩)
    (hothers : ∀ k', k' ≠ k → db.runs k' = s.db.runs k') (hfree : (s.db.runs k).FreeFor p)
    (hgrown : Grown (s.db.runs k).committed (some rows)) (hk : c.Holds k)
    (hholds : ∀ k', (s.calls p).Holds k' → c.Holds k') : Moves s p db c := by
  refine ⟨fun k' => ?_, fun k' row hrow => ?_, fun k' row hrow _ => ?_⟩
  · by_cases hk' : k' = k
    · rw [hk', hslot]
      exact .leaves _ hfree
    · rw [hothers k' hk']
      exact .still
  · by_cases hk' : k' = k
    · rw [hk']
      exact hk
    · rw [hothers k' hk'] at hrow
      exact hholds k' (h.held k' p row hrow)
  · by_cases hk' : k' = k
    · subst hk'
      rw [hslot] at hrow ⊢
      obtain rfl : some rows = row := congrArg Prod.snd (Option.some.inj hrow)
      exact ⟨hgrown, Option.some_ne_none rows⟩
    · rw [hothers k' hk'] at hrow ⊢
      exact h.slots k' p row hrow hp

/-- What a call sees of a run extends what is committed. -/
theorem Open.seen (h : Open rt fs interpret s) (hp : (s.calls p).shared = true) {k : RunKey}
    {rows : RunRows} (hseen : (s.db.runs k).seenBy p = some rows) :
    Grown (s.db.runs k).committed (some rows) := by
  by_cases hheld : (s.db.runs k).HeldBy p
  · obtain ⟨row, hrow⟩ := hheld
    rw [Slot.seenBy_of_held hrow] at hseen
    rw [← hseen]
    exact (h.slots k p row hrow hp).1
  · rw [Slot.seenBy_of_not_held hheld] at hseen
    rw [hseen]
    exact Grown.refl _

theorem Moves.writes (h : Open rt fs interpret s) (hp : (s.calls p).shared = true) {k : RunKey}
    {rows rows' : RunRows} (hwrites : s.db.Writes p k rows rows' db)
    (hextends : (s.db.runs k).committed = none ∨ rows.Extends rows') (hk : c.Holds k)
    (hholds : ∀ k', (s.calls p).Holds k' → c.Holds k') : Moves s p db c := by
  refine .left h hp hwrites.slot (fun k' hne => hwrites.slot_of_ne hne) hwrites.free ?_ hk hholds
  rcases hextends with hnone | hextends
  · intro r hr
    rw [hnone] at hr
    cases hr
  · exact (h.seen hp hwrites.seen).trans fun r hr => ⟨rows', rfl, Option.some.inj hr ▸ hextends⟩

end moves

/-! ### The steps of an ingestion -/

section persist
variable {s : State ι} {p : ι} {o : Offer} {db : Db ι}

omit [DecidableEq ι] in
/-- A look at the fingerprint ends in a conflict, or in rows of the offered content. -/
theorem knows_compare {slot : Slot ι RunRows} {stored : StoredFingerprint}
    {next : StoredFingerprint → Persist}
    (hnext : (∃ rows, slot.committed = some rows ∧ Agrees rt o rows stored) →
      (next stored).Knows rt p o slot) {rows : RunRows} (hrows : slot.committed = some rows)
    (hfound : rows.fingerprintFor rt o.archive.fingerprintVersion = stored) :
    (o.compare stored next).Knows rt p o slot := by
  unfold Offer.compare
  split_ifs with hsame
  · trivial
  · exact hnext ⟨rows, hrows, hfound, not_not.mp hsame⟩

theorem fingerprintFor_same {rows : RunRows} {version : ℕ}
    (h : rows.head.fingerprintVersion = version) : rows.fingerprintFor rt version =
      ⟨rows.head.contentFingerprint, rows.head.ingestionSequence⟩ := by
  rw [RunRows.fingerprintFor, if_pos h]

theorem fingerprintFor_older {rows : RunRows} {version : ℕ}
    (h : rows.head.fingerprintVersion ≠ version) : rows.fingerprintFor rt version =
      ⟨contentFingerprint rt (rows.lines.map (fun line => line.toValidatedSourceLine)),
        rows.head.ingestionSequence⟩ := by
  rw [RunRows.fingerprintFor, if_neg h]
  rfl

theorem PersistStep.isOpen {pc pc' : Persist} {db₀ : Db ι}
    (h : PersistStep rt fs interpret p o db₀ pc db pc') : pc.isOpen = true := by
  cases h with
  | fails hopen => exact hopen
  | _ => rfl

/-- The rows of an insert, after a statement. -/
theorem Inserting.writes {s : State ι} {n : ℕ} {lines lines' : List ArchivedLine}
    {index index' : Option IndexHead} {rows rows' : RunRows}
    (h : Inserting p o (s.db.runs o.key) n lines index)
    (hwrites : s.db.Writes p o.key rows rows' db) (hhead : rows'.head = rows.head)
    (hlines : rows.lines = lines → rows'.lines = lines')
    (hindex : rows.index = index → rows'.index = index') :
    Inserting p o (db.runs o.key) n lines' index' := by
  obtain ⟨hcommitted, r, hr, hrhead, hrlines, hrindex⟩ := h
  have hseen := hwrites.seen
  rw [Slot.seenBy_of_held hr] at hseen
  obtain rfl := Option.some.inj hseen
  rw [hwrites.slot]
  exact ⟨hcommitted, rows', rfl, hhead.trans hrhead, hlines hrlines, hindex hrindex⟩

theorem Repairing.writes {s : State ι} {stored : StoredFingerprint} {rows rows' : RunRows}
    (h : Repairing rt p o (s.db.runs o.key) stored)
    (hwrites : s.db.Writes p o.key rows rows' db) : Repairing rt p o (db.runs o.key) stored := by
  rw [hwrites.slot]
  exact ⟨h.committed, rows', rfl⟩

/-- A transaction that holds nothing takes a run of the offered content. -/
theorem Repairing.taken {s : State ι} {stored : StoredFingerprint} {rows rows' : RunRows}
    (h : ∃ rows, (s.db.runs o.key).committed = some rows ∧ Agrees rt o rows stored)
    (hwrites : s.db.Writes p o.key rows rows' db) : Repairing rt p o (db.runs o.key) stored := by
  rw [hwrites.slot]
  exact ⟨h, rows', rfl⟩

/-- Every statement of an ingestion keeps what holds of it. -/
theorem PersistStep.moves {pc pc' : Persist} (h : Open rt fs interpret s)
    (hp : s.calls p = .persist o pc) (hstep : PersistStep rt fs interpret p o s.db pc db pc') :
    Moves s p db (.persist o pc') ∧ pc'.Knows rt p o (db.runs o.key) := by
  have hshared : (s.calls p).shared = true := by
    rw [hp]
    exact hstep.isOpen
  have hknows := h.persist p o pc hp
  -- a statement of a transaction that holds the run, before and after it
  have hinside : pc'.holds = true → ∀ k, (s.calls p).Holds k → (Call.persist o pc').Holds k := by
    intro hholds k hk
    rw [hp] at hk
    exact ⟨hholds, hk.2⟩
  -- a statement outside of it
  have houtside : pc.holds = false → ∀ {c : Call} k, (s.calls p).Holds k → c.Holds k := by
    intro hholds c k hk
    rw [hp] at hk
    rw [hk.1] at hholds
    cases hholds
  have hstill : ∀ {db' : Db ι} {pc'' : Persist}, pc.holds = false → db'.runs = s.db.runs →
      Moves s p db' (.persist o pc'') := fun hholds hruns =>
    .still h hshared hruns (houtside hholds)
  cases hstep with
  | absent hnone => exact ⟨hstill rfl rfl, trivial⟩
  | looks hrows hversion =>
      exact ⟨hstill rfl rfl, knows_compare id hrows (fingerprintFor_same hversion)⟩
  | looksOlder hrows hversion => exact ⟨hstill rfl rfl, _, hrows, rfl, hversion⟩
  | recomputes hlines =>
      obtain ⟨rows, hrows, rfl, hversion⟩ := hknows
      rw [hrows] at hlines
      subst hlines
      exact ⟨hstill rfl rfl, knows_compare id hrows (fingerprintFor_older hversion)⟩
  | relates =>
      refine ⟨hstill rfl rfl, ?_⟩
      split_ifs
      · trivial
      · exact hknows
  | locks hwrites =>
      exact ⟨.writes h hshared hwrites (.inr (.refl _)) ⟨rfl, rfl⟩ (houtside rfl),
        .taken hknows hwrites⟩
  | gone => exact ⟨hstill rfl rfl, trivial⟩
  | publishes => exact ⟨hstill rfl rfl, trivial⟩
  | published => exact ⟨hstill rfl rfl, trivial⟩
  | claims hfree hnone =>
      have hslot := Db.leave_runs { s.db with sequence := s.db.sequence + 1 } p o.key
        (some ⟨o.head s.db.sequence, [], [], none, none, []⟩)
      refine ⟨.left h hshared hslot (fun k' hne => Db.leave_runs_of_ne _ p _ hne) hfree ?_ ⟨rfl, rfl⟩
        (houtside rfl), ?_⟩
      · intro rows hrows
        rw [hnone] at hrows
        cases hrows
      · change Inserting p o _ _ _ _
        rw [hslot]
        exact ⟨hnone, _, rfl, rfl, rfl, rfl⟩
  | loses => exact ⟨hstill rfl rfl, trivial⟩
  | records hrecords =>
      refine ⟨.still h hshared hrecords.runs (hinside rfl), ?_⟩
      rw [hrecords.runs]
      exact hknows
  | writes hwrites =>
      exact ⟨.writes h hshared hwrites (.inl hknows.committed) ⟨rfl, rfl⟩ (hinside rfl),
        hknows.writes hwrites rfl (fun _ => rfl) id⟩
  | relatesAll hwrites =>
      exact ⟨.writes h hshared hwrites (.inl hknows.committed) ⟨rfl, rfl⟩ (hinside rfl),
        hknows.writes hwrites rfl id id⟩
  | retainsNew hwrites =>
      have hextends := RunRows.recordRetention_extends o.expiresAt
      refine ⟨.writes h hshared hwrites (.inl hknows.committed) ⟨rfl, rfl⟩ (hinside rfl),
        hknows.writes hwrites (hextends _).head (fun hl => ((hextends _).lines).trans hl) ?_⟩
      unfold recordRetention
      split <;> exact id
  | indexesNew hreplaced hwrites =>
      have hrows := RunRows.replaceQueryIndex_eq_ok hreplaced
      subst hrows
      exact ⟨.writes h hshared hwrites (.inl hknows.committed) ⟨rfl, rfl⟩ (hinside rfl),
        hknows.writes hwrites rfl id (fun _ => rfl)⟩
  | inserts | insertsUnheard => exact ⟨.finished s p true _, trivial⟩
  | looksLost hrows hversion =>
      exact ⟨hstill rfl rfl, knows_compare id hrows (fingerprintFor_same hversion)⟩
  | looksLostOlder hrows hversion => exact ⟨hstill rfl rfl, _, hrows, rfl, hversion⟩
  | recomputesLost hlines =>
      obtain ⟨rows, hrows, rfl, hversion⟩ := hknows
      rw [hrows] at hlines
      subst hlines
      exact ⟨hstill rfl rfl, knows_compare id hrows (fingerprintFor_older hversion)⟩
  | holds hwrites =>
      exact ⟨.writes h hshared hwrites (.inr (.refl _)) ⟨rfl, rfl⟩ (houtside rfl),
        .taken hknows hwrites⟩
  | surveys =>
      split_ifs at hinside ⊢
      · exact ⟨.still h hshared rfl (hinside rfl), hknows⟩
      · exact ⟨.still h hshared rfl (hinside rfl), hknows⟩
  | recordsMissing hrecords =>
      refine ⟨.still h hshared hrecords.runs (hinside rfl), ?_⟩
      rw [hrecords.runs]
      exact hknows
  | relatesMissing hwrites =>
      exact ⟨.writes h hshared hwrites (.inr (RunRows.relateBlobs_extends _ _)) ⟨rfl, rfl⟩
        (hinside rfl), hknows.writes hwrites⟩
  | retains hwrites =>
      exact ⟨.writes h hshared hwrites (.inr (RunRows.recordRetention_extends _ _)) ⟨rfl, rfl⟩
        (hinside rfl), hknows.writes hwrites⟩
  | repairs hrepaired hwrites =>
      exact ⟨.writes h hshared hwrites (.inr (RunRows.repairStoredIndex_extends hrepaired))
        ⟨rfl, rfl⟩ (hinside rfl), hknows.writes hwrites⟩
  | commits | commitsUnheard => exact ⟨.finished s p true _, trivial⟩
  | fails => exact ⟨.finished s p false _, trivial⟩

end persist

/-! ### The steps of a rebuild and of a pass -/

section others
variable {s : State ι} {p : ι} {db : Db ι}

theorem RebuildStep.isOpen {r : RebuildRequest} {pc pc' : Rebuild} {db₀ : Db ι}
    (h : RebuildStep rt fs interpret p r db₀ pc db pc') : pc.isOpen = true := by
  cases h with
  | fails hopen => exact hopen
  | _ => rfl

theorem PassStep.isOpen {m : PassRequest} {pc pc' : Pass} {db₀ : Db ι}
    (h : PassStep p m db₀ pc db pc') : pc.isOpen = true := by
  cases h with
  | fails hopen => exact hopen
  | _ => rfl

/-- Every statement of a rebuild keeps what holds of it. -/
theorem RebuildStep.moves {r : RebuildRequest} {pc pc' : Rebuild} (h : Open rt fs interpret s)
    (hp : s.calls p = .rebuild r pc) (hstep : RebuildStep rt fs interpret p r s.db pc db pc') :
    Moves s p db (.rebuild r pc') ∧ pc'.Knows rt fs interpret r db.runs := by
  have hshared : (s.calls p).shared = true := by
    rw [hp]
    exact hstep.isOpen
  have hknows := h.rebuild p r pc hp
  have houtside : pc.runId = none → ∀ {c : Call} k, (s.calls p).Holds k → c.Holds k := by
    intro hnone c k hk
    rw [hp] at hk
    obtain ⟨runId, hrun, -⟩ := hk
    rw [hnone] at hrun
    cases hrun
  have hinside : pc'.runId = pc.runId → ∀ k, (s.calls p).Holds k → (Call.rebuild r pc').Holds k := by
    intro hsame k hk
    rw [hp] at hk
    obtain ⟨runId, hrun, hkey⟩ := hk
    exact ⟨runId, hsame.trans hrun, hkey⟩
  have hstored : ∀ {runId : Text} {rows rows' : RunRows} {derived : DerivedQueryIndex},
      (∃ rows, (s.db.runs (r.key runId)).committed = some rows ∧
        storedIndex rt fs interpret r.version (r.key runId) rows = some derived) →
      s.db.Writes p (r.key runId) rows rows' db →
      ∃ rows, (db.runs (r.key runId)).committed = some rows ∧
        storedIndex rt fs interpret r.version (r.key runId) rows = some derived := by
    intro runId rows rows' derived hex hwrites
    rw [hwrites.slot]
    exact hex
  cases hstep with
  | selects => exact ⟨.still h hshared rfl (houtside rfl), trivial⟩
  | gone => exact ⟨.still h hshared rfl (houtside rfl), trivial⟩
  | reads hrows hderived => exact ⟨.still h hshared rfl (houtside rfl), _, hrows, hderived⟩
  | cannotRead => exact ⟨.still h hshared rfl (houtside rfl), trivial⟩
  | locks hwrites =>
      exact ⟨.writes h hshared hwrites (.inr (.refl _)) ⟨_, rfl, rfl⟩ (houtside rfl),
        hstored hknows hwrites⟩
  | vanished => exact ⟨.still h hshared rfl (houtside rfl), trivial⟩
  | replaces hreplaced hwrites =>
      exact ⟨.writes h hshared hwrites (.inr (RunRows.replaceQueryIndex_extends hreplaced))
        ⟨_, rfl, rfl⟩ (hinside rfl), trivial⟩
  | commits | commitsUnheard => exact ⟨.finished s p true _, trivial⟩
  | cannotLock => exact ⟨.finished s p false _, trivial⟩
  | cannotReplace => exact ⟨.finished s p false _, trivial⟩
  | cannotCommit => exact ⟨.finished s p false _, trivial⟩
  | ends => exact ⟨.still h hshared rfl (houtside rfl), trivial⟩
  | fails => exact ⟨.finished s p false _, trivial⟩

/-- A pass is about a run only while its batch is being deleted. -/
theorem PassStep.moves {m : PassRequest} {pc pc' : Pass} (h : Open rt fs interpret s)
    (hp : s.calls p = .maintain m pc) (hstep : PassStep p m s.db pc db pc') :
    Moves s p db (.maintain m pc') := by
  have hstill : ∀ {db' : Db ι}, db'.runs = s.db.runs → pc ≠ .committing →
      Moves s p db' (.maintain m pc') := by
    intro db' hruns hne
    refine ⟨fun k => ?_, fun k row hrow => ?_, fun _ _ _ hshared => by cases hshared⟩
    · rw [hruns]
      exact .still
    · rw [hruns] at hrow
      have hk := h.held k p row hrow
      rw [hp] at hk
      exact absurd hk hne
  cases hstep with
  | selects => exact hstill rfl (by simp)
  | @deletes runs hfree =>
      refine ⟨fun k => ?_, fun k row hrow => rfl, fun _ _ _ hshared => by cases hshared⟩
      rw [Db.deleteRuns]
      dsimp only
      split_ifs with hk
      · exact .leaves _ (hfree k hk.1)
      · exact .still
  | commits => exact .finished s p true _
  | batchFails => exact .finished s p false _
  | commitFails => exact .finished s p false _
  | reclaims => exact hstill rfl (by simp)
  | uncatalogued => exact hstill rfl (by simp)
  | removes => exact hstill rfl (by simp)
  | keeps => exact hstill rfl (by simp)
  | removed => exact hstill rfl (by simp)
  | ends => exact hstill rfl (by simp)
  | fails => exact .finished s p false _

end others

/-! ### Runs -/

section run
variable {s s' : State ι}

/-- A call that is made holds nothing yet. -/
theorem Moves.begins (h : Open rt fs interpret s) {p : ι} (hp : s.calls p = .idle) (c : Call) :
    Moves s p s.db c := by
  have hnone : ∀ k row, (s.db.runs k).held ≠ some (p, row) := by
    intro k row hrow
    have hk := h.held k p row hrow
    rw [hp] at hk
    exact hk
  exact ⟨fun k => .still, fun k row hrow => absurd hrow (hnone k row),
    fun k row hrow => absurd hrow (hnone k row)⟩

omit [DecidableEq ι] in
/-- A call without its connection changes no row. -/
theorem LateStep.runs {db db' : Db ι} {late late' : Late} (h : LateStep db late db' late') :
    db'.runs = db.runs := by
  cases h <;> rfl

omit [DecidableEq ι] in
theorem LateStep.blobs {db db' : Db ι} {late late' : Late} (h : LateStep db late db' late') :
    db'.blobs = db.blobs := by
  cases h <;> rfl

/-- A call without its connection holds nothing. -/
theorem Moves.severed (h : Open rt fs interpret s) {p : ι} {late late' : Late} {db : Db ι}
    (hp : s.calls p = .severed late) (hruns : db.runs = s.db.runs) :
    Moves s p db (.severed late') := by
  have hnone : ∀ k row, (db.runs k).held ≠ some (p, row) := by
    intro k row hrow
    rw [hruns] at hrow
    have hk := h.held k p row hrow
    rw [hp] at hk
    exact hk
  refine ⟨fun k => ?_, fun k row hrow => absurd hrow (hnone k row),
    fun k row hrow => absurd hrow (hnone k row)⟩
  rw [hruns]
  exact .still

/-- The call of a step, with what it does. -/
theorem Step.cases_moves (h : Open rt fs interpret s) (hstep : Step rt fs interpret s s') :
    ∃ p db c, s' = s.to p db c ∧ Moves s p db c ∧ Leased s p c ∧
      (∀ o pc, c = .persist o pc → pc.Knows rt p o (db.runs o.key)) ∧
      ∀ r pc, c = .rebuild r pc → pc.Knows rt fs interpret r db.runs := by
  cases hstep with
  | @ingest p o hp hoffered hlease =>
      refine ⟨p, _, _, rfl, .begins h hp _, ⟨fun hc => (by cases hc), fun _ => .inr hlease⟩, fun o' pc hc => ?_,
        fun r pc hc => (by cases hc)⟩
      cases hc
      trivial
  | @persist p o pc pc' db hp hstep =>
      obtain ⟨hmoves, hknows⟩ := hstep.moves h hp
      refine ⟨p, _, _, rfl, hmoves, ⟨fun hc => (by cases hc), fun _ => .inl ?_⟩, fun o' pc'' hc => ?_,
        fun r pc hc => (by cases hc)⟩
      · rw [hp]
        exact hstep.isOpen
      · cases hc
        exact hknows
  | @reindex p r hp hlease =>
      refine ⟨p, _, _, rfl, .begins h hp _, ⟨fun hc => (by cases hc), fun _ => .inr hlease⟩,
        fun o pc hc => (by cases hc), fun r' pc hc => ?_⟩
      cases hc
      trivial
  | @rebuild p r pc pc' db hp hstep =>
      obtain ⟨hmoves, hknows⟩ := hstep.moves h hp
      refine ⟨p, _, _, rfl, hmoves, ⟨fun hc => (by cases hc), fun _ => .inl ?_⟩,
        fun o pc hc => (by cases hc), fun r' pc'' hc => ?_⟩
      · rw [hp]
        exact hstep.isOpen
      · cases hc
        exact hknows
  | @sweep p m hp hlease =>
      exact ⟨p, _, _, rfl, .begins h hp _, ⟨fun _ => .inr hlease, fun hc => (by cases hc)⟩,
        fun o pc hc => (by cases hc), fun r pc hc => (by cases hc)⟩
  | @maintain p m pc pc' db hp hstep =>
      refine ⟨p, _, _, rfl, hstep.moves h hp, ⟨fun _ => .inl ?_, fun hc => (by cases hc)⟩,
        fun o pc hc => (by cases hc), fun r pc hc => (by cases hc)⟩
      rw [hp]
      exact hstep.isOpen
  | @sever p late hlate =>
      exact ⟨p, _, _, rfl, .finished s p false _,
        ⟨fun hc => (by cases hc), fun hc => (by cases hc)⟩,
        fun o pc hc => (by cases hc), fun r pc hc => (by cases hc)⟩
  | @late p late late' db hp hstep =>
      exact ⟨p, _, _, rfl, .severed h hp hstep.runs,
        ⟨fun hc => (by cases hc), fun hc => (by cases hc)⟩,
        fun o pc hc => (by cases hc), fun r pc hc => (by cases hc)⟩

/-- What holds of the calls is kept by every step. -/
theorem Step.isOpen (h : Open rt fs interpret s) (hstep : Step rt fs interpret s s') :
    Open rt fs interpret s' := by
  obtain ⟨p, db, c, rfl, hmoves, hleased, hpersist, hrebuild⟩ := hstep.cases_moves h
  exact h.moves hmoves hleased hpersist hrebuild

/-- It holds in every state that is reached. -/
theorem isOpen_of_run (hquiet : Quiet s)
    (h : Relation.ReflTransGen (Step rt fs interpret) s s') : Open rt fs interpret s' := by
  induction h with
  | refl => exact hquiet.isOpen
  | tail _ hstep ih => exact hstep.isOpen ih

end run

end keeping

end Archiving

end QeReport

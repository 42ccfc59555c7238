import QeReport.Postgres.Freshness

/-! # Sizes in the catalog

A transaction relates a run to its blobs when it has read their declared sizes in the catalog, and
a pass takes a row out of the catalog only while no archived run relates to the hash.  So the
catalog gives every archived run the sizes that its source declares (`Sized`), whatever fails and
whatever connections are lost: a call that goes on without its connection touches no row. -/

namespace QeReport

open Reclaim (RunKey)

namespace Archiving

open Slots

/-! ### What the catalog shows -/

/-- The sizes that are committed. -/
def Db.sizes {ι : Type} (db : Db ι) (h : Text) : Option ℤ := (db.blobs h).committed

/-- The sizes that a transaction sees. -/
def Db.sizesSeenBy {ι : Type} [DecidableEq ι] (db : Db ι) (p : ι) (h : Text) : Option ℤ :=
  (db.blobs h).seenBy p

/-- Open transactions have only inserted into the catalog. -/
def Db.InsertsOnly {ι : Type} (db : Db ι) : Prop := ∀ h, (db.blobs h).InsertOnly

/-- The transaction sees the sizes of the blobs. -/
def Db.Catalogues {ι : Type} [DecidableEq ι] (db : Db ι) (p : ι) (blobs : List RequiredBlob) :
    Prop :=
  ∀ b ∈ blobs, db.sizesSeenBy p b.sha256 = some b.sizeBytes

section catalog
variable {ι : Type} [DecidableEq ι] {db db' : Db ι} {p q : ι} {hash : Text} {n : ℤ}
  {blobs : List RequiredBlob}

namespace Db.InsertsOnly

theorem seen (h : db.InsertsOnly) (p : ι) (hsize : db.sizes hash = some n) :
    db.sizesSeenBy p hash = some n :=
  (h hash).seenBy_of_committed hsize p

theorem finish (h : db.InsertsOnly) (p : ι) (commit : Bool) : (db.finish p commit).InsertsOnly :=
  fun hash => (h hash).finish p commit

theorem sizes_finish (h : db.InsertsOnly) (p : ι) (commit : Bool) (hsize : db.sizes hash = some n) :
    (db.finish p commit).sizes hash = some n :=
  (h hash).committed_finish_of_committed hsize commit

theorem seen_finish (h : db.InsertsOnly) (commit : Bool) (hne : q ≠ p)
    (hsize : db.sizesSeenBy q hash = some n) : (db.finish p commit).sizesSeenBy q hash = some n :=
  (h hash).seenBy_finish hne hsize commit

end Db.InsertsOnly

omit [DecidableEq ι] in
/-- What a statement leaves under a run is not committed yet. -/
theorem Db.leave_committed (db : Db ι) (p : ι) (k : RunKey) (row : Option RunRows) (k' : RunKey) :
    ((db.leave p k row).runs k').committed = (db.runs k').committed := by
  by_cases hk : k' = k
  · subst hk
    rw [Db.leave_runs, Slot.leave_committed]
  · rw [Db.leave_runs_of_ne db p row hk]

/-- What a transaction sees is committed with it. -/
theorem Db.sizes_commit (hsize : db.sizesSeenBy p hash = some n) :
    (db.finish p true).sizes hash = some n :=
  Slot.InsertOnly.committed_finish hsize

/-- An insert into the catalog, hash by hash. -/
theorem Db.RecordsBlobs.cases (h : db.RecordsBlobs p blobs db') (hash : Text) :
    db'.blobs hash = db.blobs hash ∨ ∃ n : ℤ, (db.blobs hash).FreeFor p ∧
      (db.blobs hash).seenBy p = none ∧ db'.blobs hash = (db.blobs hash).leave p (some n) := by
  rw [h.inserted, Db.insertBlobs]
  dsimp only
  cases hseen : (db.blobs hash).seenBy p with
  | some n => exact .inl rfl
  | none =>
      cases hfind : blobs.find? (fun b => b.sha256 = hash) with
      | none => exact .inl rfl
      | some b =>
          have hb : b.sha256 = hash := of_decide_eq_true (List.find?_some hfind :)
          have hfree := h.free b (List.mem_of_find?_eq_some hfind)
          rw [hb] at hfree
          exact .inr ⟨b.sizeBytes, hfree, rfl, rfl⟩

theorem Db.InsertsOnly.records (h : db.InsertsOnly) (hrecords : db.RecordsBlobs p blobs db') :
    db'.InsertsOnly := by
  intro hash
  rcases hrecords.cases hash with hsame | ⟨m, hfree, hnone, hleft⟩
  · rw [hsame]
    exact h hash
  · rw [hleft]
    refine Slot.InsertOnly.leave ?_ p m
    cases hcommitted : (db.blobs hash).committed with
    | none => rfl
    | some n =>
        rw [(h hash).seenBy_of_committed hcommitted p] at hnone
        cases hnone

theorem Db.RecordsBlobs.sizes_grow (h : db.RecordsBlobs p blobs db') (hsize : db.sizes hash = some n) :
    db'.sizes hash = some n := by
  unfold Db.sizes at hsize ⊢
  rcases h.cases hash with hsame | ⟨m, hfree, hnone, hleft⟩
  · rwa [hsame]
  · rwa [hleft]

theorem Db.InsertsOnly.seen_records (hcatalog : db.InsertsOnly) (h : db.RecordsBlobs p blobs db')
    (q : ι) (hsize : db.sizesSeenBy q hash = some n) : db'.sizesSeenBy q hash = some n := by
  unfold Db.sizesSeenBy at hsize ⊢
  rcases h.cases hash with hsame | ⟨m, hfree, hnone, hleft⟩
  · rw [hsame]
    exact hsize
  · rw [hleft]
    exact (hcatalog hash).seenBy_leave hfree hnone hsize _

end catalog

/-! ### Rows with their sizes -/

section sized
variable (rt : Runtime) (interpret : ℕ → ProjectedRun → Except Text DerivedQueryIndex)

/-- The rows are of an offer and relate to all of its blobs, whose sizes are as it declares. -/
def Catalogued (sizes : Text → Option ℤ) (k : RunKey) (rows : RunRows) : Prop :=
  ∃ o n, Offered rt interpret o ∧ o.key = k ∧ rows.head = o.head n ∧ rows.lines = o.archive.lines ∧
    ∀ b ∈ o.archive.requiredBlobs, b.sha256 ∈ rows.blobs ∧ sizes b.sha256 = some b.sizeBytes

variable {rt interpret} {sizes sizes' : Text → Option ℤ} {k : RunKey} {rows rows' : RunRows}

theorem Catalogued.mono (h : Catalogued rt interpret sizes k rows)
    (hsizes : ∀ hash n, sizes hash = some n → sizes' hash = some n) :
    Catalogued rt interpret sizes' k rows := by
  obtain ⟨o, n, hoffered, hkey, hhead, hlines, hblobs⟩ := h
  exact ⟨o, n, hoffered, hkey, hhead, hlines, fun b hb =>
    ⟨(hblobs b hb).1, hsizes _ _ (hblobs b hb).2⟩⟩

theorem Catalogued.extends (h : Catalogued rt interpret sizes k rows) (hextends : rows.Extends rows') :
    Catalogued rt interpret sizes k rows' := by
  obtain ⟨o, n, hoffered, hkey, hhead, hlines, hblobs⟩ := h
  exact ⟨o, n, hoffered, hkey, hextends.head.trans hhead, hextends.lines.trans hlines, fun b hb =>
    ⟨hextends.blobs (hblobs b hb).1, (hblobs b hb).2⟩⟩

/-- The attachments of the run that the rows project to have their sizes. -/
theorem Catalogued.attachments (h : Catalogued rt interpret sizes k rows)
    {run : ProjectedRun} (hrun : ArchivedFrom rt interpret k rows run) :
    ∀ a ∈ run.attachments, sizes a.sha256 = some a.sizeBytes := by
  obtain ⟨o, n, ⟨fs, name, version, request, hoffer⟩, rfl, hhead, hlines, hblobs⟩ := h
  obtain ⟨snapshot, validated, hsnapshot, hfrom, -⟩ := fromRun_of_offerOf hoffer
  obtain ⟨run', hprojected, -⟩ := hfrom.index
  rw [hfrom.projectRun_eq] at hprojected
  have hlocator : rows.head.sourceLocator = o.sourceLocator := congrArg _ hhead
  obtain rfl : run' = run := ArchivedFrom.unique ⟨fs, name, version, request, o, n, snapshot, hoffer,
    rfl, hhead, hlines, hsnapshot, by rw [hlocator]; exact hprojected⟩ hrun
  intro a ha
  obtain ⟨e, he, p, hp, hhash, hsize⟩ := Projector.attachments_declared hprojected ha
  rw [← hfrom.events] at he
  have hb := mem_requiredBlobs (buildArchive_eq_ok hfrom.archive).2.2.2.1 he hp
  rw [← hhash, ← hsize]
  exact (hblobs _ hb).2

/-- What is catalogued is archived from a run directory. -/
theorem Catalogued.archivedFrom (h : Catalogued rt interpret sizes k rows) :
    ∃ run, ArchivedFrom rt interpret k rows run := by
  obtain ⟨o, n, hoffered, hkey, hhead, hlines, -⟩ := h
  obtain ⟨run, hrun, -⟩ := hoffered.archivedFrom hkey hhead hlines
  exact ⟨run, hrun⟩

end sized

/-! ### Steps -/

/-- The ingestion holds a new run that does not relate to its blobs yet. -/
def Persist.isWriting : Persist → Bool
  | .recording _ | .writing _ | .relatingAll _ => true
  | _ => false

def Call.isWriting : Call → Bool
  | .persist _ pc => pc.isWriting
  | _ => false

/-- The sizes that an ingestion has read back. -/
def Persist.Sees {ι : Type} [DecidableEq ι] (p : ι) (o : Offer) (db : Db ι) : Persist → Prop
  | .writing _ | .relatingAll _ => db.Catalogues p o.archive.requiredBlobs
  | _ => True

section steps
variable {ι : Type} [DecidableEq ι]
variable {rt : Runtime} {fs : FileSystem}
  {interpret : ℕ → ProjectedRun → Except Text DerivedQueryIndex}
  {s : State ι} {p : ι} {db : Db ι} {c : Call} {k : RunKey} {rows rows' : RunRows}

variable (rt fs interpret) in
/-- What holds of the sizes between any two statements. -/
structure Sized (s : State ι) : Prop where
  indexed : Indexed rt fs interpret s
  catalog : s.db.InsertsOnly
  committed : ∀ k rows, (s.db.runs k).committed = some rows →
    Catalogued rt interpret s.db.sizes k rows
  held : ∀ k q rows, (s.db.runs k).held = some (q, some rows) → (s.calls q).isWriting = false →
    Catalogued rt interpret (s.db.sizesSeenBy q) k rows
  sees : ∀ p o pc, s.calls p = .persist o pc → pc.Sees p o s.db

theorem Quiet.sized (h : Quiet s) (hempty : s.db.Empty) : Sized rt fs interpret s := by
  refine ⟨h.indexed hempty, fun hash q row hrow => ?_, fun k rows hrows => ?_,
    fun k q rows hrows _ => ?_, fun p o pc hp => ?_⟩
  · rw [h.blobs] at hrow
    cases hrow
  · rw [hempty k] at hrows
    cases hrows
  · rw [h.runs] at hrows
    cases hrows
  · rw [h.calls] at hp
    cases hp

/-- What a call that is not writing a new run sees of a run. -/
theorem Sized.seen (h : Sized rt fs interpret s) (hp : (s.calls p).isWriting = false)
    (hseen : (s.db.runs k).seenBy p = some rows) :
    Catalogued rt interpret (s.db.sizesSeenBy p) k rows := by
  by_cases hheld : (s.db.runs k).HeldBy p
  · obtain ⟨row, hrow⟩ := hheld
    rw [Slot.seenBy_of_held hrow] at hseen
    rw [hseen] at hrow
    exact h.held k p rows hrow hp
  · rw [Slot.seenBy_of_not_held hheld] at hseen
    exact (h.committed k rows hseen).mono fun _ _ => h.catalog.seen p

/-- What a statement of the call `p` keeps of the sizes. -/
structure KeepsSizes (rt : Runtime) (interpret : ℕ → ProjectedRun → Except Text DerivedQueryIndex)
    (s : State ι) (p : ι) (db : Db ι) (c : Call) : Prop where
  catalog : db.InsertsOnly
  committed : ∀ k rows, (db.runs k).committed = some rows → Catalogued rt interpret db.sizes k rows
  seen : (s.calls p).exclusive = false → ∀ q, q ≠ p → ∀ hash n,
    s.db.sizesSeenBy q hash = some n → db.sizesSeenBy q hash = some n
  held : ∀ k rows, (db.runs k).held = some (p, some rows) → c.isWriting = false →
    Catalogued rt interpret (db.sizesSeenBy p) k rows
  sees : ∀ o pc, c = .persist o pc → pc.Sees p o db

theorem Persist.Sees.of_closed {o : Offer} {pc : Persist} (h : pc.isOpen = false) :
    pc.Sees p o db := by
  cases pc with
  | answered | failed => trivial
  | _ => cases h

theorem Sized.to (h : Sized rt fs interpret s) (hindexed : Indexed rt fs interpret (s.to p db c))
    (haccess : ∀ k, Access p (s.db.runs k) (db.runs k)) (hkeeps : KeepsSizes rt interpret s p db c) :
    Sized rt fs interpret (s.to p db c) := by
  have hopen := h.indexed.isOpen
  -- a pass is alone, so that what it does to the catalog is seen by no other open call
  have hseen : ∀ {q}, q ≠ p → (s.calls q).shared = true ∨ (s.calls q).exclusive = true →
      ∀ hash n, s.db.sizesSeenBy q hash = some n → db.sizesSeenBy q hash = some n := by
    intro q hne hactive
    refine hkeeps.seen ?_ q hne
    rw [← Bool.not_eq_true]
    intro hexclusive
    obtain ⟨hq, hq'⟩ := hopen.lease p q hexclusive hne
    rcases hactive with hactive | hactive
    · rw [hq'] at hactive
      cases hactive
    · rw [hq] at hactive
      cases hactive
  refine ⟨hindexed, hkeeps.catalog, hkeeps.committed, fun k q rows hrows hq => ?_,
    fun q o pc hq => ?_⟩
  · by_cases hqp : q = p
    · subst hqp
      rw [s.to_self] at hq
      exact hkeeps.held k rows hrows hq
    · rw [s.to_of_ne db c hqp] at hq
      have hold := (haccess k).held hrows hqp
      exact (h.held k q rows hold hq).mono (hseen hqp (hopen.held k q _ hold).isOpen)
  · by_cases hqp : q = p
    · subst hqp
      rw [s.to_self] at hq
      exact hkeeps.sees o pc hq
    · rw [s.to_of_ne db c hqp] at hq
      have hold := h.sees q o pc hq
      cases hpc : pc.isOpen with
      | false => exact Persist.Sees.of_closed hpc
      | true =>
          have hgrows := hseen hqp (.inl (by rw [hq]; exact hpc))
          cases pc with
          | writing | relatingAll => exact fun b hb => hgrows _ _ (hold b hb)
          | _ => trivial

/-- A statement that touches no row of a run and none of the catalog. -/
theorem KeepsSizes.still (h : Sized rt fs interpret s) (hruns : db.runs = s.db.runs)
    (hblobs : db.blobs = s.db.blobs) (hwriting : c.isWriting = false → (s.calls p).isWriting = false)
    (hsees : ∀ o pc, c = .persist o pc → pc.Sees p o db) : KeepsSizes rt interpret s p db c := by
  have hsizes : db.sizes = s.db.sizes := by
    funext hash
    rw [Db.sizes, Db.sizes, hblobs]
  have hseen : ∀ q, db.sizesSeenBy q = s.db.sizesSeenBy q := by
    intro q
    funext hash
    rw [Db.sizesSeenBy, Db.sizesSeenBy, hblobs]
  refine ⟨fun hash => ?_, fun k rows hrows => ?_, fun _ q _ hash n hsize => ?_,
    fun k rows hrows hc => ?_, hsees⟩
  · rw [hblobs]
    exact h.catalog hash
  · rw [hruns] at hrows
    rw [hsizes]
    exact h.committed k rows hrows
  · rwa [hseen]
  · rw [hruns] at hrows
    rw [hseen]
    exact h.held k p rows hrows (hwriting hc)

/-- A statement that leaves rows which extend those it sees. -/
theorem KeepsSizes.writes (h : Sized rt fs interpret s) (hwrites : s.db.Writes p k rows rows' db)
    (hp : (s.calls p).isWriting = false) (hextends : rows.Extends rows')
    (hsees : ∀ o pc, c = .persist o pc → pc.Sees p o db) : KeepsSizes rt interpret s p db c := by
  obtain ⟨-, hseen, rfl⟩ := hwrites
  refine ⟨h.catalog, fun k' r hr => ?_, fun _ q _ _ _ => id, fun k' r hr _ => ?_, hsees⟩
  · rw [Db.leave_committed] at hr
    exact h.committed k' r hr
  · by_cases hk : k' = k
    · subst hk
      rw [Db.leave_runs, Slot.leave_held] at hr
      cases hr
      exact (h.seen hp hseen).extends hextends
    · rw [Db.leave_runs_of_ne _ p _ hk] at hr
      exact h.held k' p r hr hp

/-- The end of a transaction; a new run is not committed before it relates to its blobs. -/
theorem KeepsSizes.finish (h : Sized rt fs interpret s) (commit : Bool)
    (hwriting : commit = true → (s.calls p).isWriting = false)
    (hsees : ∀ o pc, c = .persist o pc → pc.Sees p o (s.db.finish p commit)) :
    KeepsSizes rt interpret s p (s.db.finish p commit) c := by
  refine ⟨h.catalog.finish p commit, fun k rows hrows => ?_,
    fun _ q hne hash n => h.catalog.seen_finish commit hne, fun k rows hrows => ?_, hsees⟩
  · change ((s.db.runs k).finish p commit).committed = some rows at hrows
    have hold : (s.db.runs k).committed = some rows →
        Catalogued rt interpret (s.db.finish p commit).sizes k rows := fun hrows =>
      (h.committed k rows hrows).mono fun _ _ => h.catalog.sizes_finish p commit
    by_cases hheld : (s.db.runs k).HeldBy p
    · obtain ⟨row, hrow⟩ := hheld
      rw [Slot.finish_of_held commit hrow] at hrows
      cases commit with
      | false => exact hold hrows
      | true =>
          obtain rfl : row = some rows := hrows
          exact (h.held k p rows hrow (hwriting rfl)).mono fun _ _ => Db.sizes_commit
    · rw [Slot.finish_of_not_held commit hheld] at hrows
      exact hold hrows
  · exact absurd ⟨_, hrows⟩ (Slot.finish_not_held p commit (s.db.runs k))

theorem KeepsSizes.records (h : Sized rt fs interpret s) {blobs : List RequiredBlob}
    (hrecords : s.db.RecordsBlobs p blobs db)
    (hwriting : c.isWriting = false → (s.calls p).isWriting = false)
    (hsees : ∀ o pc, c = .persist o pc → pc.Sees p o db) : KeepsSizes rt interpret s p db c := by
  have hseen : ∀ q hash n, s.db.sizesSeenBy q hash = some n → db.sizesSeenBy q hash = some n :=
    fun q _ _ => h.catalog.seen_records hrecords q
  refine ⟨h.catalog.records hrecords, fun k rows hrows => ?_, fun _ q _ => hseen q,
    fun k rows hrows hc => ?_, hsees⟩
  · rw [hrecords.runs] at hrows
    exact (h.committed k rows hrows).mono fun _ _ => hrecords.sizes_grow
  · rw [hrecords.runs] at hrows
    exact (h.held k p rows hrows (hwriting hc)).mono (hseen p)

/-- Every statement of an ingestion keeps the sizes. -/
theorem PersistStep.keepsSizes {o : Offer} {pc pc' : Persist} (h : Sized rt fs interpret s)
    (hp : s.calls p = .persist o pc) (hstep : PersistStep rt fs interpret p o s.db pc db pc') :
    KeepsSizes rt interpret s p db (.persist o pc') := by
  have hknows := h.indexed.isOpen.persist p o pc hp
  have hsees := h.sees p o pc hp
  have hcall : (s.calls p).isWriting = pc.isWriting := congrArg Call.isWriting hp
  -- most statements have nothing more to know of the sizes
  have hnone : ∀ {db' : Db ι}, pc'.isWriting = false → ∀ o' pc'', Call.persist o pc' = .persist o' pc'' →
      pc''.Sees p o' db' := by
    intro db' hpc o' pc'' hc
    cases hc
    cases pc' with
    | writing | relatingAll => cases hpc
    | _ => trivial
  have hstill : pc.isWriting = false → pc'.isWriting = false → db.runs = s.db.runs →
      db.blobs = s.db.blobs → KeepsSizes rt interpret s p db (.persist o pc') :=
    fun hpc hpc' hruns hblobs => .still h hruns hblobs (fun _ => hcall.trans hpc) (hnone hpc')
  have hwrite : ∀ {rows rows'}, s.db.Writes p o.key rows rows' db → pc.isWriting = false →
      pc'.isWriting = false → rows.Extends rows' → KeepsSizes rt interpret s p db (.persist o pc') :=
    fun hwrites hpc hpc' hextends => .writes h hwrites (hcall.trans hpc) hextends (hnone hpc')
  have hcompare : ∀ (stored : StoredFingerprint) (next : StoredFingerprint → Persist),
      (next stored).isWriting = false → (o.compare stored next).isWriting = false := by
    intro stored next hnext
    unfold Offer.compare
    split_ifs
    · rfl
    · exact hnext
  cases hstep with
  | absent => exact hstill rfl rfl rfl rfl
  | looks => exact hstill rfl (hcompare _ _ rfl) rfl rfl
  | looksOlder => exact hstill rfl rfl rfl rfl
  | recomputes => exact hstill rfl (hcompare _ _ rfl) rfl rfl
  | relates =>
      refine hstill rfl ?_ rfl rfl
      split_ifs <;> rfl
  | locks hwrites => exact hwrite hwrites rfl rfl (.refl _)
  | gone => exact hstill rfl rfl rfl rfl
  | publishes => exact hstill rfl rfl rfl rfl
  | published => exact hstill rfl rfl rfl rfl
  | claims hfree hcommitted =>
      refine ⟨h.catalog, fun k rows hrows => ?_, fun _ q _ _ _ => id, fun k rows _ hc => ?_,
        fun o' pc'' hc => ?_⟩
      · rw [Db.leave_committed] at hrows
        exact h.committed k rows hrows
      · cases hc
      · cases hc
        trivial
  | loses => exact hstill rfl rfl rfl rfl
  | records hrecords =>
      refine .records h hrecords (fun hc => by cases hc) fun o' pc'' hc => ?_
      cases hc
      exact hrecords.sizes
  | writes hwrites =>
      obtain ⟨-, -, rfl⟩ := hwrites
      refine ⟨h.catalog, fun k rows hrows => ?_, fun _ q _ _ _ => id, fun k rows _ hc => ?_,
        fun o' pc'' hc => ?_⟩
      · rw [Db.leave_committed] at hrows
        exact h.committed k rows hrows
      · cases hc
      · cases hc
        exact hsees
  | @relatesAll n rows _ hwrites =>
      -- the rows are complete now, and the sizes of all blobs are read
      obtain ⟨-, r, hr, hhead, hlines, -⟩ := hknows
      obtain ⟨-, hseen, rfl⟩ := hwrites
      rw [Slot.seenBy_of_held hr] at hseen
      obtain rfl := Option.some.inj hseen
      refine ⟨h.catalog, fun k rows hrows => ?_, fun _ q _ _ _ => id, fun k rows hrows _ => ?_,
        hnone rfl⟩
      · rw [Db.leave_committed] at hrows
        exact h.committed k rows hrows
      · by_cases hk : k = o.key
        · subst hk
          rw [Db.leave_runs, Slot.leave_held] at hrows
          cases hrows
          refine ⟨o, n, h.indexed.offers p o _ hp, rfl, hhead, hlines, fun b hb => ⟨?_, hsees b hb⟩⟩
          have hmem : b.sha256 ∈ o.hashes := List.mem_map_of_mem hb
          by_cases hold : b.sha256 ∈ r.blobs
          · exact List.mem_append_left _ hold
          · exact List.mem_append_right _ (List.mem_filter.mpr ⟨hmem, decide_eq_true hold⟩)
        · rw [Db.leave_runs_of_ne _ p _ hk] at hrows
          have hholds := h.indexed.isOpen.held k p _ hrows
          rw [hp] at hholds
          exact absurd hholds.2 hk
  | retainsNew hwrites =>
      exact hwrite hwrites rfl rfl (RunRows.recordRetention_extends _ _)
  | indexesNew hreplaced hwrites =>
      exact hwrite hwrites rfl rfl (RunRows.replaceQueryIndex_extends hreplaced)
  | inserts | insertsUnheard => exact .finish h true (fun _ => hcall.trans rfl) (hnone rfl)
  | looksLost => exact hstill rfl (hcompare _ _ rfl) rfl rfl
  | looksLostOlder => exact hstill rfl rfl rfl rfl
  | recomputesLost => exact hstill rfl (hcompare _ _ rfl) rfl rfl
  | holds hwrites => exact hwrite hwrites rfl rfl (.refl _)
  | surveys =>
      refine hstill rfl ?_ rfl rfl
      split_ifs <;> rfl
  | recordsMissing hrecords =>
      exact .records h hrecords (fun _ => hcall.trans rfl) (hnone rfl)
  | relatesMissing hwrites => exact hwrite hwrites rfl rfl (RunRows.relateBlobs_extends _ _)
  | retains hwrites => exact hwrite hwrites rfl rfl (RunRows.recordRetention_extends _ _)
  | repairs hrepaired hwrites =>
      exact hwrite hwrites rfl rfl (RunRows.repairStoredIndex_extends hrepaired)
  | commits | commitsUnheard => exact .finish h true (fun _ => hcall.trans rfl) (hnone rfl)
  | fails => exact .finish h false (fun hc => by cases hc) (hnone rfl)

theorem RebuildStep.keepsSizes {r : RebuildRequest} {pc pc' : Rebuild} (h : Sized rt fs interpret s)
    (hp : s.calls p = .rebuild r pc) (hstep : RebuildStep rt fs interpret p r s.db pc db pc') :
    KeepsSizes rt interpret s p db (.rebuild r pc') := by
  have hwriting : (s.calls p).isWriting = false := congrArg Call.isWriting hp
  have hnone : ∀ {db' : Db ι} o pc, Call.rebuild r pc' = .persist o pc → pc.Sees p o db' :=
    fun o pc hc => by cases hc
  cases hstep with
  | locks hwrites => exact .writes h hwrites hwriting (.refl _) hnone
  | replaces hreplaced hwrites =>
      exact .writes h hwrites hwriting (RunRows.replaceQueryIndex_extends hreplaced) hnone
  | commits | commitsUnheard => exact .finish h true (fun _ => hwriting) hnone
  | cannotLock => exact .finish h false (fun _ => hwriting) hnone
  | cannotReplace => exact .finish h false (fun _ => hwriting) hnone
  | cannotCommit => exact .finish h false (fun _ => hwriting) hnone
  | fails => exact .finish h false (fun _ => hwriting) hnone
  | _ => exact .still h rfl rfl (fun _ => hwriting) hnone

omit [DecidableEq ι] in
/-- A pass holds runs only while it commits its batch. -/
theorem Open.not_held (h : Open rt fs interpret s) {m : PassRequest} {pc : Pass}
    (hp : s.calls p = .maintain m pc) (hpc : pc ≠ .committing) (k : RunKey) :
    ¬ (s.db.runs k).HeldBy p := by
  rintro ⟨row, hrow⟩
  have hk := h.held k p row hrow
  rw [hp] at hk
  exact hpc hk

theorem PassStep.keepsSizes {m : PassRequest} {pc pc' : Pass} (h : Sized rt fs interpret s)
    (hp : s.calls p = .maintain m pc) (hstep : PassStep p m s.db pc db pc') :
    KeepsSizes rt interpret s p db (.maintain m pc') := by
  have hwriting : (s.calls p).isWriting = false := congrArg Call.isWriting hp
  have hnone : ∀ {db' : Db ι} o pc, Call.maintain m pc' = .persist o pc → pc.Sees p o db' :=
    fun o pc hc => by cases hc
  cases hstep with
  | @deletes runs hfree =>
      refine ⟨h.catalog, fun k rows hrows => ?_, fun _ q _ _ _ => id, fun k rows hrows _ => ?_, hnone⟩
      · rw [Db.deleteRuns] at hrows
        dsimp only at hrows
        split_ifs at hrows
        · exact h.committed k rows hrows
        · exact h.committed k rows hrows
      · rw [Db.deleteRuns] at hrows
        dsimp only at hrows
        split_ifs at hrows
        · rw [Slot.leave_held] at hrows
          cases hrows
        · exact h.held k p rows hrows hwriting
  | commits => exact .finish h true (fun _ => hwriting) hnone
  | batchFails => exact .finish h false (fun _ => hwriting) hnone
  | commitFails => exact .finish h false (fun _ => hwriting) hnone
  | @reclaims hash hfree hsome hunreferenced =>
      have hslot : ((s.db.blobs hash).leave p none).finish p true = ⟨none, none⟩ :=
        Slot.finish_of_held true rfl
      refine ⟨fun hash' => ?_, fun k rows hrows => ?_, fun hno => ?_, fun k rows hrows => ?_, hnone⟩
      · by_cases hh : hash' = hash
        · subst hh
          dsimp only
          rw [Function.update_self, hslot]
          intro q row hrow
          cases hrow
        · dsimp only
          rw [Function.update_of_ne hh]
          exact h.catalog hash'
      · -- the run relates to all of its blobs, and to none of this hash
        obtain ⟨o, n, hoffered, hkey, hhead, hlines, hblobs⟩ := h.committed k rows hrows
        refine ⟨o, n, hoffered, hkey, hhead, hlines, fun b hb => ⟨(hblobs b hb).1, ?_⟩⟩
        have hh : b.sha256 ≠ hash := by
          rintro rfl
          exact hunreferenced k rows hrows (hblobs b hb).1
        unfold Db.sizes
        dsimp only
        rw [Function.update_of_ne hh]
        exact (hblobs b hb).2
      · rw [hp] at hno
        cases hno
      · exact absurd ⟨_, hrows⟩ (h.indexed.isOpen.not_held hp (by simp) k)
  | fails => exact .finish h false (fun _ => hwriting) hnone
  | _ => exact .still h rfl rfl (fun _ => hwriting) hnone

/-! ### Runs -/

/-- The sizes are kept by every step, also by those of a call without its connection. -/
theorem Step.sized {s' : State ι} (h : Sized rt fs interpret s) (hstep : Step rt fs interpret s s') :
    Sized rt fs interpret s' := by
  have hopen := h.indexed.isOpen
  have hindexed := hstep.indexed h.indexed
  have hbegins : ∀ {p : ι} {c : Call}, s.calls p = .idle → c.isWriting = false →
      (∀ o pc, c = .persist o pc → pc.Sees p o s.db) → KeepsSizes rt interpret s p s.db c :=
    fun hp hc hsees => .still h rfl rfl (fun _ => by rw [hp]; rfl) hsees
  cases hstep with
  | ingest hp hoffered =>
      refine h.to hindexed (fun k => .still) (hbegins hp rfl fun o pc hc => ?_)
      cases hc
      trivial
  | persist hp hstep => exact h.to hindexed (hstep.moves hopen hp).1.access (hstep.keepsSizes h hp)
  | reindex hp =>
      exact h.to hindexed (fun k => .still) (hbegins hp rfl fun o pc hc => by cases hc)
  | rebuild hp hstep => exact h.to hindexed (hstep.moves hopen hp).1.access (hstep.keepsSizes h hp)
  | sweep hp => exact h.to hindexed (fun k => .still) (hbegins hp rfl fun o pc hc => by cases hc)
  | maintain hp hstep => exact h.to hindexed (hstep.moves hopen hp).access (hstep.keepsSizes h hp)
  | @sever p late hlate =>
      exact h.to hindexed (fun k => .finishes false)
        (.finish h false (fun hc => by cases hc) fun o pc hc => by cases hc)
  | @late p late late' db hp hstep =>
      refine h.to hindexed (fun k => ?_) (.still h hstep.runs hstep.blobs (fun _ => ?_)
        fun o pc hc => by cases hc)
      · rw [hstep.runs]
        exact .still
      · rw [hp]
        rfl

/-- It holds in every state that is reached. -/
theorem sized_of_run {s₀ s : State ι} (hquiet : Quiet s₀) (hempty : s₀.db.Empty)
    (h : Relation.ReflTransGen (Step rt fs interpret) s₀ s) : Sized rt fs interpret s := by
  induction h with
  | refl => exact hquiet.sized hempty
  | tail _ hstep ih => exact hstep.sized ih

end steps

end Archiving

end QeReport

import QeReport.Postgres.Catalog

/-! # Bytes that runs relate to

Bytes are published before the transaction that relates to them, and removed after the one that
forgets them.  Between any two statements every relation of a run has its row in the catalog, with
a size that an offer of the archived content declares, and its object in the store (`Bytes`): an
ingestion relates to a hash when it has published the object and sees the row (`Persist.Ready`),
and a pass, which is alone, removes what no run relates to (`Pass.Knows`).  A pass is alone only
while its session lives: what it removes after that is what the database answered before, and the
runs may relate to it by then (`Connected`). -/

namespace QeReport

open Reclaim (RunKey)

namespace Archiving

open Slots

/-! ### Relations -/

section backed
variable (rt : Runtime) (interpret : ℕ → ProjectedRun → Except Text DerivedQueryIndex)

/-- An offer of the archived content requires the blob. -/
def Declared (k : RunKey) (rows : RunRows) (b : RequiredBlob) : Prop :=
  ∃ o, Offered rt interpret o ∧ o.key = k ∧ b ∈ o.archive.requiredBlobs ∧
    (rows.fingerprintFor rt o.archive.fingerprintVersion).fingerprint = o.archive.contentFingerprint

/-- Every relation of the rows is to a hash of a declared size and with an object. -/
def Backed (objects : Text → Prop) (sizes : Text → Option ℤ) (k : RunKey) (rows : RunRows) : Prop :=
  ∀ h ∈ rows.blobs, ∃ b, Declared rt interpret k rows b ∧ b.sha256 = h ∧ sizes h = some b.sizeBytes ∧
    objects h

end backed

/-- No relation of a run is without its bytes. -/
structure Bytes {ι : Type} [DecidableEq ι] (rt : Runtime)
    (interpret : ℕ → ProjectedRun → Except Text DerivedQueryIndex) (db : Db ι) : Prop where
  catalog : db.InsertsOnly
  committed : ∀ k rows, (db.runs k).committed = some rows →
    Backed rt interpret db.objects db.sizes k rows
  held : ∀ k q rows, (db.runs k).held = some (q, some rows) →
    Backed rt interpret db.objects (db.sizesSeenBy q) k rows

section statements
variable {ι : Type} [DecidableEq ι]
variable {rt : Runtime} {interpret : ℕ → ProjectedRun → Except Text DerivedQueryIndex}
  {db db' : Db ι} {p : ι} {k : RunKey} {rows rows' : RunRows}

theorem Declared.extends {b : RequiredBlob} (h : Declared rt interpret k rows b)
    (hextends : rows.Extends rows') : Declared rt interpret k rows' b := by
  obtain ⟨o, hoffered, hkey, hb, hfinger⟩ := h
  exact ⟨o, hoffered, hkey, hb, by rw [hextends.fingerprintFor]; exact hfinger⟩

/-- Every offer is fingerprinted by the rule of today. -/
theorem Offered.fingerprintVersion {o : Offer} (h : Offered rt interpret o) :
    o.archive.fingerprintVersion = QeReport.fingerprintVersion := by
  obtain ⟨_, _, _, _, -, hfrom⟩ := h.fromRun
  exact (buildArchive_eq_ok hfrom.archive).2.2.2.2

/-- Rows under the rule of today keep their fingerprint while their lines are written. -/
theorem Declared.of_head {b : RequiredBlob} (h : Declared rt interpret k rows b)
    (hhead : rows'.head = rows.head)
    (hversion : rows.head.fingerprintVersion = QeReport.fingerprintVersion) :
    Declared rt interpret k rows' b := by
  obtain ⟨o, hoffered, hkey, hb, hfinger⟩ := h
  refine ⟨o, hoffered, hkey, hb, ?_⟩
  rw [RunRows.fingerprintFor, hoffered.fingerprintVersion, if_pos hversion] at hfinger
  rw [RunRows.fingerprintFor, hoffered.fingerprintVersion, hhead, if_pos hversion]
  exact hfinger

theorem Backed.mono {objects objects' : Text → Prop} {sizes sizes' : Text → Option ℤ}
    (h : Backed rt interpret objects sizes k rows) (hobjects : ∀ h, objects h → objects' h)
    (hsizes : ∀ h n, sizes h = some n → sizes' h = some n) :
    Backed rt interpret objects' sizes' k rows := by
  intro hash hmem
  obtain ⟨b, hdeclared, hhash, hsize, hobject⟩ := h hash hmem
  exact ⟨b, hdeclared, hhash, hsizes _ _ hsize, hobjects _ hobject⟩

/-- Rows that extend others are backed when their new relations are. -/
theorem Backed.extends {objects : Text → Prop} {sizes : Text → Option ℤ}
    (h : Backed rt interpret objects sizes k rows) (hextends : rows.Extends rows')
    (hnew : ∀ hash ∈ rows'.blobs, hash ∈ rows.blobs ∨ ∃ b, Declared rt interpret k rows b ∧
      b.sha256 = hash ∧ sizes hash = some b.sizeBytes ∧ objects hash) :
    Backed rt interpret objects sizes k rows' := by
  intro hash hmem
  obtain ⟨b, hdeclared, hb⟩ : ∃ b, Declared rt interpret k rows b ∧ b.sha256 = hash ∧
      sizes hash = some b.sizeBytes ∧ objects hash := by
    rcases hnew hash hmem with hold | hnew
    · exact h hash hold
    · exact hnew
  exact ⟨b, hdeclared.extends hextends, hb⟩

theorem Backed.retained {objects : Text → Prop} {sizes : Text → Option ℤ} {expiresAt : ℤ}
    (h : Backed rt interpret objects sizes k rows) :
    Backed rt interpret objects sizes k (recordRetention expiresAt rows).1 := by
  refine h.extends (RunRows.recordRetention_extends expiresAt rows) fun hash hmem => .inl ?_
  unfold recordRetention at hmem
  split at hmem <;> exact hmem

theorem Backed.replaced {objects : Text → Prop} {sizes : Text → Option ℤ} {version : ℕ}
    {index : DerivedQueryIndex} {fingerprint : Text}
    (hreplaced : replaceQueryIndex k version index fingerprint rows = .ok rows')
    (h : Backed rt interpret objects sizes k rows) : Backed rt interpret objects sizes k rows' := by
  refine h.extends (RunRows.replaceQueryIndex_extends hreplaced) fun hash hmem => .inl ?_
  rw [RunRows.replaceQueryIndex_eq_ok hreplaced] at hmem
  exact hmem

/-! ### What a statement does to the bytes -/

theorem Bytes.of_runs (h : Bytes rt interpret db) (hruns : db'.runs = db.runs)
    (hblobs : db'.blobs = db.blobs) (hobjects : ∀ hash, db.objects hash → db'.objects hash) :
    Bytes rt interpret db' := by
  refine ⟨fun hash => ?_, fun k rows hrows => ?_, fun k q rows hrows => ?_⟩
  · rw [hblobs]
    exact h.catalog hash
  · rw [hruns] at hrows
    refine (h.committed k rows hrows).mono hobjects fun hash n hsize => ?_
    rw [Db.sizes, hblobs]
    exact hsize
  · rw [hruns] at hrows
    refine (h.held k q rows hrows).mono hobjects fun hash n hsize => ?_
    rw [Db.sizesSeenBy, hblobs]
    exact hsize

theorem Bytes.leave (h : Bytes rt interpret db) {row : Option RunRows}
    (hrow : ∀ rows, row = some rows → Backed rt interpret db.objects (db.sizesSeenBy p) k rows) :
    Bytes rt interpret (db.leave p k row) := by
  refine ⟨h.catalog, fun k' rows hrows => ?_, fun k' q rows hrows => ?_⟩
  · rw [Db.leave_committed] at hrows
    exact h.committed k' rows hrows
  · by_cases hk : k' = k
    · subst hk
      rw [Db.leave_runs, Slot.leave_held, Option.some.injEq, Prod.mk.injEq] at hrows
      obtain ⟨rfl, hrows⟩ := hrows
      exact hrow rows hrows
    · rw [Db.leave_runs_of_ne db p row hk] at hrows
      exact h.held k' q rows hrows

/-- The rows that a transaction sees have their bytes where the transaction looks. -/
theorem Bytes.seen (h : Bytes rt interpret db) (hseen : (db.runs k).seenBy p = some rows) :
    Backed rt interpret db.objects (db.sizesSeenBy p) k rows := by
  by_cases hheld : (db.runs k).HeldBy p
  · obtain ⟨row, hrow⟩ := hheld
    rw [Slot.seenBy_of_held hrow] at hseen
    rw [hseen] at hrow
    exact h.held k p rows hrow
  · rw [Slot.seenBy_of_not_held hheld] at hseen
    exact (h.committed k rows hseen).mono (fun _ => id) fun _ _ => h.catalog.seen p

theorem Bytes.writes (h : Bytes rt interpret db) (hwrites : db.Writes p k rows rows' db')
    (hrow : Backed rt interpret db.objects (db.sizesSeenBy p) k rows →
      Backed rt interpret db.objects (db.sizesSeenBy p) k rows') : Bytes rt interpret db' := by
  rw [hwrites.left]
  refine h.leave fun r hr => ?_
  obtain rfl := Option.some.inj hr
  exact hrow (h.seen hwrites.seen)

theorem Bytes.finish (h : Bytes rt interpret db) (p : ι) (commit : Bool) :
    Bytes rt interpret (db.finish p commit) := by
  have hsizes : ∀ hash n, db.sizes hash = some n → (db.finish p commit).sizes hash = some n :=
    fun hash n => h.catalog.sizes_finish p commit
  refine ⟨h.catalog.finish p commit, fun k rows hrows => ?_, fun k q rows hrows => ?_⟩
  · change ((db.runs k).finish p commit).committed = some rows at hrows
    by_cases hheld : (db.runs k).HeldBy p
    · obtain ⟨row, hrow⟩ := hheld
      rw [Slot.finish_of_held commit hrow] at hrows
      cases commit with
      | false => exact (h.committed k rows hrows).mono (fun _ => id) hsizes
      | true =>
          obtain rfl : row = some rows := hrows
          exact (h.held k p rows hrow).mono (fun _ => id) fun _ _ => Db.sizes_commit
    · rw [Slot.finish_of_not_held commit hheld] at hrows
      exact (h.committed k rows hrows).mono (fun _ => id) hsizes
  · change ((db.runs k).finish p commit).held = some (q, some rows) at hrows
    have hne : q ≠ p := by
      rintro rfl
      exact Slot.finish_not_held q commit (db.runs k) ⟨_, hrows⟩
    have hold := (Access.finishes (p := p) commit).held hrows hne
    exact (h.held k q rows hold).mono (fun _ => id) fun _ _ => h.catalog.seen_finish commit hne

/-- What one statement keeps of what other transactions see. -/
structure Grows (p : ι) (db db' : Db ι) : Prop where
  objects : ∀ hash, db.objects hash → db'.objects hash
  seen : ∀ q, q ≠ p → ∀ hash n, db.sizesSeenBy q hash = some n → db'.sizesSeenBy q hash = some n

theorem Grows.of_blobs (p : ι) (hblobs : db'.blobs = db.blobs)
    (hobjects : ∀ hash, db.objects hash → db'.objects hash) : Grows p db db' := by
  refine ⟨hobjects, fun q _ hash n hsize => ?_⟩
  rw [Db.sizesSeenBy, hblobs]
  exact hsize

theorem Db.Writes.grows (h : db.Writes p k rows rows' db') : Grows p db db' := by
  rw [h.left]
  exact .of_blobs p rfl fun _ => id

theorem Bytes.grows_finish (h : Bytes rt interpret db) (p : ι) (commit : Bool) :
    Grows p db (db.finish p commit) :=
  ⟨fun _ => id, fun _ hne _ _ => h.catalog.seen_finish commit hne⟩

section records
variable {blobs : List RequiredBlob}

theorem Db.RecordsBlobs.objects (h : db.RecordsBlobs p blobs db') : db'.objects = db.objects := by
  rw [h.inserted]
  rfl

theorem Bytes.records (hbytes : Bytes rt interpret db) (h : db.RecordsBlobs p blobs db') :
    Bytes rt interpret db' := by
  have hobjects := h.objects
  refine ⟨hbytes.catalog.records h, fun k rows hrows => ?_, fun k q rows hrows => ?_⟩
  · rw [h.runs] at hrows
    rw [hobjects]
    exact (hbytes.committed k rows hrows).mono (fun _ => id) fun _ _ => h.sizes_grow
  · rw [h.runs] at hrows
    rw [hobjects]
    exact (hbytes.held k q rows hrows).mono (fun _ => id) fun _ _ => hbytes.catalog.seen_records h q

end records

end statements

/-! ### What an open call knows of the bytes -/

section ready
variable {ι : Type} [DecidableEq ι]

/-- The objects of all blobs are in the store. -/
def Offer.Published (o : Offer) (db : Db ι) : Prop :=
  ∀ b ∈ o.archive.requiredBlobs, db.objects b.sha256

/-- What an open ingestion has done for the blobs. -/
def Persist.Ready (p : ι) (o : Offer) (db : Db ι) : Persist → Prop
  | .publishing rest => ∀ b ∈ o.archive.requiredBlobs, b ∈ rest ∨ db.objects b.sha256
  | .claiming | .recording _ | .losing | .recomputingLost _ | .holding _ | .surveying _ =>
      o.Published db
  | .writing _ | .relatingAll _ => o.Published db ∧ db.Catalogues p o.archive.requiredBlobs
  | .recordingMissing _ missing => o.Published db ∧ missing ⊆ o.archive.requiredBlobs
  | .relatingMissing _ missing =>
      o.Published db ∧ missing ⊆ o.archive.requiredBlobs ∧ db.Catalogues p missing
  | _ => True

/-- What an open pass knows: of its batch, and of the hashes it is about to remove. -/
def Pass.Knows (p : ι) (m : PassRequest) (db : Db ι) : Pass → Prop
  | .deleting runs => runs.length ≤ m.maxRuns
  | .committing => ∃ runs : List RunKey, runs.length ≤ m.maxRuns ∧
      ∀ k row, (db.runs k).held = some (p, row) → k ∈ runs ∧ row = none ∧
        ∃ rows, (db.runs k).committed = some rows ∧ RunRows.expired m.asOf rows = true
  | .removing hashes => ∀ hash ∈ hashes, (db.blobs hash).committed = none ∧ db.Unreferenced hash
  | _ => True

variable {p q : ι} {o : Offer} {db db' : Db ι}

omit [DecidableEq ι] in
theorem Offer.Published.grows (h : o.Published db)
    (hobjects : ∀ hash, db.objects hash → db'.objects hash) : o.Published db' :=
  fun b hb => hobjects _ (h b hb)

/-- What an ingestion has done stands while other calls take no bytes away. -/
theorem Persist.Ready.grows {pc : Persist} (h : pc.Ready q o db) (hgrows : Grows p db db')
    (hne : q ≠ p) : pc.Ready q o db' := by
  have hcatalogues : ∀ {blobs}, db.Catalogues q blobs → db'.Catalogues q blobs :=
    fun hblobs b hb => hgrows.seen q hne _ _ (hblobs b hb)
  cases pc with
  | publishing rest => exact fun b hb => (h b hb).imp_right (hgrows.objects _)
  | claiming | recording | losing | recomputingLost | holding | surveying =>
      exact Offer.Published.grows h hgrows.objects
  | writing | relatingAll => exact ⟨h.1.grows hgrows.objects, hcatalogues h.2⟩
  | recordingMissing => exact ⟨h.1.grows hgrows.objects, h.2⟩
  | relatingMissing => exact ⟨h.1.grows hgrows.objects, h.2.1, hcatalogues h.2.2⟩
  | _ => trivial

omit [DecidableEq ι] in
theorem compare_ready {p : ι} [DecidableEq ι] {stored : StoredFingerprint}
    {next : StoredFingerprint → Persist} (h : (next stored).Ready p o db) :
    (o.compare stored next).Ready p o db := by
  unfold Offer.compare
  split_ifs
  · trivial
  · exact h

end ready

/-! ### Steps -/

section steps
variable {ι : Type} [DecidableEq ι]
variable {rt : Runtime} {fs : FileSystem}
  {interpret : ℕ → ProjectedRun → Except Text DerivedQueryIndex}
  {s : State ι} {p : ι} {db : Db ι}

/-- Blobs that an offer of the content requires, catalogued and published. -/
theorem backed_new {o : Offer} {rows : RunRows} {blobs : List RequiredBlob}
    (hoffered : Offered rt interpret o) (hsub : blobs ⊆ o.archive.requiredBlobs)
    (hfinger : (rows.fingerprintFor rt o.archive.fingerprintVersion).fingerprint =
      o.archive.contentFingerprint) (hpublished : o.Published db) (hseen : db.Catalogues p blobs)
    {hash : Text} (hmem : hash ∈ (relateBlobs (blobs.map (fun b => b.sha256)) rows).1.blobs) :
    hash ∈ rows.blobs ∨ ∃ b, Declared rt interpret o.key rows b ∧ b.sha256 = hash ∧
      db.sizesSeenBy p hash = some b.sizeBytes ∧ db.objects hash := by
  rcases List.mem_append.mp hmem with hold | hnew
  · exact .inl hold
  · obtain ⟨b, hb, rfl⟩ := List.mem_map.mp (List.mem_of_mem_filter hnew)
    exact .inr ⟨b, ⟨o, hoffered, rfl, hsub hb, hfinger⟩, rfl, hseen b hb, hpublished b (hsub hb)⟩

/-- Every statement of an ingestion keeps the bytes of the runs. -/
theorem PersistStep.bytes {o : Offer} {pc pc' : Persist} (h : Open rt fs interpret s)
    (hp : s.calls p = .persist o pc) (hoffered : Offered rt interpret o)
    (hbytes : Bytes rt interpret s.db) (hready : pc.Ready p o s.db)
    (hstep : PersistStep rt fs interpret p o s.db pc db pc') :
    Bytes rt interpret db ∧ pc'.Ready p o db ∧ Grows p s.db db := by
  have hknows := h.persist p o pc hp
  have hshared : (s.calls p).shared = true := by
    rw [hp]
    exact hstep.isOpen
  have hsame : Grows p s.db s.db := .of_blobs p rfl fun _ => id
  have hrecorded : ∀ {blobs}, s.db.RecordsBlobs p blobs db →
      ∀ hash, s.db.objects hash → db.objects hash := by
    intro blobs hrecords hash hobject
    rwa [hrecords.objects]
  -- rows of the content that is offered
  have hinserting : ∀ {n lines index rows rows'}, Inserting p o (s.db.runs o.key) n lines index →
      s.db.Writes p o.key rows rows' db → rows.head = o.head n := by
    intro n lines index rows rows' hinserting hwrites
    obtain ⟨-, r, hr, hhead, -⟩ := hinserting
    have hseen := hwrites.seen
    rw [Slot.seenBy_of_held hr] at hseen
    obtain rfl := Option.some.inj hseen
    exact hhead
  have hrepairing : ∀ {stored rows rows'}, Repairing rt p o (s.db.runs o.key) stored →
      s.db.Writes p o.key rows rows' db →
      (rows.fingerprintFor rt o.archive.fingerprintVersion).fingerprint =
        o.archive.contentFingerprint := by
    intro stored rows rows' hrepairing hwrites
    obtain ⟨rows₀, hrows₀, hagrees⟩ := hrepairing.committed
    obtain ⟨rows₁, hrows₁, hextends⟩ := h.seen hshared hwrites.seen rows₀ hrows₀
    obtain rfl := Option.some.inj hrows₁
    rw [hextends.fingerprintFor, hagrees.found]
    exact hagrees.offered
  cases hstep with
  | absent => exact ⟨hbytes, fun b hb => .inl hb, hsame⟩
  | looks => exact ⟨hbytes, compare_ready trivial, hsame⟩
  | looksOlder => exact ⟨hbytes, trivial, hsame⟩
  | recomputes => exact ⟨hbytes, compare_ready trivial, hsame⟩
  | relates =>
      refine ⟨hbytes, ?_, hsame⟩
      split_ifs
      · exact fun b hb => .inl hb
      · trivial
  | locks hwrites => exact ⟨hbytes.writes hwrites id, trivial, hwrites.grows⟩
  | gone => exact ⟨hbytes, fun b hb => .inl hb, hsame⟩
  | @publishes rest b hb =>
      refine ⟨hbytes.of_runs rfl rfl fun _ => .inr, fun c hc => ?_,
        .of_blobs p rfl fun _ => .inr⟩
      rcases hready c hc with hrest | hobject
      · by_cases hcb : c = b
        · exact .inr (.inl (congrArg _ hcb))
        · exact .inl ((List.mem_erase_of_ne hcb).mpr hrest)
      · exact .inr (.inr hobject)
  | published =>
      refine ⟨hbytes, fun b hb => ?_, hsame⟩
      rcases hready b hb with hnil | hobject
      · cases hnil
      · exact hobject
  | claims =>
      have hsequence : Bytes rt interpret { s.db with sequence := s.db.sequence + 1 } :=
        hbytes.of_runs rfl rfl fun _ => id
      refine ⟨hsequence.leave fun rows hrows => ?_, hready, .of_blobs p rfl fun _ => id⟩
      rw [← Option.some.inj hrows]
      intro hash hmem
      cases hmem
  | loses =>
      exact ⟨hbytes.of_runs rfl rfl fun _ => id, hready, .of_blobs p rfl fun _ => id⟩
  | records hrecords =>
      exact ⟨hbytes.records hrecords,
        ⟨Offer.Published.grows hready (hrecorded hrecords), hrecords.sizes⟩, hrecorded hrecords,
        fun q _ _ _ => hbytes.catalog.seen_records hrecords q⟩
  | @writes n rows _ hwrites =>
      have hhead := hinserting hknows hwrites
      have hversion : rows.head.fingerprintVersion = fingerprintVersion := by
        rw [hhead]
        exact hoffered.fingerprintVersion
      refine ⟨hbytes.writes hwrites fun hrows hash hmem => ?_, ?_, hwrites.grows⟩
      · obtain ⟨b, hdeclared, hb⟩ := hrows hash hmem
        exact ⟨b, hdeclared.of_head rfl hversion, hb⟩
      · rw [hwrites.left]
        exact hready
  | @relatesAll n rows _ hwrites =>
      have hfinger : (rows.fingerprintFor rt o.archive.fingerprintVersion).fingerprint =
          o.archive.contentFingerprint := by
        rw [RunRows.fingerprintFor, hinserting hknows hwrites]
        exact if_pos rfl
      refine ⟨hbytes.writes hwrites fun hrows => ?_, trivial, hwrites.grows⟩
      exact hrows.extends (RunRows.relateBlobs_extends _ _) fun hash hmem =>
        backed_new hoffered (fun _ => id) hfinger hready.1 hready.2 hmem
  | retainsNew hwrites =>
      exact ⟨hbytes.writes hwrites Backed.retained, trivial, hwrites.grows⟩
  | indexesNew hreplaced hwrites =>
      exact ⟨hbytes.writes hwrites (Backed.replaced hreplaced), trivial, hwrites.grows⟩
  | inserts | insertsUnheard =>
      exact ⟨hbytes.finish p true, trivial, hbytes.grows_finish p true⟩
  | looksLost => exact ⟨hbytes, compare_ready hready, hsame⟩
  | looksLostOlder => exact ⟨hbytes, hready, hsame⟩
  | recomputesLost => exact ⟨hbytes, compare_ready hready, hsame⟩
  | holds hwrites =>
      refine ⟨hbytes.writes hwrites id, ?_, hwrites.grows⟩
      rw [hwrites.left]
      exact hready
  | surveys hseen hmissing =>
      refine ⟨hbytes, ?_, hsame⟩
      split_ifs
      · trivial
      · rw [hmissing]
        exact ⟨hready, fun b hb => List.mem_of_mem_filter hb⟩
  | recordsMissing hrecords =>
      exact ⟨hbytes.records hrecords,
        ⟨hready.1.grows (hrecorded hrecords), hready.2, hrecords.sizes⟩, hrecorded hrecords,
        fun q _ _ _ => hbytes.catalog.seen_records hrecords q⟩
  | @relatesMissing stored missing rows _ hwrites =>
      obtain ⟨hpublished, hsub, hseen⟩ := hready
      refine ⟨hbytes.writes hwrites fun hrows => ?_, trivial, hwrites.grows⟩
      exact hrows.extends (RunRows.relateBlobs_extends _ _) fun hash hmem =>
        backed_new hoffered hsub (hrepairing hknows hwrites) hpublished hseen hmem
  | retains hwrites => exact ⟨hbytes.writes hwrites Backed.retained, trivial, hwrites.grows⟩
  | repairs hrepaired hwrites =>
      refine ⟨hbytes.writes hwrites fun hrows => ?_, trivial, hwrites.grows⟩
      rcases RunRows.repairStoredIndex_cases hrepaired with ⟨rfl, -⟩ | ⟨derived, -, hreplaced, -⟩
      · exact hrows
      · exact Backed.replaced hreplaced hrows
  | commits | commitsUnheard =>
      exact ⟨hbytes.finish p true, trivial, hbytes.grows_finish p true⟩
  | fails => exact ⟨hbytes.finish p false, trivial, hbytes.grows_finish p false⟩

theorem RebuildStep.bytes {r : RebuildRequest} {pc pc' : Rebuild}
    (hbytes : Bytes rt interpret s.db)
    (hstep : RebuildStep rt fs interpret p r s.db pc db pc') :
    Bytes rt interpret db ∧ Grows p s.db db := by
  cases hstep with
  | locks hwrites => exact ⟨hbytes.writes hwrites id, hwrites.grows⟩
  | replaces hreplaced hwrites =>
      exact ⟨hbytes.writes hwrites (Backed.replaced hreplaced), hwrites.grows⟩
  | commits | commitsUnheard => exact ⟨hbytes.finish p true, hbytes.grows_finish p true⟩
  | cannotLock => exact ⟨hbytes.finish p false, hbytes.grows_finish p false⟩
  | cannotReplace => exact ⟨hbytes.finish p false, hbytes.grows_finish p false⟩
  | cannotCommit => exact ⟨hbytes.finish p false, hbytes.grows_finish p false⟩
  | fails => exact ⟨hbytes.finish p false, hbytes.grows_finish p false⟩
  | _ => exact ⟨hbytes, .of_blobs p rfl fun _ => id⟩

/-- While a pass is open it is alone, and what it holds are runs that it deletes. -/
theorem Open.held_by_pass (h : Open rt fs interpret s) {m : PassRequest} {pc : Pass}
    (hp : s.calls p = .maintain m pc) (hopen : pc.isOpen = true) {k : RunKey} {q : ι}
    {row : Option RunRows} (hrow : (s.db.runs k).held = some (q, row)) :
    q = p ∧ pc = .committing := by
  by_cases hne : q = p
  · subst hne
    have hk := h.held k q row hrow
    rw [hp] at hk
    exact ⟨rfl, hk⟩
  · have hexclusive : (s.calls p).exclusive = true := by
      rw [hp]
      exact hopen
    obtain ⟨hq, hq'⟩ := h.lease p q hexclusive hne
    rcases (h.held k q row hrow).isOpen with hshared | hexclusive'
    · rw [hq'] at hshared
      cases hshared
    · rw [hq] at hexclusive'
      cases hexclusive'

/-- Every statement of a pass keeps the bytes of the runs. -/
theorem PassStep.bytes {m : PassRequest} {pc pc' : Pass} (h : Open rt fs interpret s)
    (hp : s.calls p = .maintain m pc) (hbytes : Bytes rt interpret s.db)
    (hknows : pc.Knows p m s.db) (hstep : PassStep p m s.db pc db pc') :
    Bytes rt interpret db ∧ pc'.Knows p m db := by
  have hheld : ∀ {k q row}, (s.db.runs k).held = some (q, row) → q = p ∧ pc = .committing :=
    fun hrow => h.held_by_pass hp hstep.isOpen hrow
  cases hstep with
  | selects hcount => exact ⟨hbytes, hcount⟩
  | @deletes runs hfree =>
      have hslot : ∀ k, (s.db.deleteRuns p m.asOf runs).runs k = s.db.runs k ∨
          k ∈ runs ∧ ((s.db.runs k).committed).any (RunRows.expired m.asOf) = true ∧
            (s.db.deleteRuns p m.asOf runs).runs k = (s.db.runs k).leave p none := by
        intro k
        have hseen := Slot.seenBy_of_not_held (h.not_held hp (by simp) k)
        rw [Db.deleteRuns]
        dsimp only
        rw [hseen]
        split_ifs with hk
        · exact .inr ⟨hk.1, hk.2, rfl⟩
        · exact .inl rfl
      refine ⟨⟨hbytes.catalog, fun k rows hrows => ?_, fun k q rows hrows => ?_⟩, runs, hknows,
        fun k row hrow => ?_⟩
      · rcases hslot k with hsame | ⟨-, -, hleft⟩
        · rw [hsame] at hrows
          exact hbytes.committed k rows hrows
        · rw [hleft] at hrows
          exact hbytes.committed k rows hrows
      · rcases hslot k with hsame | ⟨-, -, hleft⟩
        · rw [hsame] at hrows
          exact hbytes.held k q rows hrows
        · rw [hleft] at hrows
          cases hrows
      · rcases hslot k with hsame | ⟨hk, hexpired, hleft⟩
        · rw [hsame] at hrow
          cases (hheld hrow).2
        · rw [hleft] at hrow ⊢
          refine ⟨hk, (congrArg Prod.snd (Option.some.inj hrow)).symm, ?_⟩
          exact (Option.any_eq_true _ _).mp hexpired
  | commits => exact ⟨hbytes.finish p true, trivial⟩
  | batchFails => exact ⟨hbytes.finish p false, trivial⟩
  | commitFails => exact ⟨hbytes.finish p false, trivial⟩
  | @reclaims hash hfree hsome hunreferenced =>
      have hslot : ((s.db.blobs hash).leave p none).finish p true = ⟨none, none⟩ :=
        Slot.finish_of_held true rfl
      refine ⟨⟨fun hash' => ?_, fun k rows hrows hash' hmem => ?_, fun k q rows hrows => ?_⟩, ?_⟩
      · by_cases hh : hash' = hash
        · subst hh
          dsimp only
          rw [Function.update_self, hslot]
          intro q row hrow
          cases hrow
        · dsimp only
          rw [Function.update_of_ne hh]
          exact hbytes.catalog hash'
      · obtain ⟨b, hdeclared, hhash, hsize, hobject⟩ := hbytes.committed k rows hrows hash' hmem
        refine ⟨b, hdeclared, hhash, ?_, hobject⟩
        have hh : hash' ≠ hash := fun heq => hunreferenced k rows hrows (heq ▸ hmem)
        unfold Db.sizes
        dsimp only
        rw [Function.update_of_ne hh]
        exact hsize
      · cases (hheld hrows).2
      · intro hash' hmem
        obtain rfl := List.mem_singleton.mp hmem
        refine ⟨?_, hunreferenced⟩
        dsimp only
        rw [Function.update_self, hslot]
  | uncatalogued hnone =>
      refine ⟨hbytes, fun hash hhash => ⟨hnone hash hhash, fun k rows hrows hmem => ?_⟩⟩
      obtain ⟨b, -, -, hsize, -⟩ := hbytes.committed k rows hrows hash hmem
      rw [Db.sizes, hnone hash hhash] at hsize
      cases hsize
  | @removes hash hashes =>
      obtain ⟨⟨-, hunreferenced⟩, hrest⟩ := List.forall_mem_cons.mp hknows
      refine ⟨⟨hbytes.catalog, fun k rows hrows hash' hmem => ?_, fun k q rows hrows => ?_⟩, hrest⟩
      · obtain ⟨b, hdeclared, hhash, hsize, hobject⟩ := hbytes.committed k rows hrows hash' hmem
        refine ⟨b, hdeclared, hhash, hsize, ?_, hobject⟩
        rintro rfl
        exact hunreferenced k rows hrows hmem
      · cases (hheld hrows).2
  | keeps => exact ⟨hbytes, (List.forall_mem_cons.mp hknows).2⟩
  | removed => exact ⟨hbytes, trivial⟩
  | ends => exact ⟨hbytes, trivial⟩
  | fails => exact ⟨hbytes.finish p false, trivial⟩

/-! ### Runs -/

variable (rt fs interpret) in
/-- What holds of the bytes and the calls between any two statements. -/
structure Kept (s : State ι) : Prop where
  indexed : Indexed rt fs interpret s
  bytes : Bytes rt interpret s.db
  ready : ∀ p o pc, s.calls p = .persist o pc → pc.Ready p o s.db
  knows : ∀ p m pc, s.calls p = .maintain m pc → pc.Knows p m s.db

theorem Quiet.kept (h : Quiet s) (hempty : s.db.Empty) : Kept rt fs interpret s := by
  refine ⟨h.indexed hempty, ⟨fun hash q row hrow => ?_, fun k rows hrows => ?_, fun k q rows hrows => ?_⟩,
    fun p o pc hp => ?_, fun p m pc hp => ?_⟩
  · rw [h.blobs] at hrow
    cases hrow
  · rw [hempty k] at hrows
    cases hrows
  · rw [h.runs] at hrows
    cases hrows
  · rw [h.calls] at hp
    cases hp
  · rw [h.calls] at hp
    cases hp

omit [DecidableEq ι] in
theorem Persist.Ready.of_closed [DecidableEq ι] {o : Offer} {pc : Persist} (h : pc.isOpen = false) :
    pc.Ready p o db := by
  cases pc with
  | answered | failed => trivial
  | _ => cases h

omit [DecidableEq ι] in
theorem Pass.Knows.of_closed {m : PassRequest} {pc : Pass} (h : pc.isOpen = false) :
    pc.Knows p m db := by
  cases pc with
  | finished => trivial
  | _ => cases h

omit [DecidableEq ι] in
/-- What a pass knows is of the rows, not of the objects. -/
theorem Pass.Knows.of_rows {m : PassRequest} {pc : Pass} {db' : Db ι} (h : pc.Knows p m db)
    (hruns : db'.runs = db.runs) (hblobs : db'.blobs = db.blobs) : pc.Knows p m db' := by
  cases pc with
  | deleting => exact h
  | committing =>
      obtain ⟨runs, hcount, hbatch⟩ := h
      refine ⟨runs, hcount, ?_⟩
      rw [hruns]
      exact hbatch
  | removing hashes =>
      intro hash hmem
      rw [Db.Unreferenced, hruns, hblobs]
      exact h hash hmem
  | _ => trivial

variable (rt fs interpret) in
/-- A step in which no pass removes an object when its connection, and with it the lease, is
lost. -/
structure Connected (s s' : State ι) : Prop where
  step : Step rt fs interpret s s'
  removes : ∀ p hashes, s.calls p = .severed (.removing hashes) → s'.calls p ≠ s.calls p →
    ∀ hash, s.db.objects hash → s'.db.objects hash

theorem Kept.to (h : Kept rt fs interpret s) {c : Call}
    (hindexed : Indexed rt fs interpret (s.to p db c))
    (hactive : (s.calls p).exclusive = true ∨ (s.calls p).shared = true ∨
      ∀ q, (s.calls q).exclusive = false)
    (hbytes : Bytes rt interpret db) (hgrows : (s.calls p).exclusive = false → Grows p s.db db)
    (hready : ∀ o pc, c = .persist o pc → pc.Ready p o db)
    (hknows : ∀ m pc, c = .maintain m pc → pc.Knows p m db) :
    Kept rt fs interpret (s.to p db c) := by
  have hlease := h.indexed.isOpen.lease
  refine ⟨hindexed, hbytes, fun q o pc hq => ?_, fun q m pc hq => ?_⟩
  · by_cases hqp : q = p
    · subst hqp
      rw [s.to_self] at hq
      exact hready o pc hq
    · rw [s.to_of_ne db c hqp] at hq
      cases hopen : pc.isOpen with
      | false => exact Persist.Ready.of_closed hopen
      | true =>
          have hshared : (s.calls q).shared = true := by
            rw [hq]
            exact hopen
          refine (h.ready q o pc hq).grows (hgrows ?_) hqp
          rw [← Bool.not_eq_true]
          intro hexclusive
          rw [(hlease p q hexclusive hqp).2] at hshared
          cases hshared
  · by_cases hqp : q = p
    · subst hqp
      rw [s.to_self] at hq
      exact hknows m pc hq
    · rw [s.to_of_ne db c hqp] at hq
      cases hopen : pc.isOpen with
      | false => exact Pass.Knows.of_closed hopen
      | true =>
          -- an open pass is alone
          have hexclusive : (s.calls q).exclusive = true := by
            rw [hq]
            exact hopen
          obtain ⟨hp, hp'⟩ := hlease q p hexclusive (Ne.symm hqp)
          rcases hactive with hactive | hactive | hnone
          · rw [hp] at hactive
            cases hactive
          · rw [hp'] at hactive
            cases hactive
          · rw [hnone q] at hexclusive
            cases hexclusive

/-- A call without its connection takes no row away, and no object when it removes none. -/
theorem Kept.late (h : Kept rt fs interpret s) {late late' : Late}
    (hindexed : Indexed rt fs interpret (s.to p db (.severed late')))
    (hstep : LateStep s.db late db late') (hobjects : ∀ hash, s.db.objects hash → db.objects hash) :
    Kept rt fs interpret (s.to p db (.severed late')) := by
  refine ⟨hindexed, h.bytes.of_runs hstep.runs hstep.blobs hobjects, fun q o pc hq => ?_,
    fun q m pc hq => ?_⟩
  · by_cases hqp : q = p
    · rw [hqp, s.to_self] at hq
      cases hq
    · rw [s.to_of_ne db _ hqp] at hq
      exact (h.ready q o pc hq).grows (.of_blobs p hstep.blobs hobjects) hqp
  · by_cases hqp : q = p
    · rw [hqp, s.to_self] at hq
      cases hq
    · rw [s.to_of_ne db _ hqp] at hq
      exact (h.knows q m pc hq).of_rows hstep.runs hstep.blobs

/-- Who can go on without the connection: an ingestion that publishes or a pass that removes. -/
theorem Call.late_cases {c : Call} {late : Late} (h : c.late = some late) :
    c.shared = true ∧ (∃ rest, late = .publishing rest) ∨ c.exclusive = true := by
  cases c with
  | persist o pc =>
      cases pc with
      | publishing rest =>
          cases h
          exact .inl ⟨rfl, rest, rfl⟩
      | _ => cases h
  | maintain m pc =>
      cases pc with
      | removing => exact .inr rfl
      | _ => cases h
  | _ => cases h

/-- What holds of the bytes is kept by every step. -/
theorem Connected.kept {s s' : State ι} (h : Kept rt fs interpret s)
    (hconnected : Connected rt fs interpret s s') : Kept rt fs interpret s' := by
  obtain ⟨hstep, hremoves⟩ := hconnected
  have hindexed := hstep.indexed h.indexed
  have hsame : ∀ p : ι, Grows p s.db s.db := fun p => .of_blobs p rfl fun _ => id
  cases hstep with
  | @ingest p o hp hoffered hnone =>
      refine h.to hindexed (.inr (.inr hnone)) h.bytes (fun _ => hsame p) (fun o' pc hc => ?_)
        fun m pc hc => by cases hc
      cases hc
      trivial
  | @persist p o pc pc' db hp hstep =>
      obtain ⟨hbytes, hready, hgrows⟩ := hstep.bytes h.indexed.isOpen hp
        (h.indexed.offers p o pc hp) h.bytes (h.ready p o pc hp)
      refine h.to hindexed (.inr (.inl ?_)) hbytes (fun _ => hgrows) (fun o' pc'' hc => ?_)
        fun m pc'' hc => by cases hc
      · rw [hp]
        exact hstep.isOpen
      · cases hc
        exact hready
  | @reindex p r hp hnone =>
      exact h.to hindexed (.inr (.inr hnone)) h.bytes (fun _ => hsame p) (fun o pc hc => by cases hc)
        fun m pc hc => by cases hc
  | @rebuild p r pc pc' db hp hstep =>
      obtain ⟨hbytes, hgrows⟩ := hstep.bytes h.bytes
      refine h.to hindexed (.inr (.inl ?_)) hbytes (fun _ => hgrows) (fun o pc'' hc => by cases hc)
        fun m pc'' hc => by cases hc
      rw [hp]
      exact hstep.isOpen
  | @sweep p m hp hnone =>
      refine h.to hindexed (.inr (.inr fun q => (hnone q).1)) h.bytes (fun _ => hsame p)
        (fun o pc hc => by cases hc) fun m' pc hc => ?_
      cases hc
      trivial
  | @maintain p m pc pc' db hp hstep =>
      have hexclusive : (s.calls p).exclusive = true := by
        rw [hp]
        exact hstep.isOpen
      obtain ⟨hbytes, hknows⟩ := hstep.bytes h.indexed.isOpen hp h.bytes (h.knows p m pc hp)
      refine h.to hindexed (.inl hexclusive) hbytes (fun hno => ?_) (fun o pc'' hc => by cases hc)
        fun m' pc'' hc => ?_
      · rw [hexclusive] at hno
        cases hno
      · cases hc
        exact hknows
  | @sever p late hlate =>
      refine h.to hindexed ?_ (h.bytes.finish p false) (fun _ => h.bytes.grows_finish p false)
        (fun o pc hc => by cases hc) fun m pc hc => by cases hc
      rcases Call.late_cases hlate with ⟨hshared, -⟩ | hexclusive
      · exact .inr (.inl hshared)
      · exact .inl hexclusive
  | @late p late late' db hp hstep =>
      refine h.late hindexed hstep ?_
      cases hstep with
      | publishes => exact fun hash => .inr
      | keeps => exact fun hash => id
      | @removes hash hashes =>
          refine hremoves p _ hp ?_
          rw [s.to_self, hp]
          simp

theorem kept_of_run {s₀ s : State ι} (hquiet : Quiet s₀) (hempty : s₀.db.Empty)
    (h : Relation.ReflTransGen (Connected rt fs interpret) s₀ s) : Kept rt fs interpret s := by
  induction h with
  | refl => exact hquiet.kept hempty
  | tail _ hstep ih => exact hstep.kept ih

/-- Without a pass no call is left removing. -/
theorem WriterStep.removes_none {s s' : State ι} (hstep : WriterStep rt fs interpret s s')
    (h : ∀ p hashes, s.calls p ≠ .severed (.removing hashes)) (p : ι) (hashes : List Text) :
    s'.calls p ≠ .severed (.removing hashes) := by
  have hto : ∀ {q : ι} {db : Db ι} {c : Call}, c ≠ .severed (.removing hashes) →
      (s.to q db c).calls p ≠ .severed (.removing hashes) := by
    intro q db c hc
    by_cases hpq : p = q
    · rw [hpq, s.to_self]
      exact hc
    · rw [s.to_of_ne db c hpq]
      exact h p hashes
  obtain ⟨hstep, hbefore, -⟩ := hstep
  cases hstep with
  | @sever q late hlate =>
      refine hto fun hc => ?_
      cases hc
      have hexclusive := hbefore q
      rcases Call.late_cases hlate with ⟨-, rest, hrest⟩ | hexclusive'
      · cases hrest
      · rw [hexclusive] at hexclusive'
        cases hexclusive'
  | @late q late late' db hq hstep =>
      refine hto fun hc => ?_
      cases hc
      cases hstep with
      | removes => exact h q _ hq
      | keeps => exact h q _ hq
  | _ => exact hto fun hc => by cases hc

/-- A run without a pass is one in which no pass goes on without its connection. -/
theorem WriterStep.connected {s₀ s : State ι} (hquiet : Quiet s₀)
    (h : Relation.ReflTransGen (WriterStep rt fs interpret) s₀ s) :
    Relation.ReflTransGen (Connected rt fs interpret) s₀ s ∧
      ∀ p hashes, s.calls p ≠ .severed (.removing hashes) := by
  induction h with
  | refl =>
      refine ⟨.refl, fun p hashes hp => ?_⟩
      rw [hquiet.calls] at hp
      cases hp
  | tail _ hstep ih =>
      obtain ⟨hrun, hnone⟩ := ih
      exact ⟨hrun.tail ⟨hstep.step, fun p hashes hp => absurd hp (hnone p hashes)⟩,
        hstep.removes_none hnone⟩

/-- Objects go only by a pass that removes what no run relates to. -/
theorem Connected.removed {s s' : State ι} (h : Kept rt fs interpret s)
    (hconnected : Connected rt fs interpret s s') {hash : Text} (hbefore : s.db.objects hash)
    (hafter : ¬ s'.db.objects hash) : s.db.Unreferenced hash := by
  obtain ⟨hstep, hremoves⟩ := hconnected
  have hgone : ∀ {p : ι} {db : Db ι}, Grows p s.db db → db.objects hash :=
    fun hgrows => hgrows.objects hash hbefore
  cases hstep with
  | ingest | reindex | sweep => exact absurd hbefore hafter
  | persist hp hstep =>
      exact absurd (hgone (hstep.bytes h.indexed.isOpen hp (h.indexed.offers _ _ _ hp) h.bytes
        (h.ready _ _ _ hp)).2.2) hafter
  | rebuild hp hstep => exact absurd (hgone (hstep.bytes h.bytes).2) hafter
  | maintain hp hstep =>
      have hknows := h.knows _ _ _ hp
      cases hstep with
      | @removes removed hashes =>
          by_cases heq : hash = removed
          · rw [heq]
            exact (List.forall_mem_cons.mp hknows).1.2
          · exact absurd ⟨heq, hbefore⟩ hafter
      | _ => exact absurd hbefore hafter
  | sever => exact absurd hbefore hafter
  | @late p late late' db hp hstep =>
      cases hstep with
      | publishes => exact absurd (.inr hbefore) hafter
      | keeps => exact absurd hbefore hafter
      | @removes removed hashes =>
          refine absurd (hremoves p _ hp ?_ hash hbefore) hafter
          rw [s.to_self, hp]
          simp

/-- The pass has ended the transaction of its batch. -/
def Call.past : Call → Bool
  | .maintain _ .collecting | .maintain _ (.removing _) | .maintain _ .finished => true
  | .severed _ => true
  | _ => false

/-- A pass deletes one batch. -/
theorem Step.past {s s' : State ι} (hstep : Step rt fs interpret s s') {p : ι}
    (h : (s.calls p).past = true) : (s'.calls p).past = true := by
  have hto : ∀ {q : ι} {db : Db ι} {c : Call}, ((s.calls q).past = false ∨ c.past = true) →
      ((s.to q db c).calls p).past = true := by
    intro q db c hc
    by_cases hpq : p = q
    · subst hpq
      rw [s.to_self]
      rcases hc with hfalse | htrue
      · rw [hfalse] at h
        cases h
      · exact htrue
    · rw [s.to_of_ne db c hpq]
      exact h
  cases hstep with
  | ingest hp | reindex hp | sweep hp => exact hto (.inl (by rw [hp]; rfl))
  | persist hp | rebuild hp => exact hto (.inl (by rw [hp]; rfl))
  | maintain hp hstep =>
      cases hstep with
      | selects | deletes => exact hto (.inl (by rw [hp]; rfl))
      | _ => exact hto (.inr rfl)
  | sever | late => exact hto (.inr rfl)

theorem past_of_run {s s' : State ι}
    (h : Relation.ReflTransGen (Connected rt fs interpret) s s') {p : ι}
    (hp : (s.calls p).past = true) : (s'.calls p).past = true := by
  induction h with
  | refl => exact hp
  | tail _ hstep ih => exact hstep.step.past ih

/-- Runs go only with the commit of a pass: at most as many as it may delete, each expired, and the
pass is past its batch then. -/
theorem Step.deleted {s s' : State ι} (h : Kept rt fs interpret s)
    (hstep : Step rt fs interpret s s') {k : RunKey} {rows : RunRows}
    (hbefore : (s.db.runs k).committed = some rows) (hafter : (s'.db.runs k).committed = none) :
    ∃ p m, ∃ runs : List RunKey, s.calls p = .maintain m .committing ∧ runs.length ≤ m.maxRuns ∧
      (∀ k rows, (s.db.runs k).committed = some rows → (s'.db.runs k).committed = none →
        k ∈ runs ∧ RunRows.expired m.asOf rows = true) ∧ (s'.calls p).past = true := by
  have hopen := h.indexed.isOpen
  have hstays : ∀ {p : ι} {db : Db ι}, (s.calls p).exclusive = false →
      (∀ k, Access p (s.db.runs k) (db.runs k)) → (db.runs k).committed ≠ none := by
    intro p db hp haccess hnone
    obtain ⟨rows', hrows', -⟩ := hopen.grown haccess hp k rows hbefore
    rw [hnone] at hrows'
    cases hrows'
  cases hstep with
  | ingest | reindex | sweep =>
      rw [show (s.db.runs k).committed = none from hafter] at hbefore
      cases hbefore
  | @persist p o pc pc' db hp hstep =>
      have hnone : (s.calls p).exclusive = false := by
        rw [hp]
        rfl
      exact absurd hafter (hstays hnone (hstep.moves hopen hp).1.access)
  | @rebuild p r pc pc' db hp hstep =>
      have hnone : (s.calls p).exclusive = false := by
        rw [hp]
        rfl
      exact absurd hafter (hstays hnone (hstep.moves hopen hp).1.access)
  | @maintain p m pc pc' db hp hstep =>
      -- the committed row of a run changes only with the end of a transaction that holds it
      have hheld : ∀ k rows, (s.db.runs k).committed = some rows → (db.runs k).committed = none →
          ∃ row, (s.db.runs k).held = some (p, row) := by
        intro k rows hsome hnone
        rcases ((hstep.moves hopen hp).access k).committed_cases with hsame | ⟨row, hrow, -⟩
        · rw [hsame, hsome] at hnone
          cases hnone
        · exact ⟨row, hrow⟩
      obtain ⟨row, hrow⟩ := hheld k rows hbefore hafter
      obtain ⟨-, rfl⟩ := hopen.held_by_pass hp hstep.isOpen hrow
      obtain ⟨runs, hcount, hbatch⟩ := h.knows p m .committing hp
      refine ⟨p, m, runs, hp, hcount, fun k' rows' hsome hnone => ?_, ?_⟩
      · obtain ⟨row', hrow'⟩ := hheld k' rows' hsome hnone
        obtain ⟨hk', -, rows'', hrows'', hexpired⟩ := hbatch k' row' hrow'
        rw [hsome] at hrows''
        rw [Option.some.inj hrows'']
        exact ⟨hk', hexpired⟩
      · rw [s.to_self]
        cases hstep <;> rfl
  | @sever p late hlate =>
      have hsame := (Slot.rollback_committed p (s.db.runs k)).symm.trans hafter
      rw [hbefore] at hsame
      cases hsame
  | @late p late late' db hp hstep =>
      change (db.runs k).committed = none at hafter
      rw [hstep.runs, hbefore] at hafter
      cases hafter

end steps

/-- Over every history of ingestions, rebuilds and destructive passes, with a failure possible
before any statement and a lost connection at any, in which no pass goes on to remove an object
when its connection is lost: an archived run relates to every blob that its source declares, with
the declared size in the catalog; every relation has a catalog row of a size that an offer of the
run's content declares and an object in the store; an object goes only when no archived run relates
to its hash; and archived runs go only with the one commit of a pass, at most as many as the pass
may delete, each with an expiry that has passed. -/
theorem bytes_kept {ι : Type} [DecidableEq ι] (rt : Runtime) (fs : FileSystem)
    (interpret : ℕ → ProjectedRun → Except Text DerivedQueryIndex) {s₀ s : State ι}
    (hquiet : Quiet s₀) (hempty : s₀.db.Empty)
    (h : Relation.ReflTransGen (Connected rt fs interpret) s₀ s) :
    (∀ k rows, (s.db.runs k).committed = some rows →
      Catalogued rt interpret s.db.sizes k rows ∧ ∀ hash ∈ rows.blobs,
        ∃ b, Declared rt interpret k rows b ∧ b.sha256 = hash ∧
          (s.db.blobs hash).committed = some b.sizeBytes ∧ s.db.objects hash) ∧
    ∀ s', Connected rt fs interpret s s' →
      (∀ hash, s.db.objects hash → ¬ s'.db.objects hash →
        ∀ k rows, (s.db.runs k).committed = some rows → hash ∉ rows.blobs) ∧
      ∀ k rows, (s.db.runs k).committed = some rows → (s'.db.runs k).committed = none →
        ∃ p m, ∃ runs : List RunKey, s.calls p = .maintain m .committing ∧
          runs.length ≤ m.maxRuns ∧
          (∀ k rows, (s.db.runs k).committed = some rows → (s'.db.runs k).committed = none →
            k ∈ runs ∧ RunRows.expired m.asOf rows = true) ∧
          ∀ t, Relation.ReflTransGen (Connected rt fs interpret) s' t →
            ∀ m', t.calls p ≠ .maintain m' .committing := by
  have hkept := kept_of_run hquiet hempty h
  have hsized := sized_of_run hquiet hempty (h.lift id fun _ _ hstep => hstep.step)
  refine ⟨fun k rows hrows => ⟨hsized.committed k rows hrows, hkept.bytes.committed k rows hrows⟩,
    fun s' hstep => ⟨fun hash hbefore hafter => ?_, ?_⟩⟩
  · exact hstep.removed hkept hbefore hafter
  · intro k rows hbefore hafter
    obtain ⟨p, m, runs, hp, hcount, hbatch, hpast⟩ := hstep.step.deleted hkept hbefore hafter
    refine ⟨p, m, runs, hp, hcount, hbatch, fun t hrun m' ht => ?_⟩
    have hlater := past_of_run hrun hpast
    rw [ht] at hlater
    cases hlater

/-- The run with an attachment is ingested, and a pass deletes it when it has expired. -/
theorem bytes_kept_expired : ∃ (o : Offer) (s s' : State Bool),
    Relation.ReflTransGen
      (Connected Sample.runtime Sample.attachedDirectory Sample.interpret) Sample.empty s ∧
    Connected Sample.runtime Sample.attachedDirectory Sample.interpret s s' ∧
    (s.db.runs o.key).committed = some (o.rows 0) ∧ Sample.attachedHash ∈ (o.rows 0).blobs ∧
    s.db.objects Sample.attachedHash ∧ (s'.db.runs o.key).committed = none ∧
    ∃ p m, ∃ runs : List RunKey, s.calls p = .maintain m .committing ∧ runs.length ≤ m.maxRuns ∧
      o.key ∈ runs := by
  obtain ⟨o, db, -, hshown, hrun, hrows, hstill⟩ := Sample.attached_archived
  have hconnected := (WriterStep.connected Sample.empty_quiet hrun).1
  generalize hbase :
    Sample.empty.to true db (.persist o (.answered (.inserted o.archive.runId 0))) = base
    at hconnected hstill
  have hdb : base.db = db := by
    rw [← hbase]
    rfl
  have hcalls : base.calls true = .persist o (.answered (.inserted o.archive.runId 0)) := by
    rw [← hbase]
    exact State.to_self ..
  have hidle : base.calls false = .idle := hstill.idle
  -- a statement of the pass, which is the only call that is open
  have hnext : ∀ {db db' : Db Bool} {pc pc' : Pass},
      PassStep false ⟨o.expiresAt, 1⟩ db pc db' pc' →
      Connected Sample.runtime Sample.attachedDirectory Sample.interpret
        (base.to false db (.maintain ⟨o.expiresAt, 1⟩ pc))
        (base.to false db' (.maintain ⟨o.expiresAt, 1⟩ pc')) := by
    intro db db' pc pc' hstep
    refine ⟨?_, fun p hashes hp => ?_⟩
    · rw [← base.to_to false db db' (.maintain ⟨o.expiresAt, 1⟩ pc)]
      exact .maintain (base.to_self ..) hstep
    · cases p with
      | false =>
          rw [base.to_self] at hp
          cases hp
      | true =>
          rw [base.to_of_ne _ _ (by decide), hcalls] at hp
          cases hp
  have hsweep : Connected Sample.runtime Sample.attachedDirectory Sample.interpret base
      (base.to false base.db (.maintain ⟨o.expiresAt, 1⟩ .selecting)) := by
    refine ⟨.sweep hidle fun q => ⟨hstill.lease q, ?_⟩, fun p hashes hp => ?_⟩
    · cases q with
      | false => rw [hidle]; rfl
      | true => rw [hcalls]; rfl
    · cases p with
      | false =>
          rw [hidle] at hp
          cases hp
      | true =>
          rw [hcalls] at hp
          cases hp
  have hbefore : (base.db.runs o.key).committed = some (o.rows 0) := by rw [hdb, hrows]
  have hexpired : RunRows.expired o.expiresAt (o.rows 0) = true := decide_eq_true (le_refl o.expiresAt)
  have hseen : (base.db.runs o.key).seenBy false = some (o.rows 0) := by
    rw [Slot.seenBy, hstill.runs]
    exact hbefore
  have hdeleted : (base.db.deleteRuns false o.expiresAt [o.key]).runs o.key =
      (base.db.runs o.key).leave false none :=
    if_pos ⟨List.mem_cons_self, by rw [hseen]; exact hexpired⟩
  have hselects : PassStep false ⟨o.expiresAt, 1⟩ base.db .selecting base.db (.deleting [o.key]) := by
    refine .selects (le_refl 1) (List.nodup_singleton _) fun k hk => ?_
    rw [List.mem_singleton.mp hk]
    exact ⟨_, hbefore, hexpired⟩
  have hreached := ((hconnected.tail hsweep).tail (hnext hselects)).tail
    (hnext (.deletes fun k _ => hstill.free k))
  have hcommit := @hnext (base.db.deleteRuns false o.expiresAt [o.key]) _ _ _ .commits
  have hcommitted : ((base.db.deleteRuns false o.expiresAt [o.key]).runs o.key).committed =
      some (o.rows 0) := by
    rw [hdeleted]
    exact hbefore
  have hgone : (((base.db.deleteRuns false o.expiresAt [o.key]).finish false true).runs
      o.key).committed = none := by
    rw [Db.finish]
    dsimp only
    rw [hdeleted, Slot.finish_of_held true rfl]
    rfl
  have hmem : Sample.attachedHash ∈ (o.rows 0).blobs := by
    rw [Offer.rows, Offer.hashes, hshown]
    exact List.mem_singleton_self _
  obtain ⟨hbacked, hkept⟩ := bytes_kept Sample.runtime Sample.attachedDirectory Sample.interpret
    Sample.empty_quiet (fun _ => rfl) hreached
  obtain ⟨-, -, -, -, hobject⟩ :=
    (hbacked o.key (o.rows 0) hcommitted).2 Sample.attachedHash hmem
  obtain ⟨p, m, runs, hp, hcount, hbatch, -⟩ := (hkept _ hcommit).2 o.key (o.rows 0) hcommitted hgone
  exact ⟨o, _, _, hreached, hcommit, hcommitted, hmem, hobject, hgone, p, m, runs, hp, hcount,
    (hbatch o.key (o.rows 0) hcommitted hgone).1⟩

end Archiving

end QeReport

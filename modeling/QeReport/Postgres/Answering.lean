import QeReport.Postgres.Once

/-! # An ingestion that is left to itself

On a database at rest, beside no other call, an ingestion whose statements all work comes to an
answer (`answers_of_repairs`), unless the run it offers is archived and its index has to be rebuilt
from a stored source that no longer replays (`repairs_of_answers`). -/

namespace QeReport

open Reclaim (RunKey)

namespace Archiving

open Slots

section answering
variable {ι : Type} [DecidableEq ι]
variable (rt : Runtime) (fs : FileSystem)
  (interpret : ℕ → ProjectedRun → Except Text DerivedQueryIndex)

/-- A statement of the ingestion that works. -/
def Works (p : ι) (o : Offer) (a b : Db ι × Persist) : Prop :=
  PersistStep rt fs interpret p o a.1 a.2 b.1 b.2 ∧ b.2 ≠ .failed

/-- With statements that work the ingestion comes to an answer from there. -/
def AnswersFrom (p : ι) (o : Offer) (db : Db ι) (pc : Persist) : Prop :=
  ∃ db' r, Relation.ReflTransGen (Works rt fs interpret p o) (db, pc) (db', .answered r)

/-- The ingestion answers `inserted`, `already_present` or `conflict`. -/
def Answers (p : ι) (o : Offer) (db : Db ι) : Prop := AnswersFrom rt fs interpret p o db .looking

/-- The rows are archived from the source of the offer. -/
structure Archived (o : Offer) (rows : RunRows) : Prop where
  head : ∃ n, rows.head = o.head n
  lines : rows.lines = o.archive.lines

/-- No transaction is open, every hash of the offer that is catalogued has its size, and a run
that is archived under the identity with the same content is archived from the same source. -/
structure AtRest (o : Offer) (db : Db ι) : Prop where
  runs : ∀ k, (db.runs k).held = none
  blobs : ∀ h, (db.blobs h).held = none
  sizes : ∀ b ∈ o.archive.requiredBlobs, ∀ n, (db.blobs b.sha256).committed = some n →
    n = b.sizeBytes
  source : ∀ rows, (db.runs o.key).committed = some rows →
    (rows.fingerprintFor rt o.archive.fingerprintVersion).fingerprint =
      o.archive.contentFingerprint → Archived o rows

/-- The index of the rows can be repaired. -/
def Repairs (o : Offer) (rows : RunRows) : Prop :=
  ∃ rows' rebuilt, repairStoredIndex rt fs interpret o.version o.key rows = some (rows', rebuilt)

variable {rt fs interpret} {p : ι} {o : Offer} {db db' : Db ι} {pc pc' : Persist}

theorem AnswersFrom.head (hstep : PersistStep rt fs interpret p o db pc db' pc')
    (hne : pc' ≠ .failed) (h : AnswersFrom rt fs interpret p o db' pc') :
    AnswersFrom rt fs interpret p o db pc := by
  obtain ⟨db'', r, hrun⟩ := h
  exact ⟨db'', r, .head ⟨hstep, hne⟩ hrun⟩

theorem answersFrom_answered (r : PersistResult) :
    AnswersFrom rt fs interpret p o db (.answered r) := ⟨db, r, .refl⟩

/-! ### The end of a transaction -/

theorem Archived.extends {rows rows' : RunRows} (h : Archived o rows) (hextends : rows.Extends rows') :
    Archived o rows' := by
  obtain ⟨⟨n, hhead⟩, hlines⟩ := h
  exact ⟨⟨n, hextends.head.trans hhead⟩, hextends.lines.trans hlines⟩

/-- A transaction that holds the archived run repairs its index and commits. -/
theorem answersFrom_retaining (hrepairs : ∀ rows, Archived o rows → Repairs rt fs interpret o rows)
    {rows : RunRows} (hholds : db.Holds p o.key rows) (harchived : Archived o rows)
    (stored : StoredFingerprint) (added : ℕ) :
    AnswersFrom rt fs interpret p o db (.retaining stored added) := by
  obtain ⟨hretained, hholds⟩ := hholds.writes (recordRetention o.expiresAt rows).1
  obtain ⟨rows', rebuilt, hrepaired⟩ := hrepairs _
    (harchived.extends (RunRows.recordRetention_extends o.expiresAt rows))
  obtain ⟨hwritten, -⟩ := hholds.writes rows'
  refine .head (.retains hretained) (by simp) ?_
  refine .head (.repairs hrepaired hwritten) (by simp) ?_
  exact .head .commits (by simp) (answersFrom_answered _)

/-! ### Blobs -/

/-- Two blobs of one hash are one blob. -/
def Distinct (blobs : List RequiredBlob) : Prop :=
  ∀ b ∈ blobs, ∀ c ∈ blobs, b.sha256 = c.sha256 → b = c

theorem recordsBlobs {blobs : List RequiredBlob} (hdistinct : Distinct blobs)
    (hheld : ∀ h, (db.blobs h).held = none)
    (hsizes : ∀ b ∈ blobs, ∀ n, (db.blobs b.sha256).committed = some n → n = b.sizeBytes) :
    db.RecordsBlobs p blobs (db.insertBlobs p blobs) := by
  have hseen : ∀ h, (db.blobs h).seenBy p = (db.blobs h).committed := by
    intro h
    rw [Slot.seenBy, hheld]
  refine ⟨fun b hb q row hq => ?_, rfl, fun b hb => ?_⟩
  · rw [hheld] at hq
    cases hq
  · rw [Db.insertBlobs]
    dsimp only
    cases hcommitted : (db.blobs b.sha256).committed with
    | some n =>
        rw [hseen, hcommitted]
        dsimp only
        rw [hseen, hcommitted, hsizes b hb n hcommitted]
    | none =>
        rw [hseen, hcommitted]
        cases hfind : blobs.find? (fun c => c.sha256 = b.sha256) with
        | none =>
            have hnone := List.find?_eq_none.mp hfind b hb
            exact absurd (decide_eq_true rfl) hnone
        | some c =>
            have hsame : c.sha256 = b.sha256 := of_decide_eq_true (List.find?_some hfind :)
            rw [hdistinct b hb c (List.mem_of_find?_eq_some hfind) hsame.symm]
            exact Slot.seenBy_of_held rfl

/-- The store takes every blob. -/
theorem answersFrom_publishing
    (h : ∀ objects, AnswersFrom rt fs interpret p o { db with objects := objects } .claiming)
    (rest : List RequiredBlob) : AnswersFrom rt fs interpret p o db (.publishing rest) := by
  have hall : ∀ objects, AnswersFrom rt fs interpret p o { db with objects := objects }
      (.publishing rest) := by
    induction rest with
    | nil => exact fun objects => .head .published (by simp) (h objects)
    | cons b rest ih =>
        intro objects
        refine .head (.publishes List.mem_cons_self) (by simp) ?_
        rw [List.erase_cons_head]
        exact ih _
  exact hall db.objects

/-! ### The way to an answer -/

omit [DecidableEq ι] in
theorem AtRest.of_rows (h : AtRest rt o db) (hruns : db'.runs = db.runs)
    (hblobs : db'.blobs = db.blobs) : AtRest rt o db' := by
  refine ⟨?_, ?_, ?_, ?_⟩
  · rw [hruns]
    exact h.runs
  · rw [hblobs]
    exact h.blobs
  · rw [hblobs]
    exact h.sizes
  · rw [hruns]
    exact h.source

omit [DecidableEq ι] in
theorem AtRest.free (h : AtRest rt o db) (k : RunKey) : (db.runs k).FreeFor p := by
  intro q row hq
  rw [h.runs] at hq
  cases hq

/-- The run is not archived: the ingestion inserts it. -/
theorem answersFrom_claiming (h : AtRest rt o db) (hdistinct : Distinct o.archive.requiredBlobs)
    (hproject : o.offeredIndex.run.projectId = o.key.projectId)
    (hrunId : o.offeredIndex.run.runId = o.key.runId)
    (hnone : (db.runs o.key).committed = none) : AnswersFrom rt fs interpret p o db .claiming := by
  refine .head (.claims (h.free _) hnone) (by simp) ?_
  refine .head (.records (recordsBlobs hdistinct h.blobs h.sizes)) (by simp) ?_
  have hholds : ({ db with sequence := db.sequence + 1 }.leave p o.key
      (some ⟨o.head db.sequence, [], [], none, none, []⟩) |>.insertBlobs p
        o.archive.requiredBlobs).Holds p o.key ⟨o.head db.sequence, [], [], none, none, []⟩ := by
    unfold Db.Holds
    rw [Db.insertBlobs_runs, Db.leave_runs]
    rfl
  obtain ⟨hlines, hholds⟩ := hholds.writes ⟨o.head db.sequence, o.archive.lines, [], none, none, []⟩
  refine .head (.writes hlines) (by simp) ?_
  obtain ⟨hrelated, hholds⟩ := hholds.writes (relateBlobs o.hashes
    ⟨o.head db.sequence, o.archive.lines, [], none, none, []⟩).1
  refine .head (.relatesAll hrelated) (by simp) ?_
  obtain ⟨hretained, hholds⟩ := hholds.writes (recordRetention o.expiresAt _).1
  refine .head (.retainsNew hretained) (by simp) ?_
  obtain ⟨rows', hreplaced⟩ : ∃ rows', replaceQueryIndex o.key o.version o.offeredIndex
      o.archive.contentFingerprint (recordRetention o.expiresAt (relateBlobs o.hashes
        ⟨o.head db.sequence, o.archive.lines, [], none, none, []⟩).1).1 = .ok rows' :=
    ⟨_, if_neg (by rw [not_or, not_not, not_not]; exact ⟨hproject, hrunId⟩)⟩
  obtain ⟨hindexed, -⟩ := hholds.writes rows'
  refine .head (.indexesNew hreplaced hindexed) (by simp) ?_
  exact .head .inserts (by simp) (answersFrom_answered _)

section archived
variable {rows : RunRows}

/-- The run is archived from the same source: the ingestion gives it what it lacks. -/
theorem answersFrom_claiming_archived (h : AtRest rt o db)
    (hdistinct : Distinct o.archive.requiredBlobs)
    (hrepairs : ∀ rows, Archived o rows → Repairs rt fs interpret o rows)
    (hrows : (db.runs o.key).committed = some rows) (harchived : Archived o rows) :
    AnswersFrom rt fs interpret p o db .claiming := by
  obtain ⟨⟨n, hhead⟩, -⟩ := id harchived
  have hseen : (db.runs o.key).seenBy p = some rows := by
    rw [Slot.seenBy, h.runs]
    exact hrows
  refine .head (.loses (fun q row hq => by rw [h.runs] at hq; cases hq) hrows) (by simp) ?_
  refine .head (.looksLost hrows (by rw [hhead]; rfl)) (by simp [Offer.compare, hhead, Offer.head]) ?_
  rw [Offer.compare, if_neg (by rw [hhead]; exact not_not.mpr rfl)]
  have hheld := @Db.Writes.mk ι _ { db with sequence := db.sequence + 1 } p o.key rows rows _
    (h.free _) hseen rfl
  refine .head (.holds hheld) (by simp) ?_
  have hholds : ({ db with sequence := db.sequence + 1 }.leave p o.key (some rows)).Holds p o.key
      rows := by
    unfold Db.Holds
    rw [Db.leave_runs]
    rfl
  refine .head (.surveys (Slot.seenBy_of_held hholds) rfl) (by split_ifs <;> simp) ?_
  split_ifs with hmissing
  · exact answersFrom_retaining hrepairs hholds harchived _ _
  · have hsub : ∀ b ∈ o.archive.requiredBlobs.filter (fun b => b.sha256 ∉ rows.blobs),
        b ∈ o.archive.requiredBlobs := fun b hb => List.mem_of_mem_filter hb
    refine .head (.recordsMissing (recordsBlobs (fun b hb c hc => hdistinct b (hsub b hb) c (hsub c hc))
      h.blobs fun b hb => h.sizes b (hsub b hb))) (by simp) ?_
    have hrecorded : ({ db with sequence := db.sequence + 1 }.leave p o.key (some rows)
        |>.insertBlobs p (o.archive.requiredBlobs.filter (fun b => b.sha256 ∉ rows.blobs))).Holds p
          o.key rows := hholds
    obtain ⟨hrelated, hholds⟩ := hrecorded.writes
      (relateBlobs ((o.archive.requiredBlobs.filter (fun b => b.sha256 ∉ rows.blobs)).map
        (fun b => b.sha256)) rows).1
    refine .head (.relatesMissing hrelated) (by simp) ?_
    exact answersFrom_retaining hrepairs hholds
      (harchived.extends (RunRows.relateBlobs_extends _ _)) _ _

/-- An archived run of the same source is found by the first look. -/
theorem answersFrom_relating (h : AtRest rt o db) (hdistinct : Distinct o.archive.requiredBlobs)
    (hrepairs : ∀ rows, Archived o rows → Repairs rt fs interpret o rows)
    (hrows : (db.runs o.key).committed = some rows) (harchived : Archived o rows)
    (stored : StoredFingerprint) :
    AnswersFrom rt fs interpret p o db (.relating stored) := by
  refine .head (.relates rfl) (by split_ifs <;> simp) ?_
  split_ifs
  · refine answersFrom_publishing (fun objects => ?_) _
    exact answersFrom_claiming_archived (h.of_rows rfl rfl) hdistinct hrepairs hrows harchived
  · have hseen : (db.runs o.key).seenBy p = some rows := by
      rw [Slot.seenBy, h.runs]
      exact hrows
    refine .head (.locks ⟨h.free _, hseen, rfl⟩) (by simp) ?_
    refine answersFrom_retaining hrepairs ?_ harchived _ _
    unfold Db.Holds
    rw [Db.leave_runs]
    rfl

end archived

/-- The ingestion answers when a stored run of the same source can be repaired. -/
theorem answers_of_repairs (h : AtRest rt o db) (hdistinct : Distinct o.archive.requiredBlobs)
    (hproject : o.offeredIndex.run.projectId = o.key.projectId)
    (hrunId : o.offeredIndex.run.runId = o.key.runId)
    (hrepairs : ∀ rows, Archived o rows → Repairs rt fs interpret o rows) :
    Answers rt fs interpret p o db := by
  cases hrows : (db.runs o.key).committed with
  | none =>
      refine .head (.absent hrows) (by simp) ?_
      refine answersFrom_publishing (fun objects => ?_) _
      exact answersFrom_claiming (h.of_rows rfl rfl) hdistinct hproject hrunId hrows
  | some rows =>
      by_cases hsame : (rows.fingerprintFor rt o.archive.fingerprintVersion).fingerprint =
          o.archive.contentFingerprint
      · have harchived := h.source rows hrows hsame
        obtain ⟨⟨n, hhead⟩, -⟩ := id harchived
        refine .head (.looks hrows (by rw [hhead]; rfl)) (by simp [Offer.compare, hhead, Offer.head]) ?_
        rw [Offer.compare, if_neg (by rw [hhead]; exact not_not.mpr rfl)]
        exact answersFrom_relating h hdistinct hrepairs hrows harchived _
      · -- other content: a conflict
        by_cases hversion : rows.head.fingerprintVersion = o.archive.fingerprintVersion
        · rw [fingerprintFor_same hversion] at hsame
          refine .head (.looks hrows hversion) (by simp [Offer.compare, hsame]) ?_
          rw [Offer.compare, if_pos hsame]
          exact answersFrom_answered _
        · rw [fingerprintFor_older hversion] at hsame
          refine .head (.looksOlder hrows hversion) (by simp) ?_
          refine .head (.recomputes rfl) ?_ ?_
          · rw [hrows]
            simp [Offer.compare, hsame]
          · rw [hrows, Option.map_some, Option.getD_some, Offer.compare, if_pos hsame]
            exact answersFrom_answered _

/-! ### What an answer takes -/

/-- The statements up to the repair of the index. -/
def Persist.early : Persist → Bool
  | .looking | .relating _ | .locking _ | .publishing _ | .claiming | .losing | .holding _
  | .surveying _ | .recordingMissing .. | .relatingMissing .. | .retaining .. | .indexing .. => true
  | _ => false

/-- The rows are archived from the source of the offer, without an index. -/
structure Unindexed (o : Offer) (rows : RunRows) : Prop where
  archived : Archived o rows
  index : rows.index = none

/-- Before its repair an ingestion sees no index. -/
structure Early (p : ι) (o : Offer) (db : Db ι) (pc : Persist) : Prop where
  committed : ∃ rows, (db.runs o.key).committed = some rows ∧ Unindexed o rows
  seen : ∀ rows, (db.runs o.key).seenBy p = some rows → Unindexed o rows
  early : pc.early = true

theorem Early.next (h : Early p o db pc) (hruns : db'.runs = db.runs) (hearly : pc'.early = true) :
    Early p o db' pc' := by
  refine ⟨?_, ?_, hearly⟩
  · rw [hruns]
    exact h.committed
  · rw [hruns]
    exact h.seen

theorem Early.writes (h : Early p o db pc) {rows rows' : RunRows}
    (hwrites : db.Writes p o.key rows rows' db') (hextends : rows.Extends rows')
    (hindex : rows'.index = rows.index) (hearly : pc'.early = true) : Early p o db' pc' := by
  have hrows := h.seen rows hwrites.seen
  refine ⟨?_, fun r hr => ?_, hearly⟩
  · rw [hwrites.slot]
    exact h.committed
  · rw [hwrites.slot, Slot.seenBy_of_held rfl] at hr
    obtain rfl := Option.some.inj hr
    exact ⟨hrows.archived.extends hextends, hindex.trans hrows.index⟩

theorem Archived.compare {rows : RunRows} (h : Archived o rows)
    (next : StoredFingerprint → Persist) :
    ∃ stored, o.compare ⟨rows.head.contentFingerprint, rows.head.ingestionSequence⟩ next =
      next stored := by
  obtain ⟨⟨n, hhead⟩, -⟩ := h
  exact ⟨_, if_neg (by rw [hhead]; exact not_not.mpr rfl)⟩

theorem Archived.version {rows : RunRows} (h : Archived o rows) :
    rows.head.fingerprintVersion = o.archive.fingerprintVersion := by
  obtain ⟨⟨n, hhead⟩, -⟩ := h
  rw [hhead]
  rfl

/-- A statement that works leaves the ingestion before its repair, or is the repair. -/
theorem Works.early {a b : Db ι × Persist} (hworks : Works rt fs interpret p o a b)
    (h : Early p o a.1 a.2) :
    Early p o b.1 b.2 ∨ ∃ rows, Unindexed o rows ∧ Repairs rt fs interpret o rows := by
  obtain ⟨db, pc⟩ := a
  obtain ⟨db', pc'⟩ := b
  obtain ⟨hstep, hne⟩ := hworks
  dsimp only at hstep hne h ⊢
  obtain ⟨rows₀, hrows₀, hunindexed⟩ := h.committed
  have hsome : ∀ {rows}, (db.runs o.key).committed = some rows → Unindexed o rows := by
    intro rows hrows
    rw [hrows₀] at hrows
    obtain rfl := Option.some.inj hrows
    exact hunindexed
  cases hstep with
  | absent hnone | gone _ hnone | claims _ hnone =>
      rw [hrows₀] at hnone
      cases hnone
  | looks hrows hversion =>
      obtain ⟨stored, hcompare⟩ := (hsome hrows).archived.compare .relating
      rw [hcompare]
      exact .inl (h.next rfl rfl)
  | looksLost hrows hversion =>
      obtain ⟨stored, hcompare⟩ := (hsome hrows).archived.compare .holding
      rw [hcompare]
      exact .inl (h.next rfl rfl)
  | looksOlder hrows hversion | looksLostOlder hrows hversion =>
      exact absurd (hsome hrows).archived.version hversion
  | relates =>
      refine .inl (h.next rfl ?_)
      split_ifs <;> rfl
  | surveys =>
      refine .inl (h.next rfl ?_)
      split_ifs <;> rfl
  | locks hwrites | holds hwrites =>
      exact .inl (h.writes hwrites (.refl _) rfl rfl)
  | publishes | published | loses => exact .inl (h.next rfl rfl)
  | recordsMissing hrecords => exact .inl (h.next hrecords.runs rfl)
  | relatesMissing hwrites =>
      exact .inl (h.writes hwrites (RunRows.relateBlobs_extends _ _) rfl rfl)
  | retains hwrites =>
      refine .inl (h.writes hwrites (RunRows.recordRetention_extends _ _) ?_ rfl)
      unfold recordRetention
      split <;> rfl
  | repairs hrepaired hwrites => exact .inr ⟨_, h.seen _ hwrites.seen, _, _, hrepaired⟩
  | insertsUnheard | commitsUnheard | fails => exact absurd rfl hne
  | _ => cases h.early

/-- An ingestion of a run that is archived without an index answers only when its stored source
still derives one. -/
theorem repairs_of_answers {rows : RunRows} (hheld : (db.runs o.key).held = none)
    (hrows : (db.runs o.key).committed = some rows) (hunindexed : Unindexed o rows)
    (h : Answers rt fs interpret p o db) :
    ∃ rows, Unindexed o rows ∧ Repairs rt fs interpret o rows := by
  obtain ⟨db', r, hrun⟩ := h
  have hearly : Early p o db .looking := by
    refine ⟨⟨rows, hrows, hunindexed⟩, fun r hr => ?_, rfl⟩
    rw [Slot.seenBy, hheld] at hr
    change (db.runs o.key).committed = some r at hr
    rw [hrows] at hr
    obtain rfl := Option.some.inj hr
    exact hunindexed
  have hinv : ∀ b, Relation.ReflTransGen (Works rt fs interpret p o) (db, .looking) b →
      Early p o b.1 b.2 ∨ ∃ rows, Unindexed o rows ∧ Repairs rt fs interpret o rows := by
    intro b hb
    induction hb with
    | refl => exact .inl hearly
    | tail _ hstep ih =>
        rcases ih with hb | hrepairs
        · exact hstep.early hb
        · exact .inr hrepairs
  rcases hinv _ hrun with hlate | hrepairs
  · cases hlate.early
  · exact hrepairs

end answering

end Archiving

end QeReport

import QeReport.Lib.Slots
import QeReport.Postgres.Tables

/-! # Archiving beside other writers

The calls that change the archive, each one statement at a time: `persistRunDirectory` from the
look of `knownRun` to the end of `archiveWithin`, `rebuildProjectIndex`, and a destructive
maintenance pass.  Any number of them run beside each other on one database, which is read as it
is committed, and on one blob store; every call may fail, or its process stop, before any of its
statements, which rolls its transaction back and gives its lease up.  A `COMMIT` may be applied
although its answer is lost.

An ingestion and a rebuild hold the maintenance lock shared and a pass holds it exclusively
(`withIngestionLock`, `withMaintenanceLock`).  The lock is of the session, so PostgreSQL frees it
when the connection is lost, which a call learns with its next statement and not before: an
ingestion goes on to publish, and a pass to remove, what it has already asked about (`severed`).
`INSERT … ON CONFLICT DO NOTHING` waits for a
transaction that is inserting or deleting the key, and `SELECT … FOR UPDATE` for one that holds
its row. -/

namespace QeReport

open Reclaim (RunKey)

namespace Archiving

open Slots

/-! ### What is offered -/

/-- The arguments of `persistRunDirectory`. -/
structure PersistRequest where
  projectId : Text
  runDirectory : Text
  expiresAt : ℤ
  sourceLocator : Option Text

/-- What an ingestion has in hand when it takes the lease. -/
structure Offer where
  key : RunKey
  sourceLocator : Text
  archive : RunArchive
  expiresAt : ℤ
  /-- `QUERY_INDEX_VERSION` of the software that makes the call. -/
  version : ℕ
  offeredIndex : DerivedQueryIndex

inductive Refusal where
  | rejected (reason : Text) (runId : Option Text) (diagnostics : List Diagnostic)
  | thrown

/-- `relativeTo(runDirectory, validated)`, given what it makes of the name of a file. -/
def relativeTo (name : Text → Except Text Text) (validated : ValidatedRun) :
    Except Text ValidatedRun := do
  let diagnostics ← validated.report.diagnostics.mapM
    (fun d => (fun file => { d with file := file }) <$> name d.file)
  let sourceLines ← validated.sourceLines.mapM
    (fun l => (fun file => { l with sourceFile := file }) <$> name l.sourceFile)
  return ⟨{ validated.report with diagnostics := diagnostics }, validated.events, sourceLines⟩

section offer
variable (rt : Runtime) (interpret : ℕ → ProjectedRun → Except Text DerivedQueryIndex)

/-- What is made of a validated run directory. -/
def offerFrom (version : ℕ) (request : PersistRequest) (validated : ValidatedRun) :
    Except Refusal Offer :=
  let thrown {α ε : Type} (e : Except ε α) : Except Refusal α := e.mapError (fun _ => .thrown)
  let sourceLocator := request.sourceLocator.getD request.runDirectory
  let runId := validated.sourceLines.head?.map (fun l => l.runId)
  if validated.report.valid = false then
    .error (.rejected (txt "RUN_INVALID") runId
      (validated.report.diagnostics.filter (fun d => d.severity = .error)))
  else if validated.report.summary.complete = false then
    .error (.rejected (txt "RUN_INCOMPLETE") runId
      (validated.report.diagnostics.filter (fun d => d.code = .incompleteRun)))
  else if validated.report.summary.events = 0 then
    .error (.rejected (txt "RUN_EMPTY") none [])
  else do
    let archive ← thrown (buildArchive rt validated)
    let run ← thrown (projectRun request.projectId sourceLocator validated)
    let offeredIndex ← thrown (interpret version run)
    return ⟨⟨request.projectId, archive.runId⟩, sourceLocator, archive, request.expiresAt, version,
      offeredIndex⟩

/-- `persistRunDirectory` up to the lease.  `name` makes a file name relative to the directory. -/
def offerOf (fs : FileSystem) (name : Text → Except Text Text) (version : ℕ)
    (request : PersistRequest) : Except Refusal Offer := do
  (checkProjectId request.projectId).mapError (fun _ => .thrown)
  match validateRunDirectorySnapshot rt fs request.runDirectory retainOptions with
  | none => .error .thrown
  | some snapshot =>
      let validated ← if request.sourceLocator = none then .ok snapshot
        else (relativeTo name snapshot).mapError (fun _ => .thrown)
      offerFrom rt interpret version request validated

/-- The offers of valid, complete run directories. -/
def Offered (o : Offer) : Prop :=
  ∃ fs name version request, offerOf rt interpret fs name version request = .ok o

end offer

/-- The row that `INSERT INTO qe_runs` writes. -/
def Offer.head (o : Offer) (ingestionSequence : ℕ) : RunHead where
  ingestionSequence := ingestionSequence
  sourceLocator := o.sourceLocator
  contentFingerprint := o.archive.contentFingerprint
  fingerprintVersion := o.archive.fingerprintVersion
  protocolVersions := o.archive.protocolVersions
  sourceLineCount := o.archive.lines.length
  sourceAttachmentsVerified := o.archive.sourceAttachmentsVerified
  validationSummary := o.archive.summary

def Offer.hashes (o : Offer) : List Text := o.archive.requiredBlobs.map (fun b => b.sha256)

/-! ### The database -/

/-- The database and the blob store. -/
structure Db (ι : Type) where
  /-- `qe_runs` with the tables that hang on it. -/
  runs : Table ι RunKey RunRows
  /-- The sizes in `qe_blobs`. -/
  blobs : Table ι Text ℤ
  /-- The hashes whose object is in the store. -/
  objects : Text → Prop
  /-- The next value of `ingestion_sequence`. -/
  sequence : ℕ

namespace Db
variable {ι : Type} [DecidableEq ι]

/-- A statement of the transaction `p` leaves rows under a run. -/
def leave (db : Db ι) (p : ι) (k : RunKey) (rows : Option RunRows) : Db ι :=
  { db with runs := Function.update db.runs k ((db.runs k).leave p rows) }

/-- A statement of the transaction sees the one rows under a run and leaves the other; it waits for
any other transaction that holds the run. -/
structure Writes (db : Db ι) (p : ι) (k : RunKey) (rows rows' : RunRows) (db' : Db ι) : Prop where
  free : (db.runs k).FreeFor p
  seen : (db.runs k).seenBy p = some rows
  left : db' = db.leave p k (some rows')

/-- `COMMIT` or `ROLLBACK`. -/
def finish (db : Db ι) (p : ι) (commit : Bool) : Db ι :=
  { db with
    runs := fun k => (db.runs k).finish p commit
    blobs := fun h => (db.blobs h).finish p commit }

/-- The `INSERT INTO qe_blobs … ON CONFLICT DO NOTHING` of `recordBlobs`. -/
def insertBlobs (db : Db ι) (p : ι) (blobs : List RequiredBlob) : Db ι :=
  { db with
    blobs := fun h =>
      match (db.blobs h).seenBy p, blobs.find? (fun b => b.sha256 = h) with
      | none, some b => (db.blobs h).leave p (some b.sizeBytes)
      | _, _ => db.blobs h }

/-- `recordBlobs` returns: its insert waits for nobody, and every size read back is the one to
record. -/
structure RecordsBlobs (db : Db ι) (p : ι) (blobs : List RequiredBlob) (db' : Db ι) : Prop where
  free : ∀ b ∈ blobs, (db.blobs b.sha256).FreeFor p
  inserted : db' = db.insertBlobs p blobs
  sizes : ∀ b ∈ blobs, (db'.blobs b.sha256).seenBy p = some b.sizeBytes

end Db

/-! ### An ingestion -/

inductive PersistResult where
  | inserted (runId : Text) (ingestionSequence : ℕ)
  | alreadyPresent (runId : Text) (ingestionSequence blobRelationsAdded : ℕ)
      (retentionAdded queryIndexRebuilt : Bool)
  | conflict (runId storedFingerprint offeredFingerprint : Text)
deriving DecidableEq

/-- What an ingestion is about to do. -/
inductive Persist where
  -- `knownRun`
  | looking
  | recomputing (head : RunHead)
  | relating (stored : StoredFingerprint)
  | locking (stored : StoredFingerprint)
  -- `materialiseBlobs`, with the blobs that are left
  | publishing (rest : List RequiredBlob)
  -- `archiveWithin`, when its insert takes the identity
  | claiming
  | recording (ingestionSequence : ℕ)
  | writing (ingestionSequence : ℕ)
  | relatingAll (ingestionSequence : ℕ)
  | retainingNew (ingestionSequence : ℕ)
  | indexingNew (ingestionSequence : ℕ)
  | committingNew (ingestionSequence : ℕ)
  -- `archiveWithin`, when another has it
  | losing
  | recomputingLost (head : RunHead)
  | holding (stored : StoredFingerprint)
  | surveying (stored : StoredFingerprint)
  | recordingMissing (stored : StoredFingerprint) (missing : List RequiredBlob)
  | relatingMissing (stored : StoredFingerprint) (missing : List RequiredBlob)
  -- what both ways do for a run that is already archived
  | retaining (stored : StoredFingerprint) (added : ℕ)
  | indexing (stored : StoredFingerprint) (added : ℕ) (retentionAdded : Bool)
  | committing (stored : StoredFingerprint) (added : ℕ) (retentionAdded rebuilt : Bool)
  | answered (result : PersistResult)
  | failed
deriving DecidableEq

/-- The call has not returned. -/
def Persist.isOpen : Persist → Bool
  | .answered _ => false
  | .failed => false
  | _ => true

/-- What comes of the stored fingerprint: a conflict, or the way on. -/
def Offer.compare (o : Offer) (stored : StoredFingerprint) (next : StoredFingerprint → Persist) :
    Persist :=
  if stored.fingerprint ≠ o.archive.contentFingerprint then
    .answered (.conflict o.archive.runId stored.fingerprint o.archive.contentFingerprint)
  else next stored

section steps
variable {ι : Type} [DecidableEq ι]
variable (rt : Runtime) (fs : FileSystem)
  (interpret : ℕ → ProjectedRun → Except Text DerivedQueryIndex)

/-- A statement of the ingestion `o` on the connection `p`. -/
inductive PersistStep (p : ι) (o : Offer) (db : Db ι) : Persist → Db ι → Persist → Prop where
  -- `storedFingerprint`
  | absent : (db.runs o.key).committed = none →
      PersistStep p o db .looking db (.publishing o.archive.requiredBlobs)
  | looks {rows : RunRows} : (db.runs o.key).committed = some rows →
      rows.head.fingerprintVersion = o.archive.fingerprintVersion →
      PersistStep p o db .looking db
        (o.compare ⟨rows.head.contentFingerprint, rows.head.ingestionSequence⟩ .relating)
  | looksOlder {rows : RunRows} : (db.runs o.key).committed = some rows →
      rows.head.fingerprintVersion ≠ o.archive.fingerprintVersion →
      PersistStep p o db .looking db (.recomputing rows.head)
  | recomputes {head : RunHead} {lines : List ArchivedLine} :
      lines = ((db.runs o.key).committed.map (fun rows => rows.lines)).getD [] →
      PersistStep p o db (.recomputing head) db
        (o.compare ⟨contentFingerprint rt (lines.map (fun line => line.toValidatedSourceLine)),
          head.ingestionSequence⟩ .relating)
  -- `SELECT sha256 FROM qe_run_blobs`
  | relates {stored : StoredFingerprint} {related : List Text} :
      related = ((db.runs o.key).committed.map (fun rows => rows.blobs)).getD [] →
      PersistStep p o db (.relating stored) db
        (if o.hashes.any (fun h => h ∉ related) then .publishing o.archive.requiredBlobs
          else .locking stored)
  -- `SELECT 1 FROM qe_runs … FOR UPDATE`
  | locks {stored : StoredFingerprint} {rows : RunRows} {db' : Db ι} :
      db.Writes p o.key rows rows db' →
      PersistStep p o db (.locking stored) db' (.retaining stored 0)
  | gone {stored : StoredFingerprint} : (db.runs o.key).FreeFor p →
      (db.runs o.key).committed = none →
      PersistStep p o db (.locking stored) db (.publishing o.archive.requiredBlobs)
  -- `put`, in any order
  | publishes {rest : List RequiredBlob} {b : RequiredBlob} : b ∈ rest →
      PersistStep p o db (.publishing rest)
        { db with objects := fun h => h = b.sha256 ∨ db.objects h } (.publishing (rest.erase b))
  | published : PersistStep p o db (.publishing []) db .claiming
  -- `INSERT INTO qe_runs … ON CONFLICT DO NOTHING`
  | claims : (db.runs o.key).FreeFor p → (db.runs o.key).committed = none →
      PersistStep p o db .claiming
        ({ db with sequence := db.sequence + 1 }.leave p o.key
          (some ⟨o.head db.sequence, [], [], none, none, []⟩)) (.recording db.sequence)
  | loses {rows : RunRows} : (∀ q row, (db.runs o.key).held = some (q, row) → row ≠ none) →
      (db.runs o.key).committed = some rows →
      PersistStep p o db .claiming { db with sequence := db.sequence + 1 } .losing
  | records {n : ℕ} {db' : Db ι} : db.RecordsBlobs p o.archive.requiredBlobs db' →
      PersistStep p o db (.recording n) db' (.writing n)
  | writes {n : ℕ} {rows : RunRows} {db' : Db ι} :
      db.Writes p o.key rows { rows with lines := o.archive.lines } db' →
      PersistStep p o db (.writing n) db' (.relatingAll n)
  | relatesAll {n : ℕ} {rows : RunRows} {db' : Db ι} :
      db.Writes p o.key rows (relateBlobs o.hashes rows).1 db' →
      PersistStep p o db (.relatingAll n) db' (.retainingNew n)
  | retainsNew {n : ℕ} {rows : RunRows} {db' : Db ι} :
      db.Writes p o.key rows (recordRetention o.expiresAt rows).1 db' →
      PersistStep p o db (.retainingNew n) db' (.indexingNew n)
  | indexesNew {n : ℕ} {rows rows' : RunRows} {db' : Db ι} :
      replaceQueryIndex o.key o.version o.offeredIndex o.archive.contentFingerprint rows = .ok rows' →
      db.Writes p o.key rows rows' db' →
      PersistStep p o db (.indexingNew n) db' (.committingNew n)
  | inserts {n : ℕ} : PersistStep p o db (.committingNew n) (db.finish p true)
      (.answered (.inserted o.archive.runId n))
  -- `COMMIT` is applied and its answer is lost
  | insertsUnheard {n : ℕ} : PersistStep p o db (.committingNew n) (db.finish p true) .failed
  -- the row of the claimant, as it is committed
  | looksLost {rows : RunRows} : (db.runs o.key).committed = some rows →
      rows.head.fingerprintVersion = o.archive.fingerprintVersion →
      PersistStep p o db .losing db
        (o.compare ⟨rows.head.contentFingerprint, rows.head.ingestionSequence⟩ .holding)
  | looksLostOlder {rows : RunRows} : (db.runs o.key).committed = some rows →
      rows.head.fingerprintVersion ≠ o.archive.fingerprintVersion →
      PersistStep p o db .losing db (.recomputingLost rows.head)
  | recomputesLost {head : RunHead} {lines : List ArchivedLine} :
      lines = ((db.runs o.key).committed.map (fun rows => rows.lines)).getD [] →
      PersistStep p o db (.recomputingLost head) db
        (o.compare ⟨contentFingerprint rt (lines.map (fun line => line.toValidatedSourceLine)),
          head.ingestionSequence⟩ .holding)
  -- without a row to hold, the foreign key of the next insert refuses: the call `fails`
  | holds {stored : StoredFingerprint} {rows : RunRows} {db' : Db ι} :
      db.Writes p o.key rows rows db' →
      PersistStep p o db (.holding stored) db' (.surveying stored)
  | surveys {stored : StoredFingerprint} {rows : RunRows} {missing : List RequiredBlob} :
      (db.runs o.key).seenBy p = some rows →
      missing = o.archive.requiredBlobs.filter (fun b => b.sha256 ∉ rows.blobs) →
      PersistStep p o db (.surveying stored) db
        (if missing = [] then .retaining stored 0 else .recordingMissing stored missing)
  | recordsMissing {stored : StoredFingerprint} {missing : List RequiredBlob} {db' : Db ι} :
      db.RecordsBlobs p missing db' →
      PersistStep p o db (.recordingMissing stored missing) db' (.relatingMissing stored missing)
  | relatesMissing {stored : StoredFingerprint} {missing : List RequiredBlob} {rows : RunRows}
      {db' : Db ι} :
      db.Writes p o.key rows (relateBlobs (missing.map (fun b => b.sha256)) rows).1 db' →
      PersistStep p o db (.relatingMissing stored missing) db'
        (.retaining stored (relateBlobs (missing.map (fun b => b.sha256)) rows).2)
  | retains {stored : StoredFingerprint} {added : ℕ} {rows : RunRows} {db' : Db ι} :
      db.Writes p o.key rows (recordRetention o.expiresAt rows).1 db' →
      PersistStep p o db (.retaining stored added) db'
        (.indexing stored added (recordRetention o.expiresAt rows).2)
  | repairs {stored : StoredFingerprint} {added : ℕ} {retentionAdded rebuilt : Bool}
      {rows rows' : RunRows} {db' : Db ι} :
      repairStoredIndex rt fs interpret o.version o.key rows = some (rows', rebuilt) →
      db.Writes p o.key rows rows' db' →
      PersistStep p o db (.indexing stored added retentionAdded) db'
        (.committing stored added retentionAdded rebuilt)
  | commits {stored : StoredFingerprint} {added : ℕ} {retentionAdded rebuilt : Bool} :
      PersistStep p o db (.committing stored added retentionAdded rebuilt) (db.finish p true)
        (.answered (.alreadyPresent o.archive.runId stored.ingestionSequence added retentionAdded
          rebuilt))
  | commitsUnheard {stored : StoredFingerprint} {added : ℕ} {retentionAdded rebuilt : Bool} :
      PersistStep p o db (.committing stored added retentionAdded rebuilt) (db.finish p true) .failed
  -- a statement fails, or the process stops
  | fails {pc : Persist} : pc.isOpen = true → PersistStep p o db pc (db.finish p false) .failed

/-! ### A rebuild -/

structure RebuildRequest where
  projectId : Text
  maxRuns : ℕ
  afterIngestionSequence : Option ℕ
  /-- `QUERY_INDEX_VERSION` of the software that makes the call. -/
  version : ℕ

/-- What a rebuild counts. -/
structure RebuildResult where
  rebuilt : ℕ
  skipped : ℕ
  problems : List Text
deriving DecidableEq

/-- What a rebuild is about to do, with the runs that are left: their ids and the fingerprints
they were selected with. -/
inductive Rebuild where
  | selecting
  | reading (rest : List (Text × Text)) (result : RebuildResult)
  | locking (runId sourceFingerprint : Text) (derived : DerivedQueryIndex)
      (rest : List (Text × Text)) (result : RebuildResult)
  | replacing (runId sourceFingerprint : Text) (derived : DerivedQueryIndex)
      (rest : List (Text × Text)) (result : RebuildResult)
  | committing (runId : Text) (rest : List (Text × Text)) (result : RebuildResult)
  | finished (result : Option RebuildResult)

def Rebuild.isOpen : Rebuild → Bool
  | .finished _ => false
  | _ => true

def RebuildRequest.key (r : RebuildRequest) (runId : Text) : RunKey := ⟨r.projectId, runId⟩

/-- The runs of the project after the given sequence, oldest first, at most `maxRuns`. -/
structure Selects (db : Db ι) (r : RebuildRequest) (runs : List (Text × Text)) : Prop where
  archived : ∀ run ∈ runs, ∃ rows, (db.runs (r.key run.1)).committed = some rows ∧
    rows.head.contentFingerprint = run.2 ∧
    ∀ n, r.afterIngestionSequence = some n → n < rows.head.ingestionSequence
  count : runs.length ≤ r.maxRuns
  oldest : ∀ runId rows, (db.runs (r.key runId)).committed = some rows →
    (∀ n, r.afterIngestionSequence = some n → n < rows.head.ingestionSequence) →
    runId ∈ runs.map Prod.fst ∨ runs.length = r.maxRuns ∧
      ∀ run ∈ runs, ∀ rows', (db.runs (r.key run.1)).committed = some rows' →
        rows'.head.ingestionSequence < rows.head.ingestionSequence
  ascending : runs.Pairwise (fun a b => ∀ rows rows', (db.runs (r.key a.1)).committed = some rows →
    (db.runs (r.key b.1)).committed = some rows' →
    rows.head.ingestionSequence < rows'.head.ingestionSequence)

inductive RebuildStep (p : ι) (r : RebuildRequest) (db : Db ι) : Rebuild → Db ι → Rebuild → Prop where
  | selects {runs : List (Text × Text)} : Selects db r runs →
      RebuildStep p r db .selecting db (.reading runs ⟨0, 0, []⟩)
  -- `readStoredRun`, then the replay and the derivation
  | gone {runId fingerprint : Text} {rest : List (Text × Text)} {result : RebuildResult} :
      (db.runs (r.key runId)).committed = none →
      RebuildStep p r db (.reading ((runId, fingerprint) :: rest) result) db
        (.reading rest { result with skipped := result.skipped + 1 })
  | reads {runId fingerprint : Text} {rest : List (Text × Text)} {result : RebuildResult}
      {rows : RunRows} {derived : DerivedQueryIndex} :
      (db.runs (r.key runId)).committed = some rows →
      storedIndex rt fs interpret r.version (r.key runId) rows = some derived →
      RebuildStep p r db (.reading ((runId, fingerprint) :: rest) result) db
        (.locking runId fingerprint derived rest result)
  -- what throws for one run is named, and the rebuild goes on
  | cannotRead {runId fingerprint : Text} {rest : List (Text × Text)} {result : RebuildResult} :
      RebuildStep p r db (.reading ((runId, fingerprint) :: rest) result) db
        (.reading rest { result with problems := result.problems ++ [runId] })
  -- `replaceOneRun`
  | locks {runId fingerprint : Text} {derived : DerivedQueryIndex} {rest : List (Text × Text)}
      {result : RebuildResult} {rows : RunRows} {db' : Db ι} :
      db.Writes p (r.key runId) rows rows db' →
      RebuildStep p r db (.locking runId fingerprint derived rest result) db'
        (.replacing runId fingerprint derived rest result)
  | vanished {runId fingerprint : Text} {derived : DerivedQueryIndex} {rest : List (Text × Text)}
      {result : RebuildResult} : (db.runs (r.key runId)).FreeFor p →
      (db.runs (r.key runId)).committed = none →
      RebuildStep p r db (.locking runId fingerprint derived rest result) db
        (.reading rest { result with skipped := result.skipped + 1 })
  | replaces {runId fingerprint : Text} {derived : DerivedQueryIndex} {rest : List (Text × Text)}
      {result : RebuildResult} {rows rows' : RunRows} {db' : Db ι} :
      replaceQueryIndex (r.key runId) r.version derived fingerprint rows = .ok rows' →
      db.Writes p (r.key runId) rows rows' db' →
      RebuildStep p r db (.replacing runId fingerprint derived rest result) db'
        (.committing runId rest result)
  | commits {runId : Text} {rest : List (Text × Text)} {result : RebuildResult} :
      RebuildStep p r db (.committing runId rest result) (db.finish p true)
        (.reading rest { result with rebuilt := result.rebuilt + 1 })
  -- `COMMIT` is applied and its answer is lost: the run is named as a problem all the same
  | commitsUnheard {runId : Text} {rest : List (Text × Text)} {result : RebuildResult} :
      RebuildStep p r db (.committing runId rest result) (db.finish p true)
        (.reading rest { result with problems := result.problems ++ [runId] })
  | cannotLock {runId fingerprint : Text} {derived : DerivedQueryIndex} {rest : List (Text × Text)}
      {result : RebuildResult} :
      RebuildStep p r db (.locking runId fingerprint derived rest result) (db.finish p false)
        (.reading rest { result with problems := result.problems ++ [runId] })
  | cannotReplace {runId fingerprint : Text} {derived : DerivedQueryIndex}
      {rest : List (Text × Text)} {result : RebuildResult} :
      RebuildStep p r db (.replacing runId fingerprint derived rest result) (db.finish p false)
        (.reading rest { result with problems := result.problems ++ [runId] })
  | cannotCommit {runId : Text} {rest : List (Text × Text)} {result : RebuildResult} :
      RebuildStep p r db (.committing runId rest result) (db.finish p false)
        (.reading rest { result with problems := result.problems ++ [runId] })
  | ends {result : RebuildResult} :
      RebuildStep p r db (.reading [] result) db (.finished (some result))
  | fails {pc : Rebuild} : pc.isOpen = true →
      RebuildStep p r db pc (db.finish p false) (.finished none)

/-! ### A maintenance pass -/

structure PassRequest where
  asOf : ℤ
  maxRuns : ℕ

/-- What a destructive pass is about to do. -/
inductive Pass where
  | selecting
  | deleting (runs : List RunKey)
  | committing
  | collecting
  -- `removeObject`, for the hashes that the database has answered for
  | removing (hashes : List Text)
  | finished

def Pass.isOpen : Pass → Bool
  | .finished => false
  | _ => true

/-- The run is managed, and expired at the instant. -/
def RunRows.expired (asOf : ℤ) (rows : RunRows) : Bool :=
  rows.expiresAt.any (fun e => decide (e ≤ asOf))

/-- The `DELETE` of `deleteRuns`, which checks the expiry again. -/
def Db.deleteRuns (db : Db ι) (p : ι) (asOf : ℤ) (runs : List RunKey) : Db ι :=
  { db with
    runs := fun k =>
      if k ∈ runs ∧ ((db.runs k).seenBy p).any (RunRows.expired asOf) then (db.runs k).leave p none
      else db.runs k }

/-- No archived run relates to the hash. -/
def Db.Unreferenced (db : Db ι) (sha256 : Text) : Prop :=
  ∀ k rows, (db.runs k).committed = some rows → sha256 ∉ rows.blobs

inductive PassStep (p : ι) (m : PassRequest) (db : Db ι) : Pass → Db ι → Pass → Prop where
  -- `selectExpired`
  | selects {runs : List RunKey} : runs.length ≤ m.maxRuns → runs.Nodup →
      (∀ k ∈ runs, ∃ rows, (db.runs k).committed = some rows ∧ RunRows.expired m.asOf rows = true) →
      PassStep p m db .selecting db (.deleting runs)
  -- `deleteRuns`
  | deletes {runs : List RunKey} : (∀ k ∈ runs, (db.runs k).FreeFor p) →
      PassStep p m db (.deleting runs) (db.deleteRuns p m.asOf runs) .committing
  -- with its answer or without it: the pass goes on
  | commits : PassStep p m db .committing (db.finish p true) .collecting
  | batchFails {runs : List RunKey} : PassStep p m db (.deleting runs) (db.finish p false) .collecting
  | commitFails : PassStep p m db .committing (db.finish p false) .collecting
  -- `reclaim`: the guarded `DELETE FROM qe_blobs`, by itself a transaction
  | reclaims {h : Text} : (db.blobs h).FreeFor p → (db.blobs h).committed ≠ none →
      db.Unreferenced h →
      PassStep p m db .collecting
        { db with blobs := Function.update db.blobs h (((db.blobs h).leave p none).finish p true) }
        (.removing [h])
  -- objects of one page, all of them asked about in one statement, that the catalog does not know
  | uncatalogued {hashes : List Text} : (∀ h ∈ hashes, (db.blobs h).committed = none) →
      PassStep p m db .collecting db (.removing hashes)
  | removes {h : Text} {hashes : List Text} : PassStep p m db (.removing (h :: hashes))
      { db with objects := fun g => g ≠ h ∧ db.objects g } (.removing hashes)
  | keeps {h : Text} {hashes : List Text} :
      PassStep p m db (.removing (h :: hashes)) db (.removing hashes)
  | removed : PassStep p m db (.removing []) db .collecting
  | ends : PassStep p m db .collecting db .finished
  | fails {pc : Pass} : pc.isOpen = true → PassStep p m db pc (db.finish p false) .finished

/-! ### A call without its connection -/

/-- What a call still does that does not ask the database. -/
inductive Late where
  -- `materialiseBlobs`
  | publishing (rest : List RequiredBlob)
  -- `removeObject`
  | removing (hashes : List Text)

inductive LateStep (db : Db ι) : Late → Db ι → Late → Prop where
  | publishes {rest : List RequiredBlob} {b : RequiredBlob} : b ∈ rest →
      LateStep db (.publishing rest)
        { db with objects := fun h => h = b.sha256 ∨ db.objects h } (.publishing (rest.erase b))
  | removes {h : Text} {hashes : List Text} : LateStep db (.removing (h :: hashes))
      { db with objects := fun g => g ≠ h ∧ db.objects g } (.removing hashes)
  | keeps {h : Text} {hashes : List Text} :
      LateStep db (.removing (h :: hashes)) db (.removing hashes)

end steps

/-! ### All of them -/

inductive Call where
  | idle
  | persist (o : Offer) (pc : Persist)
  | rebuild (r : RebuildRequest) (pc : Rebuild)
  | maintain (m : PassRequest) (pc : Pass)
  -- the connection is lost and its session has ended; with nothing left to do, the call throws
  | severed (late : Late)

/-- What the call does before it asks the database again. -/
def Call.late : Call → Option Late
  | .persist _ (.publishing rest) => some (.publishing rest)
  | .maintain _ (.removing hashes) => some (.removing hashes)
  | _ => none

/-- The session of the call holds the maintenance lock shared. -/
def Call.shared : Call → Bool
  | .persist _ pc => pc.isOpen
  | .rebuild _ pc => pc.isOpen
  | _ => false

/-- The session of the call holds the maintenance lock exclusively. -/
def Call.exclusive : Call → Bool
  | .maintain _ pc => pc.isOpen
  | _ => false

structure State (ι : Type) where
  db : Db ι
  calls : ι → Call

section system
variable {ι : Type} [DecidableEq ι]
variable (rt : Runtime) (fs : FileSystem)
  (interpret : ℕ → ProjectedRun → Except Text DerivedQueryIndex)

def State.to (s : State ι) (p : ι) (db : Db ι) (c : Call) : State ι :=
  ⟨db, Function.update s.calls p c⟩

inductive Step (s : State ι) : State ι → Prop where
  | ingest {p : ι} {o : Offer} : s.calls p = .idle → Offered rt interpret o →
      (∀ q, (s.calls q).exclusive = false) → Step s (s.to p s.db (.persist o .looking))
  | persist {p : ι} {o : Offer} {pc pc' : Persist} {db' : Db ι} : s.calls p = .persist o pc →
      PersistStep rt fs interpret p o s.db pc db' pc' → Step s (s.to p db' (.persist o pc'))
  | reindex {p : ι} {r : RebuildRequest} : s.calls p = .idle →
      (∀ q, (s.calls q).exclusive = false) → Step s (s.to p s.db (.rebuild r .selecting))
  | rebuild {p : ι} {r : RebuildRequest} {pc pc' : Rebuild} {db' : Db ι} :
      s.calls p = .rebuild r pc → RebuildStep rt fs interpret p r s.db pc db' pc' →
      Step s (s.to p db' (.rebuild r pc'))
  | sweep {p : ι} {m : PassRequest} : s.calls p = .idle →
      (∀ q, (s.calls q).exclusive = false ∧ (s.calls q).shared = false) →
      Step s (s.to p s.db (.maintain m .selecting))
  | maintain {p : ι} {m : PassRequest} {pc pc' : Pass} {db' : Db ι} :
      s.calls p = .maintain m pc → PassStep p m s.db pc db' pc' →
      Step s (s.to p db' (.maintain m pc'))
  -- the session ends while its call is at work elsewhere; everywhere else the call just `fails`
  | sever {p : ι} {late : Late} : (s.calls p).late = some late →
      Step s (s.to p (s.db.finish p false) (.severed late))
  | late {p : ι} {late late' : Late} {db' : Db ι} : s.calls p = .severed late →
      LateStep s.db late db' late' → Step s (s.to p db' (.severed late'))

end system

end Archiving

end QeReport

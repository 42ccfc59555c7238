import QeReport.Lib.Fresh
import QeReport.Validator.Finish

/-! # The archive of a run

What one ingestion writes for a validated run, built in memory: the source lines in storage
order, the fingerprint of the content, and the blobs the run requires.  `replayStored` feeds the
stored lines to a new validator, one call for each session, and compares what it finds with what
was recorded. -/

namespace QeReport

/-- `FINGERPRINT_VERSION`. -/
def fingerprintVersion : ℕ := 1

/-- One source line in storage order. -/
structure ArchivedLine extends ValidatedSourceLine where
  storageOrdinal : ℕ
deriving DecidableEq

/-- A byte object that attachment events require, with the size they declare. -/
structure RequiredBlob where
  sha256 : Text
  sizeBytes : ℤ
deriving DecidableEq

structure RunArchive where
  runId : Text
  lines : List ArchivedLine
  contentFingerprint : Text
  fingerprintVersion : ℕ
  protocolVersions : List Text
  summary : Summary
  sourceAttachmentsVerified : Bool
  requiredBlobs : List RequiredBlob
deriving DecidableEq

/-- Why `buildArchive` throws. -/
inductive ArchiveError where
  | noSourceLine
  | noEvents
  | blobSizeConflict (sha256 : Text) (recordedSize offeredSize : ℤ)
deriving DecidableEq

/-! ### Storage order -/

/-- The comparator of `orderLines` on lines with their occurrence. -/
def compareLines (a b : ValidatedSourceLine × ℕ) : Ordering :=
  (compare a.1.sessionId b.1.sessionId).then
    ((compare a.1.sequence b.1.sequence).then
      ((compare a.1.eventId b.1.eventId).then (compare a.2 b.2)))

/-- `orderLines(lines)`. -/
def orderLines (lines : List ValidatedSourceLine) : List ArchivedLine :=
  ((sortBy compareLines lines.zipIdx).map Prod.fst).mapIdx (fun i line => ⟨line, i⟩)

/-! ### The fingerprint -/

/-- `[...new Set(texts)].sort(compare)`. -/
def distinctSorted (texts : List Text) : List Text := sortBy compare (fresh id texts)

/-- `Buffer.from(digest, 'hex')`: the bytes up to the first pair that is not hexadecimal. -/
def hexBytes : Text → List ℕ
  | u :: v :: t =>
      match hexValue u, hexValue v with
      | some a, some b => (16 * a + b) :: hexBytes t
      | _, _ => []
  | _ => []

/-- `contentFingerprint(lines)`. -/
def contentFingerprint (rt : Runtime) (lines : List ValidatedSourceLine) : Text :=
  let digests := distinctSorted
    ((lines.filter (fun l => l.disposition ≠ .duplicate)).map (fun l => l.canonicalSha256))
  rt.sha256 (utf8 (txt "qe-report-run-fingerprint/" ++ natText fingerprintVersion ++ txt "\n") ++
    digests.flatMap hexBytes)

/-! ### Required blobs -/

/-- One turn of the loop over the events. -/
def requireBlob (sizes : JsMap Text ℤ) (e : Event) : Except ArchiveError (JsMap Text ℤ) :=
  match e.payload with
  | .attachmentAdded p =>
      match sizes.get? p.sha256 with
      | none => .ok (sizes.set p.sha256 p.sizeBytes)
      | some known =>
          if known ≠ p.sizeBytes then .error (.blobSizeConflict p.sha256 known p.sizeBytes)
          else .ok (sizes.set p.sha256 p.sizeBytes)
  | _ => .ok sizes

/-- `requiredBlobs(validated)`. -/
def requiredBlobs (validated : ValidatedRun) : Except ArchiveError (List RequiredBlob) := do
  let sizes ← validated.events.foldlM requireBlob .empty
  return sortBy (fun a b => compare a.sha256 b.sha256)
    (sizes.entries.map (fun e => ⟨e.1, e.2⟩))

/-- `buildArchive(validated)`. -/
def buildArchive (rt : Runtime) (validated : ValidatedRun) : Except ArchiveError RunArchive :=
  let lines := orderLines validated.sourceLines
  match lines with
  | [] => .error .noSourceLine
  | first :: _ =>
      if validated.report.summary.attachments > 0 ∧ validated.events = [] then .error .noEvents
      else do
        let requiredBlobs ← requiredBlobs validated
        return {
          runId := first.runId
          lines := lines
          contentFingerprint := contentFingerprint rt validated.sourceLines
          fingerprintVersion := fingerprintVersion
          protocolVersions := distinctSorted (lines.map (fun l => l.protocolVersion))
          summary := validated.report.summary
          sourceAttachmentsVerified := true
          requiredBlobs := requiredBlobs }

/-! ### Stored runs -/

/-- A stored run, as far as a replay reads it. -/
structure StoredRun where
  projectId : Text
  runId : Text
  contentFingerprint : Text
  fingerprintVersion : ℕ
  sourceLineCount : ℕ
  validationSummary : Summary
  sourceLines : List ArchivedLine
deriving DecidableEq

/-- The rows an archive is written as, read back. -/
def storedRun (projectId : Text) (archive : RunArchive) : StoredRun where
  projectId := projectId
  runId := archive.runId
  contentFingerprint := archive.contentFingerprint
  fingerprintVersion := archive.fingerprintVersion
  sourceLineCount := archive.lines.length
  validationSummary := archive.summary
  sourceLines := archive.lines

/-! ### Replay -/

/-- A field of a summary. -/
inductive SummaryValue where
  | number (n : ℕ)
  | boolean (b : Bool)
  | verdict (v : Verdict)
deriving DecidableEq

def Verdict.text : Verdict → Text
  | .passed => txt "passed"
  | .failed => txt "failed"
  | .inconclusive => txt "inconclusive"
  | .incomplete => txt "incomplete"

/-- `String(value)`. -/
def SummaryValue.text : SummaryValue → Text
  | .number n => natText n
  | .boolean true => txt "true"
  | .boolean false => txt "false"
  | .verdict v => v.text

/-- `COMPARED`: the fields that must agree between ingestion and replay. -/
def compared : List (Text × (Summary → SummaryValue)) :=
  [(txt "events", fun s => .number s.events), (txt "sessions", fun s => .number s.sessions),
    (txt "attempts", fun s => .number s.attempts), (txt "steps", fun s => .number s.steps),
    (txt "attachments", fun s => .number s.attachments),
    (txt "failedAttempts", fun s => .number s.failedAttempts),
    (txt "scopeFailures", fun s => .number s.scopeFailures),
    (txt "failedSessions", fun s => .number s.failedSessions),
    (txt "inconclusiveSessions", fun s => .number s.inconclusiveSessions),
    (txt "sessionFailures", fun s => .number s.sessionFailures),
    (txt "ignored", fun s => .number s.ignored), (txt "duplicates", fun s => .number s.duplicates),
    (txt "complete", fun s => .boolean s.complete), (txt "closed", fun s => .boolean s.closed),
    (txt "verdict", fun s => .verdict s.verdict)]

/-- The raw lines of each session, in storage order. -/
def bySession (lines : List ArchivedLine) : JsMap Text (List Text) :=
  .groupBy (fun line => line.sessionId) (fun line => line.rawLine) lines

/-- The call that feeds the lines of one session. -/
def sessionCall (stored : StoredRun) (e : Text × List Text) : FeedCall :=
  ⟨e.2, txt "postgres:" ++ stored.projectId ++ txt "/" ++ stored.runId ++ txt "/" ++ e.1, true⟩

/-- One `feed` for each session. -/
def replayCalls (stored : StoredRun) : List FeedCall :=
  (bySession stored.sourceLines).entries.map (sessionCall stored)

/-- `{ retainEvents: true, retainSourceLines: true }`. -/
def retainOptions : ValidateOptions where
  attachmentsDir := none
  requireComplete := false
  maxEventBytes := none
  retainEvents := true
  retainSourceLines := true

/-- Code and detail of an error, as a mismatch shows them. -/
def shownError (d : Diagnostic) : Text :=
  d.code.text ++
    (match d.detail with
      | some detail => txt "(" ++ detail.text ++ txt ")"
      | none => [])

/-- What a replay found to differ. -/
def replayDifferences (rt : Runtime) (stored : StoredRun) (replayed : ValidatedRun) : List Text :=
  (if replayed.report.valid then []
    else [txt "replayed source is not valid: " ++ List.intercalate (txt ", ")
      ((replayed.report.diagnostics.filter (fun d => d.severity = .error)).map shownError)]) ++
  compared.filterMap (fun (key, get) =>
    let was := get stored.validationSummary
    let now := get replayed.report.summary
    if was ≠ now then
      some (key ++ txt ": ingested " ++ was.text ++ txt ", replayed " ++ now.text)
    else none) ++
  (if stored.sourceLines.length ≠ stored.sourceLineCount then
      [txt "source lines: archived " ++ natText stored.sourceLineCount ++ txt ", read " ++
        natText stored.sourceLines.length]
    else []) ++
  (if stored.fingerprintVersion = fingerprintVersion ∧
        contentFingerprint rt replayed.sourceLines ≠ stored.contentFingerprint then
      [txt "content fingerprint: the source lines no longer match the archived content"]
    else [])

/-- `replayStored(stored)`; an error lists the differences of a `ReplayMismatchError`. -/
def replayStored (rt : Runtime) (fs : FileSystem) (stored : StoredRun) :
    Except (List Text) ValidatedRun :=
  let replayed := snapshotOf rt fs retainOptions (replayCalls stored)
  match replayDifferences rt stored replayed with
  | [] => .ok replayed
  | differences => .error differences

end QeReport

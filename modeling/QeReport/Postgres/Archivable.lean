import QeReport.Postgres.Answering
import QeReport.Postgres.Storable

/-! # Runs that can be archived

Every valid, complete run directory with an event comes to an offer: its archive, its projection and
its index can be built.  All their texts can be bound, and every ingestion of the directory on a
database at rest comes to an answer, exactly when the names of the run can be stored and its stored
source replays (`archivable_iff`): the first ingestion needs no replay, but one that finds the run
without a current index does. -/

namespace QeReport

namespace Archiving

section offered
variable {rt : Runtime} {fs : FileSystem} {name : Text → Except Text Text} {version : ℕ}
  {request : PersistRequest} {snapshot validated : ValidatedRun} {archive : RunArchive}

/-- `name` makes the names of the files that the validator reports relative to the directory. -/
structure Renames (name : Text → Except Text Text) (run : ValidatedRun) : Prop where
  diagnostics : ∀ d ∈ run.report.diagnostics, ∃ file, name d.file = .ok file
  lines : ∀ l ∈ run.sourceLines, ∃ file, name l.sourceFile = .ok file ∧ Storable file

/-- The run is the other one with its files renamed. -/
structure Renamed (run run' : ValidatedRun) : Prop where
  events : run'.events = run.events
  valid : run'.report.valid = run.report.valid
  summary : run'.report.summary = run.report.summary
  lines : run'.sourceLines.map ValidatedSourceLine.unnamed =
    run.sourceLines.map ValidatedSourceLine.unnamed
  files : ∀ l ∈ run'.sourceLines, Storable l.sourceFile

theorem relativeTo_ok (h : Renames name snapshot) :
    ∃ validated, relativeTo name snapshot = .ok validated ∧ Renamed snapshot validated := by
  obtain ⟨diagnostics, hdiagnostics⟩ : ∃ diagnostics, snapshot.report.diagnostics.mapM
      (fun d => (fun file => { d with file := file }) <$> name d.file) = .ok diagnostics := by
    refine Projector.mapM_ok fun d hd => ?_
    obtain ⟨file, hfile⟩ := h.diagnostics d hd
    exact ⟨_, map_eq_ok.mpr ⟨file, hfile, rfl⟩⟩
  obtain ⟨lines, hlines⟩ : ∃ lines, snapshot.sourceLines.mapM
      (fun l => (fun file => { l with sourceFile := file }) <$> name l.sourceFile) = .ok lines := by
    refine Projector.mapM_ok fun l hl => ?_
    obtain ⟨file, hfile, -⟩ := h.lines l hl
    exact ⟨_, map_eq_ok.mpr ⟨file, hfile, rfl⟩⟩
  have hok : relativeTo name snapshot = .ok ⟨{ snapshot.report with diagnostics := diagnostics },
      snapshot.events, lines⟩ := by
    unfold relativeTo
    rw [hdiagnostics, hlines]
    rfl
  obtain ⟨hevents, hvalid, hsummary, hunnamed⟩ := relativeTo_eq_ok hok
  refine ⟨_, hok, hevents, hvalid, hsummary, hunnamed, fun l hl => ?_⟩
  obtain ⟨l', hl', hrenamed⟩ := mem_of_forall₂ (Projector.mapM_eq_ok hlines) hl
  obtain ⟨file, hfile, rfl⟩ := map_eq_ok.mp hrenamed
  obtain ⟨file', hfile', hstorable⟩ := h.lines l' hl'
  rw [hfile] at hfile'
  rwa [Except.ok.inj hfile']

theorem orderLines_unnamed (h : Renamed snapshot validated) :
    (orderLines validated.sourceLines).map (fun l => l.toValidatedSourceLine.unnamed) =
      (orderLines snapshot.sourceLines).map (fun l => l.toValidatedSourceLine.unnamed) := by
  have hsplit : ∀ lines : List ArchivedLine, lines.map (fun l => l.toValidatedSourceLine.unnamed) =
      (lines.map (fun l => l.toValidatedSourceLine)).map ValidatedSourceLine.unnamed := by
    intro lines
    rw [List.map_map]
    rfl
  rw [hsplit, hsplit, orderLines_lines, orderLines_lines, storedLines_unnamed, storedLines_unnamed,
    h.lines]

/-- A renamed run is archived as the run is, but for the names. -/
theorem Renamed.buildArchive (h : Renamed snapshot validated)
    (harchive : QeReport.buildArchive rt snapshot = .ok archive) :
    ∃ archive', QeReport.buildArchive rt validated = .ok archive' ∧ archive'.runId = archive.runId ∧
      archive'.contentFingerprint = archive.contentFingerprint := by
  have hunnamed := orderLines_unnamed h
  obtain ⟨blobs, hblobs⟩ : ∃ blobs, requiredBlobs snapshot = .ok blobs :=
    ⟨_, (buildArchive_eq_ok harchive).2.2.2.1⟩
  unfold QeReport.buildArchive at harchive ⊢
  dsimp only at harchive ⊢
  rw [show requiredBlobs validated = requiredBlobs snapshot by unfold requiredBlobs; rw [h.events],
    hblobs, h.summary, h.events]
  cases hlines : orderLines snapshot.sourceLines with
  | nil =>
      rw [hlines] at harchive
      cases harchive
  | cons first rest =>
      rw [hlines] at harchive hunnamed
      dsimp only at harchive
      cases hlines' : orderLines validated.sourceLines with
      | nil =>
          rw [hlines'] at hunnamed
          cases hunnamed
      | cons first' rest' =>
          rw [hlines', List.map_cons, List.map_cons] at hunnamed
          have hrunId := congrArg ValidatedSourceLine.runId (List.cons.inj hunnamed).1
          split_ifs at harchive ⊢
          rw [hblobs] at harchive
          cases harchive
          exact ⟨_, rfl, hrunId, contentFingerprint_unnamed h.lines⟩

/-- The texts of a renamed run are those of the run, and the names. -/
theorem Renamed.insertLines (h : Renamed snapshot validated) {projectId runId : Text}
    (hall : ∀ t ∈ insertLinesTexts projectId runId (orderLines snapshot.sourceLines), Storable t)
    {t : Text} (ht : t ∈ insertLinesTexts projectId runId (orderLines validated.sourceLines)) :
    Storable t := by
  obtain ⟨line, hline, ht⟩ := List.mem_flatMap.mp ht
  obtain ⟨line', hline', hsame⟩ : ∃ line' ∈ orderLines snapshot.sourceLines,
      line'.toValidatedSourceLine.unnamed = line.toValidatedSourceLine.unnamed := by
    have hmem := List.mem_map_of_mem (f := fun l : ArchivedLine => l.toValidatedSourceLine.unnamed)
      hline
    rw [orderLines_unnamed h] at hmem
    exact List.mem_map.mp hmem
  have hfile : Storable line.sourceFile := by
    have hmem := List.mem_map_of_mem (f := fun l : ArchivedLine => l.toValidatedSourceLine) hline
    rw [orderLines_lines, (storedLines_perm _).mem_iff] at hmem
    exact h.files _ hmem
  simp only [ValidatedSourceLine.unnamed, ValidatedSourceLine.mk.injEq] at hsame
  obtain ⟨hraw, hid, -, hsession, -, hversion, htype, hcanonical, hdisposition, -, -⟩ := hsame
  have htexts : ∀ t ∈ lineTexts projectId runId line', Storable t := fun t ht =>
    hall t (List.mem_flatMap.mpr ⟨line', hline', ht⟩)
  rw [lineTexts, hraw, hid, hsession, hversion, htype, hcanonical, hdisposition] at htexts
  simp only [lineTexts, List.forall_mem_cons] at htexts ht
  obtain ⟨h1, h2, h3, h4, h5, h6, h7, h8, h9, -⟩ := htexts
  simp only [List.mem_cons, List.not_mem_nil, or_false] at ht
  rcases ht with rfl | rfl | rfl | rfl | rfl | rfl | rfl | rfl | rfl | rfl
  · exact h1
  · exact h2
  · exact h3
  · exact h4
  · exact h5
  · exact h6
  · exact h7
  · exact h8
  · exact h9
  · exact hfile

/-- A loop over the events finds each hash once. -/
theorem distinct_requiredBlobs {blobs : List RequiredBlob} (h : requiredBlobs snapshot = .ok blobs) :
    Distinct blobs := by
  obtain ⟨sizes, -, h⟩ := bind_eq_ok.mp h
  cases h
  intro b hb c hc hsame
  obtain ⟨⟨k, v⟩, hkv, rfl⟩ := List.mem_map.mp (mem_sortBy.mp hb)
  obtain ⟨⟨k', v'⟩, hkv', rfl⟩ := List.mem_map.mp (mem_sortBy.mp hc)
  obtain rfl : k = k' := hsame
  have hv := (JsMap.mem_entries.mp hkv).symm.trans (JsMap.mem_entries.mp hkv')
  rw [Option.some.inj hv]

/-- An offer of the directory, with its parts. -/
theorem exists_offer {interpret : ℕ → ProjectedRun → Except Text DerivedQueryIndex}
    (hproject : checkProjectId request.projectId = .ok ())
    (hsnapshot : validateRunDirectorySnapshot rt fs request.runDirectory retainOptions =
      some snapshot)
    (hvalid : snapshot.report.valid = true) (hcomplete : snapshot.report.summary.complete = true)
    (hevents : 0 < snapshot.report.summary.events)
    (hnames : request.sourceLocator ≠ none → Renames name snapshot)
    (hfiles : ∀ l ∈ snapshot.sourceLines, Storable l.sourceFile)
    (harchive : buildArchive rt snapshot = .ok archive) {run : ProjectedRun}
    (hrun : projectRun request.projectId (request.sourceLocator.getD request.runDirectory) snapshot =
      .ok run) {index : DerivedQueryIndex} (hindex : interpret version run = .ok index) :
    ∃ o validated, offerOf rt interpret fs name version request = .ok o ∧ Renamed snapshot validated ∧
      o.archive.lines = orderLines validated.sourceLines ∧ o.key.projectId = request.projectId ∧
      o.archive.runId = archive.runId ∧
      o.archive.contentFingerprint = archive.contentFingerprint ∧ o.offeredIndex = index := by
  obtain ⟨validated, hoffer, hrenamed⟩ : ∃ validated,
      offerOf rt interpret fs name version request = offerFrom rt interpret version request validated ∧
      Renamed snapshot validated := by
    by_cases hlocator : request.sourceLocator = none
    · refine ⟨snapshot, ?_, rfl, rfl, rfl, rfl, hfiles⟩
      unfold offerOf
      rw [hproject, hsnapshot]
      exact if_pos hlocator
    · obtain ⟨validated, hok, hrenamed⟩ := relativeTo_ok (hnames hlocator)
      refine ⟨validated, ?_, hrenamed⟩
      unfold offerOf
      rw [hproject, hsnapshot]
      refine (if_neg hlocator).trans ?_
      rw [hok]
      rfl
  obtain ⟨archive', harchive', hrunId, hfinger⟩ := hrenamed.buildArchive harchive
  have hprojected : projectRun request.projectId
      (request.sourceLocator.getD request.runDirectory) validated = .ok run :=
    (Projector.projectRun_congr hrenamed.valid (by rw [hrenamed.events]) (by rw [hrenamed.summary])
      (by rw [hrenamed.summary]) (by rw [hrenamed.summary]) _ _).trans hrun
  refine ⟨⟨⟨request.projectId, archive'.runId⟩, request.sourceLocator.getD request.runDirectory,
    archive', request.expiresAt, version, index⟩, validated, ?_, hrenamed,
    (buildArchive_eq_ok harchive').1, rfl, hrunId, hfinger, rfl⟩
  have hfrom : offerFrom rt interpret version request validated =
      .ok ⟨⟨request.projectId, archive'.runId⟩, request.sourceLocator.getD request.runDirectory,
        archive', request.expiresAt, version, index⟩ := by
    unfold offerFrom
    dsimp only
    rw [if_neg (by rw [hrenamed.valid, hvalid]; simp),
      if_neg (by rw [hrenamed.summary, hcomplete]; simp),
      if_neg (by rw [hrenamed.summary]; exact hevents.ne'), harchive', hprojected]
    change ((interpret version run).mapError _ >>= _) = _
    rw [hindex]
    rfl
  exact hoffer.trans hfrom

/-! ### Every ingestion -/

variable {o : Offer}

/-- A stored run of the directory can be repaired when its source replays. -/
theorem repairs_iff {interpret : ProjectedRun → Except Text DerivedQueryIndex}
    (ho : offerOf rt (fun _ => interpret) fs name version request = .ok o)
    (hprojectId : o.offeredIndex.run.projectId = o.key.projectId)
    (hrunId : o.offeredIndex.run.runId = o.key.runId) {rows : RunRows} (hrows : Archived o rows) :
    Repairs rt fs (fun _ => interpret) o rows ↔ rows.current o.version = true ∨
      AttemptsLocal (directoryLog rt fs request.runDirectory) ∧
        RunFinishedLast (directoryLog rt fs request.runDirectory) := by
  obtain ⟨snapshot, validated, hsnapshot, hfrom, -⟩ := fromRun_of_offerOf ho
  obtain ⟨⟨n, hhead⟩, hlines⟩ := hrows
  have hiff := @FromRun.storedIndex_iff _ _ _ _ _ _ _ hfrom hsnapshot fs rows n hhead hlines
  unfold Repairs repairStoredIndex
  constructor
  · rintro ⟨rows', rebuilt, h⟩
    split_ifs at h with hcurrent
    · exact .inl hcurrent
    · obtain ⟨derived, hderived, -⟩ := Option.bind_eq_some_iff.mp h
      exact .inr (hiff.mp hderived).2
  · rintro (hcurrent | hlocal)
    · exact ⟨rows, false, if_pos hcurrent⟩
    · by_cases hcurrent : rows.current o.version = true
      · exact ⟨rows, false, if_pos hcurrent⟩
      · obtain ⟨rows', hreplaced⟩ : ∃ rows', replaceQueryIndex o.key o.version o.offeredIndex
            rows.head.contentFingerprint rows = .ok rows' :=
          ⟨_, if_neg (by rw [not_or, not_not, not_not]; exact ⟨hprojectId, hrunId⟩)⟩
        refine ⟨rows', true, ?_⟩
        rw [if_neg hcurrent, hiff.mpr ⟨rfl, hlocal⟩, Option.bind_eq_bind, Option.bind_some, hreplaced]
        rfl

/-- The run, archived from the offer without an index, on a database at rest. -/
def unindexedDb {ι : Type} (o : Offer) : Db ι where
  runs k := ⟨if k = o.key then some ⟨o.head 0, o.archive.lines, [], none, none, []⟩ else none, none⟩
  blobs _ := ⟨none, none⟩
  objects _ := True
  sequence := 1

theorem atRest_unindexedDb {ι : Type} (rt : Runtime) (o : Offer) :
    AtRest rt o (unindexedDb o : Db ι) := by
  refine ⟨fun _ => rfl, fun _ => rfl, fun b _ n hn => (by cases hn), fun rows hrows _ => ?_⟩
  rw [unindexedDb] at hrows
  dsimp only at hrows
  rw [if_pos rfl] at hrows
  obtain rfl := Option.some.inj hrows
  exact ⟨⟨0, rfl⟩, rfl⟩

end offered

end Archiving

theorem sourceLines_of_directory {rt : Runtime} {fs : FileSystem} {dir : Text} {run : ValidatedRun}
    (hrun : validateRunDirectorySnapshot rt fs dir retainOptions = some run)
    (hvalid : run.report.valid = true) : run.sourceLines =
      sourceAfter rt [] (allLines rt (directoryOptions fs dir retainOptions) (directoryCalls fs dir)) := by
  obtain rfl := snapshot_of_directory hrun hvalid
  have hv := (valid_iff rt fs (directoryOptions fs dir retainOptions) (directoryCalls fs dir)).mp
    hvalid
  exact hv.ends.clean.source

/-- The texts of the lines of an archived directory can all be bound. -/
theorem storable_archiveLines {rt : Runtime} {fs : FileSystem} (hsystem : SystemTexts rt fs)
    {dir projectId : Text} (hproject : checkProjectId projectId = .ok ()) {run : ValidatedRun}
    (hrun : validateRunDirectorySnapshot rt fs dir retainOptions = some run)
    (hvalid : run.report.valid = true) {archive : RunArchive}
    (harchive : buildArchive rt run = .ok archive) {t : Text}
    (ht : t ∈ insertLinesTexts projectId archive.runId (orderLines run.sourceLines)) :
    Storable t := by
  have hsource := sourceLines_of_directory hrun hvalid
  have hrunId : Storable archive.runId := by
    obtain ⟨line, hline, hline'⟩ := buildArchive_runId harchive
    have hstored := List.mem_map_of_mem (f := fun t : ArchivedLine => t.toValidatedSourceLine) hline
    rw [(Archiving.buildArchive_eq_ok harchive).1, hsource, orderLines_lines,
      (storedLines_perm _).mem_iff] at hstored
    obtain ⟨x, hx, d, heq⟩ := mem_sourceAfter hstored
    have hsame : line.runId = x.event.envelope.runId := congrArg ValidatedSourceLine.runId heq
    rw [hline', hsame]
    exact (storable_line hsystem hx).2.2.runId
  rw [hsource] at ht
  exact storable_insertLines hsystem (storable_projectId hproject) hrunId ht

namespace Sample

/-- The ingestion of the directory `run` with a source locator. -/
def locatedRequest : Archiving.PersistRequest := ⟨txt "project", txt "run", 0, some (txt "ci")⟩

/-- The name of a file relative to the directory `run`. -/
def relativeToRun (file : Text) : Except Text Text := .ok (file.drop (txt "run/").length)

end Sample

end QeReport

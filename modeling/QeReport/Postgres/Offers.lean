import QeReport.Postgres.Archiving
import QeReport.Postgres.Replay
import QeReport.ReadModel.Projection

/-! # What an ingestion offers

An offer comes of a valid, complete run directory, whose files may have been renamed for the
archive (`fromRun_of_offerOf`).  Stored and replayed, its lines project the run that was offered;
they replay at all exactly when every attempt stays in its session and run.finished is the last
event of its own (`FromRun.storedIndex_iff`). -/

namespace QeReport

open Reclaim (RunKey)

/-! ### Source lines without the names of their files -/

/-- The line without the name of its file. -/
def ValidatedSourceLine.unnamed (l : ValidatedSourceLine) : ValidatedSourceLine :=
  { l with sourceFile := [] }

theorem storedLines_unnamed (src : List ValidatedSourceLine) :
    (storedLines src).map ValidatedSourceLine.unnamed =
      storedLines (src.map ValidatedSourceLine.unnamed) := by
  have hsort := @map_sortBy _ compareLines _ compareLines (Prod.map ValidatedSourceLine.unnamed id)
    (fun _ _ => rfl) src.zipIdx
  rw [storedLines, storedLines, List.zipIdx_map, ← hsort, List.map_map, List.map_map]
  rfl

/-- The calls of a replay do not depend on the names of the files. -/
theorem bySession_unnamed {src src' : List ValidatedSourceLine}
    (h : src'.map ValidatedSourceLine.unnamed = src.map ValidatedSourceLine.unnamed) :
    bySession (orderLines src') = bySession (orderLines src) := by
  have hgroup : ∀ lines : List ArchivedLine, bySession lines =
      JsMap.groupBy (fun l => l.sessionId) (fun l => l.rawLine)
        ((lines.map (fun t => t.toValidatedSourceLine)).map ValidatedSourceLine.unnamed) := by
    intro lines
    rw [bySession, JsMap.groupBy, JsMap.groupBy, List.map_map, List.foldl_map]
    rfl
  rw [hgroup, hgroup, orderLines_lines, orderLines_lines, storedLines_unnamed, storedLines_unnamed,
    h]

theorem replayCalls_unnamed {stored stored' : StoredRun} {src src' : List ValidatedSourceLine}
    (h : src'.map ValidatedSourceLine.unnamed = src.map ValidatedSourceLine.unnamed)
    (hsrc : stored.sourceLines = orderLines src) (hsrc' : stored'.sourceLines = orderLines src')
    (hproject : stored'.projectId = stored.projectId) (hrun : stored'.runId = stored.runId) :
    replayCalls stored' = replayCalls stored := by
  have hcall : sessionCall stored' = sessionCall stored := by
    funext e
    rw [sessionCall, sessionCall, hproject, hrun]
  rw [replayCalls, replayCalls, hcall, hsrc, hsrc', bySession_unnamed h]

namespace Archiving

theorem renamed_unnamed {name : Text → Except Text Text} {ls ls' : List ValidatedSourceLine}
    (h : List.Forall₂ (fun l l' => (fun file => { l with sourceFile := file }) <$> name l.sourceFile =
      .ok l') ls ls') :
    ls'.map ValidatedSourceLine.unnamed = ls.map ValidatedSourceLine.unnamed := by
  induction h with
  | nil => rfl
  | cons hl _ ih =>
      obtain ⟨file, -, rfl⟩ := map_eq_ok.mp hl
      rw [List.map_cons, List.map_cons, ih]
      rfl

/-- Names made relative change nothing else. -/
theorem relativeTo_eq_ok {name : Text → Except Text Text} {validated run : ValidatedRun}
    (h : relativeTo name validated = .ok run) :
    run.events = validated.events ∧ run.report.valid = validated.report.valid ∧
      run.report.summary = validated.report.summary ∧
      run.sourceLines.map ValidatedSourceLine.unnamed =
        validated.sourceLines.map ValidatedSourceLine.unnamed := by
  obtain ⟨diagnostics, -, h⟩ := bind_eq_ok.mp h
  obtain ⟨sourceLines, hlines, h⟩ := bind_eq_ok.mp h
  cases h
  exact ⟨rfl, rfl, rfl, renamed_unnamed (Projector.mapM_eq_ok hlines)⟩

/-- What was offered came of a valid, complete run directory. -/
structure FromRun (rt : Runtime) (interpret : ℕ → ProjectedRun → Except Text DerivedQueryIndex)
    (o : Offer) (snapshot validated : ValidatedRun) : Prop where
  projectId : checkProjectId o.key.projectId = .ok ()
  runId : o.key.runId = o.archive.runId
  valid : snapshot.report.valid = true
  complete : snapshot.report.summary.complete = true
  nonempty : 0 < snapshot.report.summary.events
  events : validated.events = snapshot.events
  verdict : validated.report.valid = snapshot.report.valid
  summary : validated.report.summary = snapshot.report.summary
  sourceLines : validated.sourceLines.map ValidatedSourceLine.unnamed =
    snapshot.sourceLines.map ValidatedSourceLine.unnamed
  archive : buildArchive rt validated = .ok o.archive
  index : ∃ run, projectRun o.key.projectId o.sourceLocator validated = .ok run ∧
    interpret o.version run = .ok o.offeredIndex

theorem mapError_eq_ok {ε ε' α : Type} {f : ε → ε'} {e : Except ε α} {a : α}
    (h : e.mapError f = .ok a) : e = .ok a := by
  cases e with
  | error e => cases h
  | ok b => exact congrArg Except.ok (Except.ok.inj h)

theorem fromRun_of_offerOf {rt : Runtime}
    {interpret : ℕ → ProjectedRun → Except Text DerivedQueryIndex} {fs : FileSystem}
    {name : Text → Except Text Text} {version : ℕ} {request : PersistRequest} {o : Offer}
    (h : offerOf rt interpret fs name version request = .ok o) : ∃ snapshot validated,
      validateRunDirectorySnapshot rt fs request.runDirectory retainOptions = some snapshot ∧
      FromRun rt interpret o snapshot validated ∧ o.version = version := by
  obtain ⟨_, hproject, h⟩ := bind_eq_ok.mp h
  cases hsnapshot : validateRunDirectorySnapshot rt fs request.runDirectory retainOptions with
  | none =>
      rw [hsnapshot] at h
      cases h
  | some snapshot =>
      rw [hsnapshot] at h
      have hvalidated : ∃ validated, (validated.events = snapshot.events ∧
          validated.report.valid = snapshot.report.valid ∧
          validated.report.summary = snapshot.report.summary ∧
          validated.sourceLines.map ValidatedSourceLine.unnamed =
            snapshot.sourceLines.map ValidatedSourceLine.unnamed) ∧
          offerFrom rt interpret version request validated = .ok o := by
        dsimp only at h
        split_ifs at h
        · exact ⟨snapshot, ⟨rfl, rfl, rfl, rfl⟩, h⟩
        · obtain ⟨validated, hrelative, h⟩ := bind_eq_ok.mp h
          exact ⟨validated, relativeTo_eq_ok (mapError_eq_ok hrelative), h⟩
      obtain ⟨validated, ⟨hevents, hverdict, hsummary, hlines⟩, h⟩ := hvalidated
      unfold offerFrom at h
      dsimp only at h
      split_ifs at h with hvalid hcomplete hempty
      obtain ⟨archive, harchive, h⟩ := bind_eq_ok.mp h
      obtain ⟨run, hrun, h⟩ := bind_eq_ok.mp h
      obtain ⟨index, hindex, h⟩ := bind_eq_ok.mp h
      cases h
      rw [hverdict, Bool.not_eq_false] at hvalid
      rw [hsummary, Bool.not_eq_false] at hcomplete
      rw [hsummary] at hempty
      refine ⟨snapshot, validated, rfl, ?_, rfl⟩
      exact ⟨mapError_eq_ok hproject, rfl, hvalid, hcomplete,
        Nat.pos_of_ne_zero hempty, hevents, hverdict, hsummary, hlines, mapError_eq_ok harchive,
        run, mapError_eq_ok hrun, mapError_eq_ok hindex⟩

theorem Offered.fromRun {rt : Runtime} {interpret : ℕ → ProjectedRun → Except Text DerivedQueryIndex}
    {o : Offer} (h : Offered rt interpret o) : ∃ fs dir snapshot validated,
      validateRunDirectorySnapshot rt fs dir retainOptions = some snapshot ∧
      FromRun rt interpret o snapshot validated := by
  obtain ⟨fs, name, version, request, h⟩ := h
  obtain ⟨snapshot, validated, hsnapshot, hfrom, -⟩ := fromRun_of_offerOf h
  exact ⟨fs, request.runDirectory, snapshot, validated, hsnapshot, hfrom⟩

/-! ### The index of an offer and of a replay -/

theorem eq_ok_of_toOption {ε α : Type} {e : Except ε α} {a : α} (h : e.toOption = some a) :
    e = .ok a := by
  cases e with
  | error e => cases h
  | ok b => exact congrArg Except.ok (Option.some.inj h)


/-- A replay that does not throw agrees in every field that is compared. -/
theorem replayStored_compared {rt : Runtime} {fs : FileSystem} {stored : StoredRun}
    {v : ValidatedRun} (h : replayStored rt fs stored = .ok v) :
    ∀ key ∈ compared, key.2 v.report.summary = key.2 stored.validationSummary := by
  obtain ⟨hv, -⟩ := replayStored_eq_ok h
  unfold replayStored at h
  dsimp only at h
  rw [← hv] at h
  split at h
  · rename_i hnil
    intro key hkey
    rw [replayDifferences, List.append_eq_nil_iff, List.append_eq_nil_iff, List.append_eq_nil_iff,
      List.filterMap_eq_nil_iff] at hnil
    have hfield := hnil.1.1.2 key hkey
    dsimp only at hfield
    split_ifs at hfield with hne
    exact (not_not.mp hne).symm
  · cases h

theorem summary_of_compared {s t : Summary} (h : ∀ key ∈ compared, key.2 s = key.2 t) :
    s.facts = t.facts ∧ s.ignored = t.ignored ∧ s.duplicates = t.duplicates := by
  simp only [compared, List.forall_mem_cons, SummaryValue.number.injEq, SummaryValue.boolean.injEq,
    SummaryValue.verdict.injEq] at h
  obtain ⟨-, h2, h3, h4, h5, h6, h7, h8, h9, h10, h11, h12, h13, h14, h15, -⟩ := h
  simp only [Summary.facts, RunFacts.mk.injEq]
  exact ⟨⟨h2, h3, h4, h5, h6, h7, h8, h9, h10, h13, h14, h15⟩, h11, h12⟩

theorem contentFingerprint_unnamed {rt : Runtime} {src src' : List ValidatedSourceLine}
    (h : src'.map ValidatedSourceLine.unnamed = src.map ValidatedSourceLine.unnamed) :
    contentFingerprint rt src' = contentFingerprint rt src := by
  have hdigests : ∀ ls : List ValidatedSourceLine,
      (ls.filter (fun l => l.disposition ≠ .duplicate)).map (fun l => l.canonicalSha256) =
      ((ls.map ValidatedSourceLine.unnamed).filter (fun l => l.disposition ≠ .duplicate)).map
        (fun l => l.canonicalSha256) := by
    intro ls
    rw [List.filter_map, List.map_map]
    rfl
  unfold contentFingerprint
  dsimp only
  rw [hdigests, hdigests src, h]

theorem buildArchive_eq_ok {rt : Runtime} {validated : ValidatedRun} {archive : RunArchive}
    (h : buildArchive rt validated = .ok archive) :
    archive.lines = orderLines validated.sourceLines ∧
      archive.contentFingerprint = contentFingerprint rt validated.sourceLines ∧
      archive.summary = validated.report.summary ∧
      requiredBlobs validated = .ok archive.requiredBlobs ∧
      archive.fingerprintVersion = fingerprintVersion := by
  unfold buildArchive at h
  dsimp only at h
  split at h
  · cases h
  · split_ifs at h
    obtain ⟨blobs, hblobs, h⟩ := bind_eq_ok.mp h
    cases h
    exact ⟨rfl, rfl, rfl, hblobs, rfl⟩

/-- The loop over the events keeps the size of every hash it has seen. -/
theorem requireBlob_covers {events : List Event} {before sizes : JsMap Text ℤ}
    (h : events.foldlM requireBlob before = .ok sizes) :
    (∀ k n, before.get? k = some n → sizes.get? k = some n) ∧
      ∀ e ∈ events, ∀ p, e.payload = .attachmentAdded p →
        sizes.get? p.sha256 = some p.sizeBytes := by
  induction events generalizing before with
  | nil =>
      cases h
      exact ⟨fun _ _ hk => hk, fun e he => absurd he List.not_mem_nil⟩
  | cons e events ih =>
      rw [List.foldlM_cons] at h
      obtain ⟨next, hnext, h⟩ := bind_eq_ok.mp h
      obtain ⟨hkept, hrest⟩ := ih h
      have hone : (∀ k n, before.get? k = some n → next.get? k = some n) ∧
          ∀ p, e.payload = .attachmentAdded p → next.get? p.sha256 = some p.sizeBytes := by
        unfold requireBlob at hnext
        cases hp : e.payload with
        | attachmentAdded p =>
            rw [hp] at hnext
            dsimp only at hnext
            cases hk : before.get? p.sha256 with
            | none =>
                rw [hk] at hnext
                cases hnext
                refine ⟨fun k n hn => ?_, fun q hq => ?_⟩
                · rw [JsMap.get?_set, if_neg, hn]
                  rintro rfl
                  rw [hk] at hn
                  cases hn
                · cases hq
                  exact JsMap.get?_set_self ..
            | some known =>
                rw [hk] at hnext
                dsimp only at hnext
                split_ifs at hnext with hknown
                cases hnext
                rw [not_not] at hknown
                refine ⟨fun k n hn => ?_, fun q hq => ?_⟩
                · rw [JsMap.get?_set]
                  split_ifs with hkp
                  · rw [← hn, hkp, hk, hknown]
                  · exact hn
                · cases hq
                  exact JsMap.get?_set_self ..
        | _ =>
            rw [hp] at hnext
            cases hnext
            exact ⟨fun _ _ hn => hn, fun q hq => by cases hq⟩
      refine ⟨fun k n hn => hkept k n (hone.1 k n hn), fun f hf p hp => ?_⟩
      rcases List.mem_cons.mp hf with rfl | hf
      · exact hkept _ _ (hone.2 p hp)
      · exact hrest f hf p hp

/-- Every attachment that the events declare is required, with its size. -/
theorem mem_requiredBlobs {validated : ValidatedRun} {blobs : List RequiredBlob}
    (h : requiredBlobs validated = .ok blobs) {e : Event} (he : e ∈ validated.events)
    {p : AttachmentAddedPayload} (hp : e.payload = .attachmentAdded p) :
    ⟨p.sha256, p.sizeBytes⟩ ∈ blobs := by
  obtain ⟨sizes, hsizes, h⟩ := bind_eq_ok.mp h
  cases h
  have hget := (requireBlob_covers hsizes).2 e he p hp
  exact mem_sortBy.mpr (List.mem_map.mpr ⟨(p.sha256, p.sizeBytes), JsMap.mem_entries.mpr hget, rfl⟩)

section replay
variable {rt : Runtime} {interpret : ℕ → ProjectedRun → Except Text DerivedQueryIndex} {o : Offer}
  {fs : FileSystem} {dir : Text} {snapshot validated : ValidatedRun}

/-- The source lines of a run directory, as they were validated. -/
def directorySource (rt : Runtime) (fs : FileSystem) (dir : Text) : List ValidatedSourceLine :=
  sourceAfter rt [] (allLines rt (directoryOptions fs dir retainOptions) (directoryCalls fs dir))

theorem wereRead_directory (rt : Runtime) (fs : FileSystem) (dir : Text) :
    WereRead rt (eventLimit retainOptions)
      (allLines rt (directoryOptions fs dir retainOptions) (directoryCalls fs dir)) := by
  intro x hx
  obtain ⟨c, -, hxc⟩ := mem_allLines.mp hx
  exact (mem_linesOf hxc).2

/-- What was offered is stored under renamed files, and replayed without their names. -/
theorem FromRun.replayCalls_eq (hfrom : FromRun rt interpret o snapshot validated)
    (hsnapshot : validateRunDirectorySnapshot rt fs dir retainOptions = some snapshot)
    {stored : StoredRun} (hlines : stored.sourceLines = o.archive.lines) :
    replayCalls stored =
      replayCalls { stored with sourceLines := orderLines (directorySource rt fs dir) } := by
  obtain rfl := snapshot_of_directory hsnapshot hfrom.valid
  have hv := (valid_iff rt fs (directoryOptions fs dir retainOptions) (directoryCalls fs dir)).mp
    hfrom.valid
  have hsource : (snapshotOf rt fs (directoryOptions fs dir retainOptions)
      (directoryCalls fs dir)).sourceLines = directorySource rt fs dir := hv.ends.clean.source
  exact replayCalls_unnamed (hfrom.sourceLines.trans (congrArg _ hsource)) rfl
    (hlines.trans (buildArchive_eq_ok hfrom.archive).1) rfl rfl

/-- Replayed, the lines of an offer show what its directory showed. -/
theorem FromRun.runLog_perm (hfrom : FromRun rt interpret o snapshot validated)
    (hsnapshot : validateRunDirectorySnapshot rt fs dir retainOptions = some snapshot)
    {stored : StoredRun} (hlines : stored.sourceLines = o.archive.lines) :
    (runLog rt retainOptions (replayCalls stored)).Perm (directoryLog rt fs dir) := by
  rw [hfrom.replayCalls_eq hsnapshot hlines]
  obtain rfl := snapshot_of_directory hsnapshot hfrom.valid
  have hv := (valid_iff rt fs (directoryOptions fs dir retainOptions) (directoryCalls fs dir)).mp
    hfrom.valid
  exact runLog_replay_perm (wereRead_directory rt fs dir) rfl hv.consistent hv.lifecycle

/-- The names of the files do not matter to a projection. -/
theorem FromRun.projectRun_eq (hfrom : FromRun rt interpret o snapshot validated)
    (projectId sourceLocator : Text) :
    projectRun projectId sourceLocator validated = projectRun projectId sourceLocator snapshot :=
  Projector.projectRun_congr hfrom.verdict (by rw [hfrom.events]) (by rw [hfrom.summary])
    (by rw [hfrom.summary]) (by rw [hfrom.summary]) _ _

/-- The replay of what was offered projects the run that was offered. -/
theorem FromRun.projected_replay (hfrom : FromRun rt interpret o snapshot validated)
    (hsnapshot : validateRunDirectorySnapshot rt fs dir retainOptions = some snapshot)
    {stored : StoredRun} (hlines : stored.sourceLines = o.archive.lines)
    (hsummary : stored.validationSummary = o.archive.summary) {fs' : FileSystem} {v : ValidatedRun}
    (hreplay : replayStored rt fs' stored = .ok v) (projectId sourceLocator : Text) :
    projectRun projectId sourceLocator v = projectRun projectId sourceLocator snapshot := by
  have hperm := hfrom.runLog_perm hsnapshot hlines
  obtain rfl := snapshot_of_directory hsnapshot hfrom.valid
  have hv := (valid_iff rt fs (directoryOptions fs dir retainOptions) (directoryCalls fs dir)).mp
    hfrom.valid
  obtain ⟨hreplayed, hvalid⟩ := replayStored_eq_ok hreplay
  subst hreplayed
  have hv' := (valid_iff rt fs' retainOptions _).mp hvalid
  have hevents : (snapshotOf rt fs' retainOptions (replayCalls stored)).events =
      (runLog rt retainOptions (replayCalls stored)).filterMap AnyEvent.known? :=
    hv'.ends.follows.accepted
  have hevents' := hv.ends.follows.accepted
  have hfields := summary_of_compared (t := validated.report.summary) (fun key hkey => by
    rw [replayStored_compared hreplay key hkey, hsummary, (buildArchive_eq_ok hfrom.archive).2.2.1])
  rw [hfrom.summary] at hfields
  refine Projector.projectRun_congr (hvalid.trans hfrom.valid.symm) ?_
    hfields.1 hfields.2.1 hfields.2.2 _ _
  rw [hevents]
  exact (Projector.ordered_eq hv'.lifecycle (hperm.filterMap _)).trans (congrArg _ hevents'.symm)

/-- The rows of a run that was offered derive the index that was offered, when they replay. -/
theorem FromRun.storedIndex_eq (hfrom : FromRun rt interpret o snapshot validated)
    (hsnapshot : validateRunDirectorySnapshot rt fs dir retainOptions = some snapshot)
    {fs' : FileSystem} {rows : RunRows} {n : ℕ} (hhead : rows.head = o.head n)
    (hlines : rows.lines = o.archive.lines) {v : ValidatedRun}
    (hreplay : replayStored rt fs' (rows.stored o.key) = .ok v) :
    storedIndex rt fs' interpret o.version o.key rows = some o.offeredIndex := by
  obtain ⟨run, hrun, hindex⟩ := hfrom.index
  rw [hfrom.projectRun_eq] at hrun
  have hprojected : projectRun o.key.projectId o.sourceLocator v =
      projectRun o.key.projectId o.sourceLocator snapshot :=
    hfrom.projected_replay hsnapshot hlines (congrArg RunHead.validationSummary hhead) hreplay _ _
  have hlocator : rows.head.sourceLocator = o.sourceLocator := congrArg _ hhead
  rw [storedIndex, projectStored, hreplay, hlocator]
  change ((projectRun o.key.projectId o.sourceLocator v).toOption).bind _ = _
  rw [hprojected, hrun]
  change (interpret o.version run).toOption = _
  rw [hindex]
  rfl

/-- The rows of a run that was offered derive the index that was offered, exactly when its attempts
stay in their sessions and run.finished is the last event of its session. -/
theorem FromRun.storedIndex_iff (hfrom : FromRun rt interpret o snapshot validated)
    (hsnapshot : validateRunDirectorySnapshot rt fs dir retainOptions = some snapshot)
    (fs' : FileSystem) {rows : RunRows} {n : ℕ} (hhead : rows.head = o.head n)
    (hlines : rows.lines = o.archive.lines) {derived : DerivedQueryIndex} :
    storedIndex rt fs' interpret o.version o.key rows = some derived ↔
      derived = o.offeredIndex ∧ AttemptsLocal (directoryLog rt fs dir) ∧
        RunFinishedLast (directoryLog rt fs dir) := by
  -- a replay looks for no attachments
  change storedIndex rt fs interpret o.version o.key rows = some derived ↔ _
  have hcalls : replayCalls (rows.stored o.key) = _ := hfrom.replayCalls_eq hsnapshot hlines
  have hstored : ∀ v, replayStored rt fs (rows.stored o.key) = .ok v →
      storedIndex rt fs interpret o.version o.key rows = some o.offeredIndex := fun v hreplay =>
    hfrom.storedIndex_eq hsnapshot hhead hlines hreplay
  obtain rfl := snapshot_of_directory hsnapshot hfrom.valid
  have hv := (valid_iff rt fs (directoryOptions fs dir retainOptions) (directoryCalls fs dir)).mp
    hfrom.valid
  obtain ⟨hbuilt, hfinger, hsummary, -⟩ := buildArchive_eq_ok hfrom.archive
  -- the archive as it is without renaming, which replays alike
  let archive : RunArchive := { o.archive with lines := orderLines (directorySource rt fs dir) }
  have hiff : ValidRun rt fs retainOptions (replayCalls (storedRun o.key.projectId archive)) ↔
      AttemptsLocal (directoryLog rt fs dir) ∧ RunFinishedLast (directoryLog rt fs dir) :=
    replay_valid_iff (wereRead_directory rt fs dir) rfl hv.consistent hv.lifecycle
      ((isComplete_iff hv.ends.follows).mp hfrom.complete)
  have hsame : replayCalls (rows.stored o.key) =
      replayCalls (storedRun o.key.projectId archive) := by
    rw [hcalls]
    exact replayCalls_unnamed rfl rfl rfl rfl hfrom.runId
  constructor
  · intro hderived
    obtain ⟨run', hprojected, -⟩ := Option.bind_eq_some_iff.mp hderived
    obtain ⟨v, hreplayed, -⟩ := Option.bind_eq_some_iff.mp hprojected
    have hreplay := eq_ok_of_toOption hreplayed
    obtain ⟨hv', hvalid⟩ := replayStored_eq_ok hreplay
    rw [hv', hsame] at hvalid
    exact ⟨Option.some.inj (hderived.symm.trans (hstored v hreplay)),
      hiff.mp ((valid_iff rt fs retainOptions _).mp hvalid)⟩
  · rintro ⟨rfl, hlocal⟩
    have hsource : validated.sourceLines.map ValidatedSourceLine.unnamed =
        (directorySource rt fs dir).map ValidatedSourceLine.unnamed :=
      hfrom.sourceLines.trans (congrArg _ hv.ends.clean.source)
    have hagrees : ReplayAgrees rt fs o.key.projectId archive := by
      refine replay_agrees hv (wereRead_directory rt fs dir) ?_ ?_ ?_ (hiff.mpr hlocal)
      · rfl
      · exact hfinger.trans (contentFingerprint_unnamed hsource)
      · exact hsummary.trans hfrom.summary
    obtain ⟨v, hreplay, hvalid, hfields, hcontent⟩ := hagrees
    obtain ⟨hv', -⟩ := replayStored_eq_ok hreplay
    have hhead' : rows.head.validationSummary = o.archive.summary ∧
        rows.head.sourceLineCount = o.archive.lines.length ∧
        rows.head.contentFingerprint = o.archive.contentFingerprint := by
      rw [hhead]
      exact ⟨rfl, rfl, rfl⟩
    refine hstored v (replayStored_ok (by rw [hsame, ← hv']) hvalid ?_ ?_ ?_)
    · intro key hkey
      exact (hfields key hkey).trans (congrArg key.2 hhead'.1.symm)
    · exact (congrArg List.length hlines).trans hhead'.2.1.symm
    · exact hcontent.trans hhead'.2.2.symm

end replay

/-! ### The run that is archived -/

/-- The run is the projection of a run directory that the rows are archived from. -/
def ArchivedFrom (rt : Runtime) (interpret : ℕ → ProjectedRun → Except Text DerivedQueryIndex)
    (k : RunKey) (rows : RunRows) (run : ProjectedRun) : Prop :=
  ∃ fs name version request o n snapshot,
    offerOf rt interpret fs name version request = .ok o ∧ o.key = k ∧ rows.head = o.head n ∧
    rows.lines = o.archive.lines ∧
    validateRunDirectorySnapshot rt fs request.runDirectory retainOptions = some snapshot ∧
    projectRun k.projectId rows.head.sourceLocator snapshot = .ok run

section archived
variable {rt : Runtime} {interpret : ℕ → ProjectedRun → Except Text DerivedQueryIndex} {o : Offer}
  {fs : FileSystem} {k : RunKey} {rows rows' : RunRows} {run run' : ProjectedRun} {n : ℕ}

/-- Rows of an offer are archived from the directory whose index is offered. -/
theorem Offered.archivedFrom (h : Offered rt interpret o) (hkey : o.key = k)
    (hhead : rows.head = o.head n) (hlines : rows.lines = o.archive.lines) :
    ∃ run, ArchivedFrom rt interpret k rows run ∧ interpret o.version run = .ok o.offeredIndex := by
  obtain ⟨fs, name, version, request, hoffer⟩ := h
  obtain ⟨snapshot, validated, hsnapshot, hfrom, -⟩ := fromRun_of_offerOf hoffer
  obtain ⟨run, hrun, hindex⟩ := hfrom.index
  rw [hfrom.projectRun_eq, hkey] at hrun
  have hlocator : rows.head.sourceLocator = o.sourceLocator := congrArg _ hhead
  exact ⟨run, ⟨fs, name, version, request, o, n, snapshot, hoffer, hkey, hhead, hlines, hsnapshot,
    by rw [hlocator]; exact hrun⟩, hindex⟩

theorem ArchivedFrom.extends (h : ArchivedFrom rt interpret k rows run)
    (hextends : rows.Extends rows') : ArchivedFrom rt interpret k rows' run := by
  obtain ⟨fs, name, version, request, o, n, snapshot, hoffer, hkey, hhead, hlines, hsnapshot, hrun⟩ := h
  exact ⟨fs, name, version, request, o, n, snapshot, hoffer, hkey, hextends.head.trans hhead,
    hextends.lines.trans hlines, hsnapshot, by rw [hextends.head]; exact hrun⟩

/-- Rows are archived from one run, whichever directory held it. -/
theorem ArchivedFrom.unique (h : ArchivedFrom rt interpret k rows run)
    (h' : ArchivedFrom rt interpret k rows run') : run = run' := by
  obtain ⟨fs, name, version, request, o, n, s, hoffer, -, hhead, hlines, hs, hrun⟩ := h
  obtain ⟨fs', name', version', request', o', n', s', hoffer', -, hhead', hlines', hs', hrun'⟩ := h'
  obtain ⟨_, _, hsnapshot, hfrom, -⟩ := fromRun_of_offerOf hoffer
  obtain ⟨_, _, hsnapshot', hfrom', -⟩ := fromRun_of_offerOf hoffer'
  obtain rfl := Option.some.inj (hs.symm.trans hsnapshot)
  obtain rfl := Option.some.inj (hs'.symm.trans hsnapshot')
  -- both directories show what the stored lines show
  have hshows := @FromRun.runLog_perm _ _ _ _ _ _ _ hfrom hsnapshot (rows.stored k) hlines
  have hperm := hshows.symm.trans (hfrom'.runLog_perm hsnapshot' hlines')
  have hsummary : s.report.summary = s'.report.summary := by
    have hstored : o.archive.summary = o'.archive.summary :=
      (congrArg RunHead.validationSummary hhead).symm.trans
        (congrArg RunHead.validationSummary hhead')
    rwa [(buildArchive_eq_ok hfrom.archive).2.2.1, (buildArchive_eq_ok hfrom'.archive).2.2.1,
      hfrom.summary, hfrom'.summary] at hstored
  have hvalid := hfrom.valid
  have hvalid' := hfrom'.valid
  obtain rfl := snapshot_of_directory hsnapshot hvalid
  obtain rfl := snapshot_of_directory hsnapshot' hvalid'
  have hv := (valid_iff rt fs _ _).mp hvalid
  have hv' := (valid_iff rt fs' _ _).mp hvalid'
  have hevents := hv.ends.follows.accepted
  have hevents' := hv'.ends.follows.accepted
  refine Except.ok.inj (hrun.symm.trans (Eq.trans ?_ hrun'))
  refine Projector.projectRun_congr (hvalid.trans hvalid'.symm) ?_ (by rw [hsummary])
    (by rw [hsummary]) (by rw [hsummary]) _ _
  have hordered := Projector.ordered_eq hv.lifecycle (hperm.filterMap AnyEvent.known?)
  exact (congrArg _ hevents).trans (hordered.trans (congrArg _ hevents'.symm))

/-- A stored source that replays projects to the run that is archived. -/
theorem ArchivedFrom.projectStored (h : ArchivedFrom rt interpret k rows run) {v : ValidatedRun}
    (hreplay : replayStored rt fs (rows.stored k) = .ok v) :
    projectStored rt fs k rows = some run := by
  obtain ⟨_, _, _, _, o, n, _, hoffer, -, hhead, hlines, hs, hrun⟩ := h
  obtain ⟨snapshot, _, hsnapshot, hfrom, -⟩ := fromRun_of_offerOf hoffer
  obtain rfl := Option.some.inj (hs.symm.trans hsnapshot)
  have hprojected := hfrom.projected_replay hsnapshot hlines
    (congrArg RunHead.validationSummary hhead) hreplay k.projectId rows.head.sourceLocator
  rw [QeReport.projectStored, hreplay]
  change (projectRun k.projectId rows.head.sourceLocator v).toOption = some run
  rw [hprojected, hrun]
  rfl

end archived

end Archiving

end QeReport

import QeReport.Lib.JsMap
import QeReport.Lib.JsonReading
import QeReport.ReadModel.HistoryOrder

/-! # Assembling projected runs

`ReadModel.assemble` makes one snapshot of a list of projected runs: the runs by their key, the
histories of the tests and the catalog of stored bytes.  Runs of one key from several directories
exclude each other, and a run whose attachments contradict the catalog is left out. -/

namespace QeReport

/-! ### The snapshot -/

/-- A run that holds stored bytes. -/
structure BlobSource where
  projectId : Text
  runId : Text
  runDirectory : Text
deriving DecidableEq

/-- A use of stored bytes. -/
structure BlobReference where
  projectId : Text
  runId : Text
  reference : AttachmentReference
deriving DecidableEq

/-- Stored bytes, identified by their hash. -/
structure Blob where
  sha256 : Text
  sizeBytes : ℤ
  sources : List BlobSource
  references : List BlobReference
deriving DecidableEq

/-- Why a directory did not become a run of the snapshot. -/
inductive IngestionProblemCode where
  | duplicateRun | blobSizeConflict
deriving DecidableEq

/-- A conflict between runs; assembly gives no detail and no diagnostics. -/
structure IngestionProblem where
  code : IngestionProblemCode
  projectId : Text
  runDirectory : Text
  runId : Text
  message : Text
deriving DecidableEq

structure ReadModel where
  runsByKey : JsMap Text ProjectedRun
  history : JsMap Text (List ExecutionOccurrence)
  blobsBySha : JsMap Text Blob

structure ReadModelBuild where
  model : ReadModel
  problems : List IngestionProblem

/-! ### Keys -/

/-- `JSON.stringify` of a list of strings. -/
def stringsKey (parts : List Text) : Text := jsonText (.arr (parts.map .str))

def runKey (projectId runId : Text) : Text := stringsKey [projectId, runId]

def historyKey (projectId runnerName historicalId : Text) : Text :=
  stringsKey [projectId, runnerName, historicalId]

/-- `compareSources`, on what the two kinds of sources share. -/
def compareSources (a b : Text × Text) : Ordering := (compare a.1 b.1).then (compare a.2 b.2)

/-! ### Occurrences of a run -/

/-- `historyOccurrencesOf(run)`; an execution always has an attempt. -/
def historyOccurrencesOf (run : ProjectedRun) : Except Text (List ExecutionOccurrence) :=
  let sessions : JsMap Text ProjectedSession :=
    run.sessions.foldl (fun m s => m.set s.sessionId s) .empty
  List.flatten <$> run.executions.mapM (fun e =>
    match e.test.historicalId, e.runnerName with
    | some historicalId, some runnerName =>
        match e.attempts with
        | [] => .error (txt "Cannot read properties of undefined (reading 'startedAt')")
        | first :: _ => .ok
            [{ projectId := run.projectId
               runnerName
               historicalId
               runId := run.runId
               executionId := e.executionId
               sessionIds := sortBy compare (e.attempts.map (fun a => a.sessionId)).dedup
               historicalIdStability := e.test.historicalIdStability
               occurredAt := first.startedAt
               attemptCount := e.attempts.length
               complete := e.complete
               finalStatus := e.finalStatus
               expectedStatus := e.finalAttempt.expectedStatus
               flaky := e.flaky
               runVerdict := run.validator.verdict
               runComplete := run.validator.complete
               sessionStatus := (sessions.get? e.finalAttempt.sessionId).bind (fun s => s.status) }]
    | _, _ => .ok [])

/-! ### Assembling -/

/-- One run added to the candidates of its key, once for each directory. -/
def addCandidate (byKey : JsMap Text (List ProjectedRun)) (run : ProjectedRun) :
    JsMap Text (List ProjectedRun) :=
  let key := runKey run.projectId run.runId
  match byKey.get? key with
  | none => byKey.set key [run]
  | some known =>
      if known.any (fun r => r.runDirectory = run.runDirectory) then byKey
      else byKey.set key (known ++ [run])

/-- The candidates of every key. -/
def candidatesByKey (runs : List ProjectedRun) : JsMap Text (List ProjectedRun) :=
  runs.foldl addCandidate .empty

/-- What the loop over the keys builds. -/
structure Assembling where
  accepted : JsMap Text ProjectedRun
  blobs : JsMap Text Blob
  problems : List IngestionProblem

/-- The problem of one of several directories with one key. -/
def duplicateRun (candidates : List ProjectedRun) (run : ProjectedRun) : IngestionProblem where
  code := .duplicateRun
  projectId := run.projectId
  runDirectory := run.runDirectory
  runId := run.runId
  message :=
    let directories := sortBy compare (candidates.map (fun r => r.runDirectory))
    txt "run " ++ run.runId ++ txt " of project " ++ run.projectId ++ txt " was found in " ++
      natText directories.length ++ txt " run directories: " ++
      (txt ", ").intercalate directories

/-- The catalog holds the attachment's bytes under another size. -/
def contradicts (blobs : JsMap Text Blob) (a : AttachmentReference) : Bool :=
  match blobs.get? a.sha256 with
  | none => false
  | some known => known.sizeBytes ≠ a.sizeBytes

def blobSizeConflict (blobs : JsMap Text Blob) (run : ProjectedRun)
    (conflict : AttachmentReference) : IngestionProblem where
  code := .blobSizeConflict
  projectId := run.projectId
  runDirectory := run.runDirectory
  runId := run.runId
  message := txt "attachment " ++ conflict.sha256 ++ txt " is " ++ intText conflict.sizeBytes ++
    txt " bytes here and " ++
    intText (((blobs.get? conflict.sha256).map (fun b => b.sizeBytes)).getD 0) ++
    txt " bytes in an earlier run"

/-- One reference of an accepted run added to the catalog. -/
def addReference (run : ProjectedRun) (blobs : JsMap Text Blob) (reference : AttachmentReference) :
    JsMap Text Blob :=
  let blob := (blobs.get? reference.sha256).getD ⟨reference.sha256, reference.sizeBytes, [], []⟩
  let known := blob.sources.any (fun s => s.projectId = run.projectId && s.runId = run.runId)
  blobs.set reference.sha256 { blob with
    sources := if known then blob.sources
      else blob.sources ++ [⟨run.projectId, run.runId, run.runDirectory⟩]
    references := blob.references ++ [⟨run.projectId, run.runId, reference⟩] }

/-- One key of the loop. -/
def assembleKey (st : Assembling) (entry : Text × List ProjectedRun) : Assembling :=
  match entry.2 with
  | [] => st
  | [run] =>
      match run.attachments.find? (contradicts st.blobs) with
      | some conflict =>
          { st with problems := st.problems ++ [blobSizeConflict st.blobs run conflict] }
      | none =>
          { st with
            accepted := st.accepted.set entry.1 run
            blobs := run.attachments.foldl (addReference run) st.blobs }
  | candidates => { st with problems := st.problems ++ candidates.map (duplicateRun candidates) }

/-- The candidates by key, in the order of the keys. -/
def sortedCandidates (runs : List ProjectedRun) : List (Text × List ProjectedRun) :=
  sortBy (fun a b => compare a.1 b.1) (candidatesByKey runs).entries

def acceptRuns (runs : List ProjectedRun) : Assembling :=
  (sortedCandidates runs).foldl assembleKey ⟨.empty, .empty, []⟩

/-- The occurrences of the accepted runs under their tests, each list in history order. -/
def buildHistory (accepted : List ProjectedRun) :
    Except Text (JsMap Text (List ExecutionOccurrence)) := do
  let occurrences ← accepted.mapM historyOccurrencesOf
  let byTest := JsMap.groupBy
    (fun o : ExecutionOccurrence => historyKey o.projectId o.runnerName o.historicalId) id
    occurrences.flatten
  byTest.entries.foldlM (fun m e => do return m.set e.1 (← sortOccurrences e.2)) byTest

/-- The catalog in the order of the hashes, its lists by project and run. -/
def freezeBlobs (blobs : JsMap Text Blob) : JsMap Text Blob :=
  (sortBy (fun a b => compare a.1 b.1) blobs.entries).foldl (fun m e => m.set e.1 { e.2 with
    sources := sortBy (fun a b => compareSources (a.projectId, a.runId) (b.projectId, b.runId))
      e.2.sources
    references := sortBy (fun a b => compareSources (a.projectId, a.runId) (b.projectId, b.runId))
      e.2.references }) .empty

/-- `ReadModel.assemble(runs)`. -/
def assemble (runs : List ProjectedRun) : Except Text ReadModelBuild := do
  let st := acceptRuns runs
  let history ← buildHistory st.accepted.values
  return ⟨⟨st.accepted, history, freezeBlobs st.blobs⟩, st.problems⟩

/-! ### Queries -/

/-- A surrogate without its partner. -/
def hasLoneSurrogate : Text → Bool
  | [] => false
  | [u] => isHighSurrogate u || isLowSurrogate u
  | u :: v :: t =>
      if isHighSurrogate u && isLowSurrogate v then hasLoneSurrogate t
      else isHighSurrogate u || isLowSurrogate u || hasLoneSurrogate (v :: t)

def maxProjectIdUtf8Bytes : ℕ := 512

/-- `checkProjectId(projectId)`. -/
def checkProjectId (projectId : Text) : Except Text Unit :=
  if projectId = [] then .error (txt "projectId must be a non-empty string")
  else if hasLoneSurrogate projectId then
    .error (txt "projectId must be well-formed Unicode: it holds an unpaired surrogate")
  else if (0 : CodeUnit) ∈ projectId then .error (txt "projectId must not contain U+0000")
  else if byteLength projectId > maxProjectIdUtf8Bytes then
    .error (txt "projectId must be at most " ++ natText maxProjectIdUtf8Bytes ++
      txt " bytes in UTF-8")
  else .ok ()

structure TestHistory where
  projectId : Text
  runnerName : Text
  historicalId : Text
  occurrences : List ExecutionOccurrence
deriving DecidableEq

structure Flakiness where
  projectId : Text
  runnerName : Text
  historicalId : Text
  totalOccurrences : ℕ
  flakyOccurrences : ℕ
  everFlaky : Bool
  flaky : List ExecutionOccurrence
deriving DecidableEq

namespace ReadModel
variable (m : ReadModel)

def getRun (projectId runId : Text) : Except Text (Option ProjectedRun) := do
  checkProjectId projectId
  return m.runsByKey.get? (runKey projectId runId)

def runs : List ProjectedRun :=
  sortBy (fun a b => compareSources (a.projectId, a.runId) (b.projectId, b.runId)) m.runsByKey.values

def getTestHistory (projectId runnerName historicalId : Text) : Except Text TestHistory := do
  checkProjectId projectId
  return ⟨projectId, runnerName, historicalId,
    (m.history.get? (historyKey projectId runnerName historicalId)).getD []⟩

def getFlakiness (projectId runnerName historicalId : Text) : Except Text Flakiness := do
  let history ← m.getTestHistory projectId runnerName historicalId
  let flaky := history.occurrences.filter (fun o => o.flaky)
  return ⟨projectId, runnerName, historicalId, history.occurrences.length, flaky.length,
    flaky.length > 0, flaky⟩

def getBlob (sha256 : Text) : Option Blob := m.blobsBySha.get? sha256

def blobs : List Blob := m.blobsBySha.values

end ReadModel

/-! ### The candidates of a key -/

theorem stringsKey_injective {l l' : List Text} (h : stringsKey l = stringsKey l') : l = l' := by
  have hparse := congrArg parseJson h
  rw [stringsKey, stringsKey, parseJson_jsonText, parseJson_jsonText] at hparse
  have hitems := Json.arr.inj (Option.some.inj hparse)
  exact List.map_injective_iff.mpr (fun _ _ => Json.str.inj) hitems

theorem runKey_injective {p r p' r' : Text} (h : runKey p r = runKey p' r') : p = p' ∧ r = r' := by
  have hparts := stringsKey_injective h
  simpa using hparts

/-- What the map holds for a key: every run of the key by one of its directory, each directory
once. -/
structure CandidatesOf (runs : List ProjectedRun) (key : Text) (candidates : List ProjectedRun) :
    Prop where
  directories : (candidates.map (fun r => r.runDirectory)).Nodup
  sound : ∀ r ∈ candidates, r ∈ runs ∧ runKey r.projectId r.runId = key
  complete : ∀ r ∈ runs, runKey r.projectId r.runId = key →
    ∃ r' ∈ candidates, r'.runDirectory = r.runDirectory

namespace CandidatesOf
variable {runs : List ProjectedRun} {run : ProjectedRun} {key : Text} {c : List ProjectedRun}

/-- A run whose directory is known, or of another key, changes nothing. -/
theorem keep (h : CandidatesOf runs key c)
    (hrun : runKey run.projectId run.runId = key → ∃ r ∈ c, r.runDirectory = run.runDirectory) :
    CandidatesOf (runs ++ [run]) key c := by
  refine ⟨h.directories, ?_, ?_⟩
  · intro r hr
    exact ⟨List.mem_append_left _ (h.sound r hr).1, (h.sound r hr).2⟩
  · intro r hr hk
    rcases List.mem_append.mp hr with hr | hr
    · exact h.complete r hr hk
    · obtain rfl := List.mem_singleton.mp hr
      exact hrun hk

theorem add (h : CandidatesOf runs key c) (hkey : runKey run.projectId run.runId = key)
    (hnew : ∀ r ∈ c, r.runDirectory ≠ run.runDirectory) :
    CandidatesOf (runs ++ [run]) key (c ++ [run]) := by
  refine ⟨?_, ?_, ?_⟩
  · rw [List.map_append]
    refine h.directories.append (List.nodup_singleton _) ?_
    intro d hd hd'
    obtain ⟨r, hr, rfl⟩ := List.mem_map.mp hd
    exact hnew r hr (List.mem_singleton.mp hd')
  · intro r hr
    rcases List.mem_append.mp hr with hr | hr
    · exact ⟨List.mem_append_left _ (h.sound r hr).1, (h.sound r hr).2⟩
    · obtain rfl := List.mem_singleton.mp hr
      exact ⟨List.mem_append_right _ hr, hkey⟩
  · intro r hr hk
    rcases List.mem_append.mp hr with hr | hr
    · obtain ⟨r', hr', hdir⟩ := h.complete r hr hk
      exact ⟨r', List.mem_append_left _ hr', hdir⟩
    · exact ⟨r, List.mem_append_right _ hr, rfl⟩

end CandidatesOf

/-- The candidates the map holds for a key, none when it has no entry. -/
def candidatesAt (runs : List ProjectedRun) (key : Text) : List ProjectedRun :=
  ((candidatesByKey runs).get? key).getD []

theorem candidatesOf_candidatesAt (runs : List ProjectedRun) (key : Text) :
    CandidatesOf runs key (candidatesAt runs key) := by
  induction runs using List.reverseRecOn with
  | nil => exact ⟨List.nodup_nil, nofun, nofun⟩
  | append_singleton runs run ih =>
      have hstep : candidatesByKey (runs ++ [run]) = addCandidate (candidatesByKey runs) run := by
        simp [candidatesByKey]
      unfold candidatesAt at ih ⊢
      rw [hstep, addCandidate]
      by_cases hkey : key = runKey run.projectId run.runId
      · subst hkey
        cases hget : (candidatesByKey runs).get? (runKey run.projectId run.runId) with
        | none =>
            rw [hget] at ih
            dsimp only
            rw [JsMap.get?_set_self]
            exact ih.add rfl nofun
        | some known =>
            rw [hget] at ih
            dsimp only
            split_ifs with hany
            · rw [hget]
              obtain ⟨r, hr, hdir⟩ := List.any_eq_true.mp hany
              exact ih.keep (fun _ => ⟨r, hr, by simpa using hdir⟩)
            · rw [JsMap.get?_set_self]
              exact ih.add rfl (fun r hr hdir =>
                hany (List.any_eq_true.mpr ⟨r, hr, by simpa using hdir⟩))
      · have hother : ∀ v, ((candidatesByKey runs).set (runKey run.projectId run.runId) v).get? key =
            (candidatesByKey runs).get? key := fun v => JsMap.get?_set_ne _ v hkey
        have hkeep : CandidatesOf (runs ++ [run]) key (((candidatesByKey runs).get? key).getD []) :=
          ih.keep (fun h => absurd h.symm hkey)
        split
        · rw [hother]
          exact hkeep
        · split_ifs
          · exact hkeep
          · rw [hother]
            exact hkeep

theorem get?_addCandidate (m : JsMap Text (List ProjectedRun)) (run : ProjectedRun) (key : Text) :
    ((addCandidate m run).get? key).isSome = true ↔
      (m.get? key).isSome = true ∨ key = runKey run.projectId run.runId := by
  unfold addCandidate
  dsimp only
  by_cases hkey : key = runKey run.projectId run.runId
  · subst hkey
    cases hget : m.get? (runKey run.projectId run.runId) with
    | none => simp
    | some known =>
        dsimp only
        split_ifs
        · simp [hget]
        · simp
  · split
    · simp [JsMap.get?_set_ne _ _ hkey, hkey]
    · split_ifs
      · simp [hkey]
      · simp [JsMap.get?_set_ne _ _ hkey, hkey]

theorem mem_candidateKeys {runs : List ProjectedRun} {key : Text} :
    key ∈ (candidatesByKey runs).entries.map Prod.fst ↔
      ∃ r ∈ runs, key = runKey r.projectId r.runId := by
  rw [JsMap.mem_keys]
  induction runs using List.reverseRecOn with
  | nil => simp [candidatesByKey]
  | append_singleton runs run ih =>
      have hstep : candidatesByKey (runs ++ [run]) = addCandidate (candidatesByKey runs) run := by
        simp [candidatesByKey]
      rw [hstep, get?_addCandidate, ih]
      simp [or_and_right, exists_or]

/-- The keys in their order. -/
def sortedKeys (runs : List ProjectedRun) : List Text :=
  sortBy compare ((candidatesByKey runs).entries.map Prod.fst)

theorem sortedCandidates_eq (runs : List ProjectedRun) :
    sortedCandidates runs = (sortedKeys runs).map (fun k => (k, candidatesAt runs k)) := by
  have hkeys : (sortedCandidates runs).map Prod.fst = sortedKeys runs :=
    map_sortBy Prod.fst (fun _ _ => rfl) _
  rw [← hkeys]
  exact JsMap.entries_eq_map (m := candidatesByKey runs) (fun e he => mem_sortBy.mp he) []

/-! ### Another order of the runs -/

/-- Runs that are told apart by nothing but their key and directory are equal. -/
def Distinguished (runs : List ProjectedRun) : Prop :=
  ∀ r ∈ runs, ∀ r' ∈ runs, r.projectId = r'.projectId → r.runId = r'.runId →
    r.runDirectory = r'.runDirectory → r = r'

section orders
variable {runs runs' : List ProjectedRun}

theorem sortedKeys_perm (hperm : runs.Perm runs') : sortedKeys runs = sortedKeys runs' := by
  refine sortBy_eq_of_perm ?_ (fun a _ b _ h => Std.LawfulEqCmp.eq_of_compare h)
  refine (List.perm_ext_iff_of_nodup (candidatesByKey runs).nodup (candidatesByKey runs').nodup).mpr
    (fun key => ?_)
  rw [mem_candidateKeys, mem_candidateKeys]
  exact exists_congr (fun r => and_congr_left (fun _ => hperm.mem_iff))

/-- The candidates of a key are the runs of the key. -/
theorem mem_candidatesAt (h : Distinguished runs) {key : Text} {r : ProjectedRun} :
    r ∈ candidatesAt runs key ↔ r ∈ runs ∧ runKey r.projectId r.runId = key := by
  have hc := candidatesOf_candidatesAt runs key
  refine ⟨hc.sound r, fun ⟨hr, hk⟩ => ?_⟩
  obtain ⟨r', hr', hdir⟩ := hc.complete r hr hk
  obtain ⟨hmem, hk'⟩ := hc.sound r' hr'
  obtain ⟨hp, hi⟩ := runKey_injective (hk'.trans hk.symm)
  rwa [← h r' hmem r hr hp hi hdir]

theorem candidatesAt_perm (h : Distinguished runs) (hperm : runs.Perm runs') (key : Text) :
    (candidatesAt runs key).Perm (candidatesAt runs' key) := by
  have h' : Distinguished runs' := fun r hr r' hr' =>
    h r (hperm.mem_iff.mpr hr) r' (hperm.mem_iff.mpr hr')
  have hnodup : ∀ l : List ProjectedRun, (candidatesAt l key).Nodup :=
    fun l => (candidatesOf_candidatesAt l key).directories.of_map _
  refine (List.perm_ext_iff_of_nodup (hnodup runs) (hnodup runs')).mpr (fun r => ?_)
  rw [mem_candidatesAt h, mem_candidatesAt h', hperm.mem_iff]

/-- The same runs and blobs, and the same problems in some order. -/
structure SameAssembling (st st' : Assembling) : Prop where
  accepted : st.accepted = st'.accepted
  blobs : st.blobs = st'.blobs
  problems : st.problems.Perm st'.problems

theorem duplicateRun_perm {c c' : List ProjectedRun} (hperm : c.Perm c') :
    duplicateRun c = duplicateRun c' := by
  have hdirectories : sortBy compare (c.map (fun r => r.runDirectory)) =
      sortBy compare (c'.map (fun r => r.runDirectory)) :=
    sortBy_eq_of_perm (hperm.map _) (fun a _ b _ h => Std.LawfulEqCmp.eq_of_compare h)
  funext run
  simp only [duplicateRun, hdirectories]

/-- One key of the loop does not depend on the order of its candidates. -/
theorem assembleKey_perm {st st' : Assembling} (h : SameAssembling st st') {key : Text}
    {c c' : List ProjectedRun} (hperm : c.Perm c') :
    SameAssembling (assembleKey st (key, c)) (assembleKey st' (key, c')) := by
  match c, c', hperm with
  | [], c', hperm =>
      obtain rfl := hperm.nil_eq
      exact h
  | [run], c', hperm =>
      obtain rfl := List.singleton_perm.mp hperm
      unfold assembleKey
      dsimp only
      rw [← h.blobs]
      cases run.attachments.find? (contradicts st.blobs) with
      | some conflict => exact ⟨h.accepted, rfl, h.problems.append_right _⟩
      | none =>
          refine ⟨?_, rfl, h.problems⟩
          dsimp only
          rw [h.accepted]
  | r₁ :: r₂ :: rest, c', hperm =>
      match c', hperm with
      | [], hperm => exact absurd hperm.eq_nil (by simp)
      | [r], hperm => exact absurd hperm.length_eq (by simp)
      | s₁ :: s₂ :: rest', hperm =>
          refine ⟨h.accepted, h.blobs, ?_⟩
          change (st.problems ++ _).Perm (st'.problems ++ _)
          rw [duplicateRun_perm hperm]
          exact h.problems.append (hperm.map _)

theorem acceptRuns_perm (h : Distinguished runs) (hperm : runs.Perm runs') :
    SameAssembling (acceptRuns runs) (acceptRuns runs') := by
  have hfold : ∀ (keys : List Text) (st st' : Assembling), SameAssembling st st' →
      SameAssembling ((keys.map (fun k => (k, candidatesAt runs k))).foldl assembleKey st)
        ((keys.map (fun k => (k, candidatesAt runs' k))).foldl assembleKey st') := by
    intro keys
    induction keys with
    | nil => exact fun _ _ hst => hst
    | cons key keys ih =>
        exact fun st st' hst => ih _ _ (assembleKey_perm hst (candidatesAt_perm h hperm key))
  rw [acceptRuns, acceptRuns, sortedCandidates_eq, sortedCandidates_eq, ← sortedKeys_perm hperm]
  exact hfold _ _ _ ⟨rfl, rfl, .rfl⟩

/-- Two builds that answer every query alike and name the same problems. -/
structure SameAnswers (b b' : ReadModelBuild) : Prop where
  runs : b.model.runs = b'.model.runs
  getRun : ∀ projectId runId, b.model.getRun projectId runId = b'.model.getRun projectId runId
  getTestHistory : ∀ projectId runnerName historicalId,
    b.model.getTestHistory projectId runnerName historicalId =
      b'.model.getTestHistory projectId runnerName historicalId
  getFlakiness : ∀ projectId runnerName historicalId,
    b.model.getFlakiness projectId runnerName historicalId =
      b'.model.getFlakiness projectId runnerName historicalId
  getBlob : ∀ sha256, b.model.getBlob sha256 = b'.model.getBlob sha256
  blobs : b.model.blobs = b'.model.blobs
  problems : ∀ p, p ∈ b.problems ↔ p ∈ b'.problems

end orders

namespace Sample

/-- A run with no facts but its place and its attachments. -/
def runAt (runId runDirectory : Text) (attachments : List AttachmentReference) : ProjectedRun where
  projectId := txt "p"
  runId := runId
  runDirectory := runDirectory
  validator := ⟨true, true, .passed, 0, 0⟩
  sessions := []
  executions := []
  scopeFailures := []
  attachments := attachments

end Sample

end QeReport

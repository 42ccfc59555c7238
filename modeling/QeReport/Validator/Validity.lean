import QeReport.Validator.Finish
import QeReport.Validator.Lines

/-! # Valid runs

`ValidRun` states what makes the report of a sequence of `feed` calls valid, in terms of the
lines that were read and of the log: `valid_iff` is the theorem that the validator decides it.
`Ends` collects what then is known of the bookkeeping. -/

namespace QeReport

open GuardedLog

/-! ### Sequences of calls -/

section calls
variable (rt : Runtime) (options : ValidateOptions)

/-- The lines of one call that were read. -/
def callLines (c : FeedCall) : List Line := linesOf rt (eventLimit options) c.file 0 c.lines

/-- The lines of all calls that were read, in the order they were fed. -/
def allLines (calls : List FeedCall) : List Line := calls.flatMap (callLines rt options)

/-- The log of a sequence of calls. -/
def runLog (calls : List FeedCall) : Log := logOf (allLines rt options calls)

/-- The fresh events of a call after other calls. -/
def callEvents (before : List FeedCall) (c : FeedCall) : Log :=
  eventsAfter (allLines rt options before) (callLines rt options c)

/-- The rules of the single files. -/
def FilesAdmit (calls : List FeedCall) : Prop :=
  Admissible (fun before c => Admissible (FileGuard c.singleSession) (callEvents rt options before c))
    calls

end calls

theorem allLines_concat (rt : Runtime) (options : ValidateOptions) (calls : List FeedCall)
    (c : FeedCall) :
    allLines rt options (calls ++ [c]) = allLines rt options calls ++ callLines rt options c := by
  simp [allLines]

theorem clean_start (rt : Runtime) (options : ValidateOptions) : Clean rt options .start [] := by
  refine ⟨⟨admissible_nil, ⟨⟨?_, ?_, rfl⟩, ⟨?_, ?_⟩, ⟨rfl, rfl, rfl, rfl, rfl, rfl, rfl, rfl⟩⟩,
    ⟨fun s => rfl, rfl⟩, rfl, rfl, rfl, ?_⟩, ?_, fun i => rfl, rfl, ?_⟩
  · intro a
    simp [Books.start, logOf, freshLines, fresh, freshAfter, Log.attempts]
  · intro a st h
    cases h
  · intro x
    simp [Books.start, logOf, freshLines, fresh, freshAfter]
  · intro x st h
    cases h
  · simp [Books.start, logOf, freshLines, fresh, freshAfter]
  · intro x hx
    cases hx
  · simp [Books.start, sourceAfter]

theorem Clean.files {rt : Runtime} {options : ValidateOptions} {b : Books} {done : List Line}
    (h : Clean rt options b done) (n : ℕ) : Clean rt options { b with files := n } done := by
  have hb : SameFacts b { b with files := n } := ⟨rfl, rfl, rfl, rfl, rfl, rfl, rfl, rfl, rfl, rfl⟩
  obtain ⟨⟨h1, h2, h3, h4, h5, h6, h7⟩, g1, g2, g3, g4⟩ := h
  exact ⟨⟨h1, h2.congr hb, h3, h4, h5, h6, h7⟩, g1, g2, g3, g4⟩

theorem hereFollows_start (singleSession : Bool) : HereFollows singleSession Here.start [] :=
  ⟨rfl, by simp [Here.start], rfl, by simp⟩

/-- Feeding adds no error exactly when every line was read and every rule was kept. -/
theorem feedAll_spec (rt : Runtime) (options : ValidateOptions) (calls : List FeedCall) :
    (ErrorFree (feedAll rt options calls).diagnostics ↔
      (∀ c ∈ calls, AllRead rt (eventLimit options) c.lines) ∧
      Consistent (allLines rt options calls) ∧ Lifecycle (runLog rt options calls) ∧
      FilesAdmit rt options calls) ∧
    (ErrorFree (feedAll rt options calls).diagnostics →
      Clean rt options (feedAll rt options calls).books (allLines rt options calls) ∧
      (feedAll rt options calls).books.files = calls.length) := by
  induction calls using List.reverseRecOn with
  | nil =>
      refine ⟨iff_of_true errorFree_nil ⟨by simp, ?_, admissible_nil, admissible_nil⟩,
        fun _ => ⟨clean_start rt options, rfl⟩⟩
      exact (clean_start rt options).consistent
  | append_singleton calls c ih =>
      obtain ⟨ih1, ih2⟩ := ih
      have hstep : feedAll rt options (calls ++ [c]) = feed rt options (feedAll rt options calls) c := by
        simp [feedAll]
      rw [hstep]
      have hdiag : (feed rt options (feedAll rt options calls) c).diagnostics =
          (feedAll rt options calls).diagnostics ++
            (feedLines rt options c.file c.singleSession c.lines
              { (feedAll rt options calls).books with
                files := (feedAll rt options calls).books.files + 1 } Here.start).diagnostics := rfl
      have hlines := allLines_concat rt options calls c
      rw [hdiag, errorFree_append]
      by_cases hfree : ErrorFree (feedAll rt options calls).diagnostics
      · obtain ⟨hclean, hfiles⟩ := ih2 hfree
        obtain ⟨hrules, hafter⟩ := feedLines_spec rt options c.file c.singleSession c.lines
          (hclean.files ((feedAll rt options calls).books.files + 1))
          (hereFollows_start c.singleSession)
        obtain ⟨h1, h2, h3, h4⟩ := ih1.mp hfree
        refine ⟨?_, fun hboth => ?_⟩
        · rw [hrules, runLog, hlines, FilesAdmit, admissible_concat]
          constructor
          · rintro ⟨-, hread, hcons, hlife, hfile⟩
            refine ⟨fun d hd => ?_, hcons, hlife, h4, hfile⟩
            rcases List.mem_append.mp hd with hd | hd
            · exact h1 d hd
            · rw [List.mem_singleton.mp hd]
              exact hread
          · rintro ⟨hread, hcons, hlife, -, hfile⟩
            exact ⟨hfree, hread c (by simp), hcons, hlife, hfile⟩
        · obtain ⟨c1, c2⟩ := hafter hboth.2
          rw [hlines, List.length_append, List.length_singleton]
          exact ⟨c1, c2.trans (congrArg (· + 1) hfiles)⟩
      · refine ⟨iff_of_false (fun h => hfree h.1) (fun h => hfree (ih1.mpr ?_)),
          fun h => absurd h.1 hfree⟩
        obtain ⟨h1, h2, h3, h4⟩ := h
        rw [runLog, hlines, logOf_append] at h3
        rw [hlines] at h2
        rw [FilesAdmit, admissible_concat] at h4
        exact ⟨fun d hd => h1 d (List.mem_append_left _ hd), h2.initial, h3.initial, h4.1⟩

/-! ### The rules of the whole run -/

/-- Everything that was started in the log was finished in it. -/
structure Complete (l : Log) : Prop where
  sessions : ∀ s ∈ l.sessions, s ∈ l.finishedSessions
  attempts : ∀ a ∈ l.attempts, a ∈ l.finishedAttempts
  steps : ∀ s ∈ l.steps, s ∈ l.finishedSteps

/-- A file that holds the declared bytes of an attachment. -/
def HoldsBytes (fs : FileSystem) (dir : Text) (a : Text × ℤ) : Prop :=
  fs.entryKind (joinPath dir a.1) = .file ∧
    ∃ opened, fs.openRegular (joinPath dir a.1) = .ok opened ∧ opened.size = a.2 ∧
      opened.sha256 = a.1

/-- The declared attachments are in the attachments directory. -/
def AttachmentsPresent (fs : FileSystem) (options : ValidateOptions) (as : List (Text × ℤ)) : Prop :=
  ∀ dir, options.attachmentsDir = some dir → ∀ a ∈ as,
    ¬ (fs.entryKind dir = .symlink ∨ fs.entryKind dir = .special ∨ fs.entryKind dir = .file) ∧
    HoldsBytes fs dir a

theorem checkAttachment_errorFree {fs : FileSystem} {dir : Text} {a : DeclaredAttachment} :
    ErrorFree (checkAttachment fs dir a) ↔ HoldsBytes fs dir (a.sha256, a.sizeBytes) := by
  unfold checkAttachment HoldsBytes
  cases hk : fs.entryKind (joinPath dir a.sha256) with
  | missing => simp [hk, ErrorFree, attachmentMissing, attachmentError, lineError]
  | directory => simp [hk, ErrorFree, attachmentRefused, attachmentError, lineError]
  | symlink => simp [hk, ErrorFree, attachmentRefused, attachmentError, lineError]
  | special => simp [hk, ErrorFree, attachmentRefused, attachmentError, lineError]
  | file =>
      cases ho : fs.openRegular (joinPath dir a.sha256) with
      | error kind =>
          cases kind <;> simp [hk, ho, ErrorFree, attachmentMissing, attachmentRefused,
            attachmentError, lineError]
      | ok opened =>
          simp only [hk, ho, errorFree_append, true_and, Except.ok.injEq, exists_eq_left']
          rw [errorFree_check rfl, errorFree_check rfl]
          simp

theorem checkAttachments_errorFree {fs : FileSystem} {dir : Text} {as : List DeclaredAttachment} :
    ErrorFree (checkAttachments fs dir as) ↔
      ∀ a ∈ as.map (fun a => (a.sha256, a.sizeBytes)),
        ¬ (fs.entryKind dir = .symlink ∨ fs.entryKind dir = .special ∨
          fs.entryKind dir = .file) ∧ HoldsBytes fs dir a := by
  unfold checkAttachments
  dsimp only
  split_ifs with h
  · rw [errorFree_check rfl]
    cases as with
    | nil => simp
    | cons a as =>
        refine iff_of_false (by simp) (fun hall => ?_)
        exact (hall _ List.mem_cons_self).1 h
  · rw [errorFree_flatMap]
    simp only [checkAttachment_errorFree, List.forall_mem_map, h, not_false_eq_true, true_and]

section finish
variable {options : ValidateOptions} {b : Books} {l : Log}

theorem checkRunEnd_errorFree (h : Follows options b l) :
    ErrorFree (checkRunEnd b) ↔
      ((∃ e ∈ l, e.isRunFinished = true) → ∀ s ∈ l.sessions, s ∈ l.finishedSessions) := by
  have hrun : b.runFinished.isSome = true ↔ ∃ e ∈ l, e.isRunFinished = true := by
    rw [h.tracks.counts.runFinished, List.any_eq_true]
  rw [← hrun]
  unfold checkRunEnd
  cases b.runFinished with
  | none => simp [errorFree_nil]
  | some at_ =>
      simp only [errorFree_flatMap, errorFree_check_lifecycle, Option.isSome_some, forall_const]
      constructor
      · intro hall s hs
        have hget := h.sessions.get s
        rw [if_pos hs] at hget
        simpa using hall _ (JsMap.mem_entries.mpr hget)
      · rintro hall ⟨s, st⟩ hs
        have hget := h.sessions.get s
        rw [JsMap.mem_entries.mp hs] at hget
        split_ifs at hget with hsl
        rw [Option.some.inj hget]
        simp [hall s hsl]

theorem isComplete_iff (h : Follows options b l) : isComplete b = true ↔ Complete l := by
  unfold isComplete
  rw [Bool.and_eq_true, List.all_eq_true, List.all_eq_true]
  constructor
  · rintro ⟨hs, ha⟩
    refine ⟨fun s hsl => ?_, fun a hal => ?_, fun s hsl => ?_⟩
    · have hget := h.sessions.get s
      rw [if_pos hsl] at hget
      simpa using hs _ (JsMap.mem_values.mpr ⟨s, hget⟩)
    · obtain ⟨st, hst, hf⟩ := h.tracks.attempts.get_of_mem hal
      have := ha st (JsMap.mem_values.mpr ⟨a, hst⟩)
      rw [Bool.and_eq_true] at this
      exact hf.finished.mp this.1
    · obtain ⟨st, hst, hf⟩ := h.tracks.attempts.get_of_mem (steps_subset h.lifecycle s hsl)
      have := ha st (JsMap.mem_values.mpr ⟨s.1, hst⟩)
      rw [Bool.and_eq_true, List.all_eq_true] at this
      have hget := hf.steps s.2
      rw [if_pos hsl] at hget
      simpa using this.2 _ (JsMap.mem_values.mpr ⟨s.2, hget⟩)
  · intro hc
    refine ⟨fun st hst => ?_, fun st hst => ?_⟩
    · obtain ⟨s, hs⟩ := JsMap.mem_values.mp hst
      rw [h.sessions.get] at hs
      split_ifs at hs with hsl
      rw [← Option.some.inj hs]
      simpa using hc.sessions s hsl
    · obtain ⟨a, ha⟩ := JsMap.mem_values.mp hst
      have hf := h.tracks.attempts.some a st ha
      rw [Bool.and_eq_true, List.all_eq_true]
      refine ⟨hf.finished.mpr (hc.attempts a (h.tracks.attempts.mem_of_get ha)), fun done hd => ?_⟩
      obtain ⟨s, hs⟩ := JsMap.mem_values.mp hd
      rw [hf.steps] at hs
      split_ifs at hs with hsl
      rw [← Option.some.inj hs]
      simpa using hc.steps _ hsl

end finish

/-! ### Validity -/

/-- What makes the report of a sequence of calls valid. -/
structure ValidRun (rt : Runtime) (fs : FileSystem) (options : ValidateOptions)
    (calls : List FeedCall) : Prop where
  read : ∀ c ∈ calls, AllRead rt (eventLimit options) c.lines
  consistent : Consistent (allLines rt options calls)
  lifecycle : Lifecycle (runLog rt options calls)
  files : FilesAdmit rt options calls
  runEnd : (∃ e ∈ runLog rt options calls, e.isRunFinished = true) →
    ∀ s ∈ (runLog rt options calls).sessions, s ∈ (runLog rt options calls).finishedSessions
  attachments : AttachmentsPresent fs options ((runLog rt options calls).filterMap AnyEvent.attachment)
  complete : options.requireComplete = true → Complete (runLog rt options calls)

/-- The state of a validator at the end of a valid run. -/
structure Ends (rt : Runtime) (options : ValidateOptions) (calls : List FeedCall) (b : Books) :
    Prop where
  clean : Clean rt options b (allLines rt options calls)
  files : b.files = calls.length

theorem Ends.follows {rt : Runtime} {options : ValidateOptions} {calls : List FeedCall} {b : Books}
    (h : Ends rt options calls b) : Follows options b (runLog rt options calls) := h.clean.follows

/-- Every line is fresh or a duplicate. -/
theorem Ends.duplicates {rt : Runtime} {options : ValidateOptions} {calls : List FeedCall} {b : Books}
    (h : Ends rt options calls b) :
    b.duplicates + (runLog rt options calls).length = (allLines rt options calls).length := by
  rw [runLog, logOf, List.length_map]
  exact h.clean.duplicates

theorem presence_errorFree {fs : FileSystem} {options : ValidateOptions} {b : Books} {l : Log}
    (h : Follows options b l) :
    ErrorFree (match options.attachmentsDir with
      | none => []
      | some dir => checkAttachments fs dir b.attachments) ↔
      AttachmentsPresent fs options (l.filterMap AnyEvent.attachment) := by
  rw [AttachmentsPresent, ← h.tracks.counts.attachments]
  cases options.attachmentsDir with
  | none => simp [errorFree_nil]
  | some dir =>
      rw [checkAttachments_errorFree]
      simp

theorem finishDiagnostics_errorFree {fs : FileSystem} {options : ValidateOptions} {b : Books}
    {l : Log} (h : Follows options b l) :
    ErrorFree (finishDiagnostics fs options b) ↔
      ((∃ e ∈ l, e.isRunFinished = true) → ∀ s ∈ l.sessions, s ∈ l.finishedSessions) ∧
      AttachmentsPresent fs options (l.filterMap AnyEvent.attachment) ∧
      (options.requireComplete = true → Complete l) := by
  rw [finishDiagnostics, errorFree_append, errorFree_append, checkRunEnd_errorFree h, and_assoc]
  refine and_congr_right (fun _ => and_congr (presence_errorFree h) ?_)
  rw [← isComplete_iff h]
  cases isComplete b <;> cases options.requireComplete <;> simp [check, ErrorFree]

/-- The validator decides validity. -/
theorem valid_iff (rt : Runtime) (fs : FileSystem) (options : ValidateOptions)
    (calls : List FeedCall) :
    (reportOf rt fs options calls).valid = true ↔ ValidRun rt fs options calls := by
  obtain ⟨h1, h2⟩ := feedAll_spec rt options calls
  simp only [reportOf, finish, decide_eq_true_eq, errorFree_append]
  by_cases hfree : ErrorFree (feedAll rt options calls).diagnostics
  · obtain ⟨g1, g2, g3, g4⟩ := h1.mp hfree
    rw [finishDiagnostics_errorFree (h2 hfree).1.follows]
    exact ⟨fun h => ⟨g1, g2, g3, g4, h.2.1, h.2.2.1, h.2.2.2⟩,
      fun h => ⟨hfree, h.runEnd, h.attachments, h.complete⟩⟩
  · exact iff_of_false (fun h => hfree h.1)
      (fun h => hfree (h1.mpr ⟨h.read, h.consistent, h.lifecycle, h.files⟩))

theorem ValidRun.ends {rt : Runtime} {fs : FileSystem} {options : ValidateOptions}
    {calls : List FeedCall} (h : ValidRun rt fs options calls) :
    Ends rt options calls (feedAll rt options calls).books := by
  obtain ⟨h1, h2⟩ := feedAll_spec rt options calls
  obtain ⟨c1, c2⟩ := h2 (h1.mpr ⟨h.read, h.consistent, h.lifecycle, h.files⟩)
  exact ⟨c1, c2⟩

/-! ### Run directories -/

/-- The call that an entry of the events directory is fed with. -/
def EventFile.call? : EventFile → Option FeedCall
  | .fed call => some call
  | _ => none

/-- The calls that validate a run directory. -/
def directoryCalls (fs : FileSystem) (dir : Text) : List FeedCall :=
  (eventFiles fs (joinPath dir (txt "events"))).filterMap (fun f => (readEventFile fs f).call?)

theorem readEventFile_refused {fs : FileSystem} {file : Text} {d : Diagnostic}
    (h : readEventFile fs file = .refused d) : d.severity = .error := by
  unfold readEventFile at h
  split at h
  · cases h
  · cases h
    rfl
  · cases h
    rfl
  · cases h
    rfl
  · split at h
    · cases h
    · cases h
      rfl
    · cases h

/-- Without an error every entry was fed or gone. -/
theorem feedEventFiles_eq {rt : Runtime} {options : ValidateOptions} {fs : FileSystem}
    {files : List Text}
    (h : ErrorFree (files.foldl (feedEventFile rt options fs) RunValidator.start).diagnostics) :
    files.foldl (feedEventFile rt options fs) RunValidator.start =
      feedAll rt options (files.filterMap (fun f => (readEventFile fs f).call?)) := by
  induction files using List.reverseRecOn with
  | nil => rfl
  | append_singleton files f ih =>
      rw [List.foldl_append, List.foldl_cons, List.foldl_nil, feedEventFile] at h ⊢
      rw [List.filterMap_append]
      cases hf : readEventFile fs f with
      | fed call =>
          have hcall : [f].filterMap (fun f => (readEventFile fs f).call?) = [call] := by
            simp [hf, EventFile.call?]
          simp only [hf] at h ⊢
          rw [ih (errorFree_append.mp h).1, hcall]
          simp [feedAll]
      | refused d =>
          simp only [hf] at h
          exact absurd (readEventFile_refused hf) ((errorFree_append.mp h).2 d (by simp))
      | gone =>
          simp only [hf] at h ⊢
          rw [ih h, List.filterMap_cons_none (by simp [hf, EventFile.call?]), List.filterMap_nil,
            List.append_nil]

/-- A valid run directory is a sequence of calls. -/
theorem snapshot_of_directory {rt : Runtime} {fs : FileSystem} {dir : Text}
    {options : ValidateOptions} {run : ValidatedRun}
    (h : validateRunDirectorySnapshot rt fs dir options = some run)
    (hvalid : run.report.valid = true) :
    run = snapshotOf rt fs (directoryOptions fs dir options) (directoryCalls fs dir) := by
  have hrefused : ∀ kind, ¬ ErrorFree [refuseEntry (joinPath dir (txt "events")) kind true] :=
    fun kind hfree => hfree _ List.mem_cons_self rfl
  unfold validateRunDirectorySnapshot at h
  dsimp only at h
  split at h
  · cases h
  · obtain rfl := Option.some.inj h
    simp only [finish, decide_eq_true_eq, errorFree_append] at hvalid
    rw [feedEventFiles_eq hvalid.1]
    rfl
  · obtain rfl := Option.some.inj h
    simp only [finish, decide_eq_true_eq, errorFree_append] at hvalid
    exact absurd hvalid.1 (hrefused _)

end QeReport

import QeReport.Validator.Sessions
import QeReport.Validator.Verdict

/-! # Files and their order

When every session has a file of its own and attempts stay in their sessions, the order of the
files does not matter (`files_independent`), and a crash that cuts files short leaves a valid run
(`prefixes_valid`).  Both rest on the decomposition of the guard by sessions: an event id occurs
in one file only, so the log is the files one after the other, and a session is a part of one
file. -/

namespace QeReport

open GuardedLog

/-! ### Sessions in files of their own -/

/-- No session has lines in both files. -/
def SessionsApart (rt : Runtime) (options : ValidateOptions) (c d : FeedCall) : Prop :=
  ∀ x ∈ callLines rt options c, ∀ y ∈ callLines rt options d, x.event.session ≠ y.event.session

section apart
variable {rt : Runtime} {options : ValidateOptions} {calls : List FeedCall}

theorem SessionsApart.symm {c d : FeedCall} (h : SessionsApart rt options c d) :
    SessionsApart rt options d c :=
  fun x hx y hy heq => h y hy x hx heq.symm

theorem mem_callLines {c : FeedCall} {x : Line} (h : x ∈ callLines rt options c) :
    reading rt (eventLimit options) x.raw = some x.toReading :=
  (mem_linesOf h).2.2

theorem mem_allLines {x : Line} :
    x ∈ allLines rt options calls ↔ ∃ c ∈ calls, x ∈ callLines rt options c :=
  List.mem_flatMap

/-- The log is the logs of the files one after the other. -/
theorem runLog_of_apart (hapart : calls.Pairwise (SessionsApart rt options))
    (hcons : Consistent (allLines rt options calls)) :
    runLog rt options calls = calls.flatMap (fun c => logOf (callLines rt options c)) := by
  induction calls using List.reverseRecOn with
  | nil => rfl
  | append_singleton calls c ih =>
      obtain ⟨hcalls, -, hc⟩ := List.pairwise_append.mp hapart
      rw [allLines_concat] at hcons
      have hdisjoint : ∀ x ∈ allLines rt options calls, ∀ y ∈ callLines rt options c,
          x.eventId ≠ y.eventId := by
        intro x hx y hy hid
        obtain ⟨d, hd, hxd⟩ := mem_allLines.mp hx
        have hkey := hcons x (List.mem_append_left _ hx) y (List.mem_append_right _ hy) hid
        exact hc d hd c (by simp) x hxd y hy
          (session_of_key (mem_callLines hxd) (mem_callLines hy) hkey).1
      have hlog := ih hcalls hcons.initial
      rw [runLog] at hlog ⊢
      rw [allLines_concat, logOf_append, eventsAfter, freshAfter_of_disjoint hdisjoint, hlog]
      simp [logOf, freshLines]

/-- The fresh events of a file do not depend on the files before it. -/
theorem callEvents_of_apart {before : List FeedCall} {c : FeedCall}
    (hapart : (before ++ [c]).Pairwise (SessionsApart rt options))
    (hcons : Consistent (allLines rt options (before ++ [c]))) :
    callEvents rt options before c = logOf (callLines rt options c) := by
  have h1 := runLog_of_apart hapart hcons
  have h2 := runLog_of_apart (List.pairwise_append.mp hapart).1
    ((allLines_concat rt options before c ▸ hcons).initial)
  rw [runLog, allLines_concat, logOf_append, List.flatMap_append, ← h2, List.flatMap_singleton] at h1
  exact List.append_cancel_left h1

theorem filesAdmit_of_apart (hapart : calls.Pairwise (SessionsApart rt options))
    (hcons : Consistent (allLines rt options calls)) :
    FilesAdmit rt options calls ↔
      ∀ c ∈ calls, Admissible (FileGuard c.singleSession) (logOf (callLines rt options c)) := by
  induction calls using List.reverseRecOn with
  | nil => simp [FilesAdmit, admissible_nil]
  | append_singleton calls c ih =>
      have hcalls := (List.pairwise_append.mp hapart).1
      have hinit := (allLines_concat rt options calls c ▸ hcons).initial
      rw [FilesAdmit, admissible_concat, callEvents_of_apart hapart hcons, ← FilesAdmit,
        ih hcalls hinit]
      simp [or_imp, forall_and]

end apart

/-! ### Any order of the files -/

section order
variable {rt : Runtime} {fs : FileSystem} {options : ValidateOptions} {calls calls' : List FeedCall}

theorem logOf_subset {ls : List Line} {e : AnyEvent} (h : e ∈ logOf ls) :
    ∃ x ∈ ls, x.event = e := by
  obtain ⟨x, hx, rfl⟩ := List.mem_map.mp h
  exact ⟨x, (fresh_sublist ls).subset hx, rfl⟩

theorem allLines_perm (hp : calls.Perm calls') :
    (allLines rt options calls).Perm (allLines rt options calls') := hp.flatMap_right _

theorem Consistent.perm {ls ls' : List Line} (h : Consistent ls) (hp : ls.Perm ls') :
    Consistent ls' :=
  fun x hx y hy => h x (hp.mem_iff.mpr hx) y (hp.mem_iff.mpr hy)

theorem apart_perm (hp : calls.Perm calls') (hapart : calls.Pairwise (SessionsApart rt options)) :
    calls'.Pairwise (SessionsApart rt options) :=
  (hp.pairwise_iff (fun {_ _} h => h.symm)).mp hapart

/-- The log in another order of the files: the same events, each session as before. -/
theorem runLog_perm (hp : calls.Perm calls') (hapart : calls.Pairwise (SessionsApart rt options))
    (hcons : Consistent (allLines rt options calls)) :
    (runLog rt options calls).Perm (runLog rt options calls') ∧
      ∀ s, (runLog rt options calls).ofSession s = (runLog rt options calls').ofSession s := by
  rw [runLog_of_apart hapart hcons,
    runLog_of_apart (apart_perm hp hapart) (hcons.perm (allLines_perm hp))]
  refine ⟨hp.flatMap_right _, fun s => ofClass_flatMap_perm hp (hapart.imp ?_) s⟩
  intro c d hcd x hx y hy
  obtain ⟨x', hx', rfl⟩ := logOf_subset hx
  obtain ⟨y', hy', rfl⟩ := logOf_subset hy
  exact hcd x' hx' y' hy'

theorem sameSession_pairwise {rn : Text → Option Text} {l : Log} (h : Admissible (Guard rn) l)
    (hlocal : AttemptsLocal l) : l.Pairwise SameSession := by
  rw [List.pairwise_iff_forall_sublist]
  intro x y hxy
  exact sameSession_of_local h hlocal (hxy.subset (by simp)) (hxy.subset (by simp))

/-- A log that kept the rules keeps them under another interleaving of its sessions. -/
theorem lifecycle_perm {l l' : Log} (h : Lifecycle l) (hlocal : AttemptsLocal l) (hp : l.Perm l')
    (hs : ∀ s, l.ofSession s = l'.ofSession s) : Lifecycle l' := by
  have hrn : l'.runnerName = l.runnerName := funext (fun s => Log.runnerName_congr (hs s).symm)
  rw [Lifecycle, hrn]
  exact admissible_of_classes_eq (guard_decomposes _) (fun _ _ hr => hr.symm) (fun _ _ hx => hx.symm)
    hp hs (sameSession_pairwise h hlocal) h

theorem ValidRun.perm (h : ValidRun rt fs options calls) (hp : calls.Perm calls')
    (hapart : calls.Pairwise (SessionsApart rt options))
    (hlocal : AttemptsLocal (runLog rt options calls)) : ValidRun rt fs options calls' := by
  obtain ⟨hlog, hsess⟩ := runLog_perm hp hapart h.consistent
  have hkeys : ∀ {β : Type} (f : AnyEvent → Option β) (b : β),
      b ∈ (runLog rt options calls').filterMap f ↔ b ∈ (runLog rt options calls).filterMap f :=
    fun f b => (hlog.filterMap f).mem_iff.symm
  have hsessions : ∀ s, s ∈ (runLog rt options calls').sessions ↔
      s ∈ (runLog rt options calls).sessions := fun s => (hlog.map _).mem_iff.symm
  have hcons := h.consistent.perm (allLines_perm hp)
  constructor
  · exact fun c hc => h.read c (hp.mem_iff.mpr hc)
  · exact hcons
  · exact lifecycle_perm h.lifecycle hlocal hlog hsess
  · rw [filesAdmit_of_apart (apart_perm hp hapart) hcons]
    exact fun c hc => (filesAdmit_of_apart hapart h.consistent).mp h.files c (hp.mem_iff.mpr hc)
  · rintro ⟨e, he, hrun⟩ s hs
    exact (hkeys _ s).mpr (h.runEnd ⟨e, hlog.mem_iff.mpr he, hrun⟩ s ((hsessions s).mp hs))
  · exact fun dir hdir a ha => h.attachments dir hdir a ((hkeys _ a).mp ha)
  · intro hreq
    obtain ⟨c1, c2, c3⟩ := h.complete hreq
    exact ⟨fun s hs => (hkeys _ s).mpr (c1 s ((hsessions s).mp hs)),
      fun a ha => (hkeys _ a).mpr (c2 a ((hkeys _ a).mp ha)),
      fun s hs => (hkeys _ s).mpr (c3 s ((hkeys _ s).mp hs))⟩

end order

/-- Files are independent: the order of feeding them changes neither the validity of the run nor,
when it is valid, its summary and its accepted events. -/
theorem files_independent (rt : Runtime) (fs : FileSystem) (options : ValidateOptions)
    (calls calls' : List FeedCall) (hp : calls.Perm calls')
    (hapart : calls.Pairwise (SessionsApart rt options))
    (hlocal : AttemptsLocal ((allLines rt options calls).map (fun x => x.event))) :
    (reportOf rt fs options calls).valid = (reportOf rt fs options calls').valid ∧
    ((reportOf rt fs options calls).valid = true →
      (reportOf rt fs options calls).summary = (reportOf rt fs options calls').summary ∧
      ∀ e, e ∈ acceptedEvents rt options calls ↔ e ∈ acceptedEvents rt options calls') := by
  have hsub : ∀ {cs}, cs.Perm calls → AttemptsLocal (runLog rt options cs) := by
    intro cs hcs x hx y hy a hxa hya
    obtain ⟨x', hx', rfl⟩ := logOf_subset hx
    obtain ⟨y', hy', rfl⟩ := logOf_subset hy
    exact hlocal _ (List.mem_map_of_mem ((allLines_perm hcs).mem_iff.mp hx'))
      _ (List.mem_map_of_mem ((allLines_perm hcs).mem_iff.mp hy')) a hxa hya
  have hiff : ValidRun rt fs options calls ↔ ValidRun rt fs options calls' :=
    ⟨fun h => h.perm hp hapart (hsub (List.Perm.refl _)),
      fun h => h.perm hp.symm (apart_perm hp hapart) (hsub hp.symm)⟩
  refine ⟨?_, fun hvalid => ?_⟩
  · rw [Bool.eq_iff_iff, valid_iff, valid_iff, hiff]
  · have h := (valid_iff rt fs options calls).mp hvalid
    have h' := hiff.mp h
    obtain ⟨hlog, -⟩ := runLog_perm hp hapart h.consistent
    constructor
    · have hdup := h.ends.duplicates
      have hdup' := h'.ends.duplicates
      rw [← hlog.length_eq, ← (allLines_perm hp).length_eq] at hdup'
      refine (summaryOf_perm h'.ends.follows h.ends.follows (logOf_nodup _) hlog.symm
        (by omega)).trans ?_
      rw [h.ends.files, hp.length_eq, ← h'.ends.files]
      rfl
    · intro e
      rw [mem_acceptedEvents h, mem_acceptedEvents h']
      exact hlog.mem_iff

/-! ### Files cut short -/

/-- What is left of a file: some of its first lines. -/
structure CutOf (k c : FeedCall) : Prop where
  lines : k.lines <+: c.lines
  file : k.file = c.file
  singleSession : k.singleSession = c.singleSession

section cuts
variable {rt : Runtime} {fs : FileSystem} {options : ValidateOptions} {cuts calls : List FeedCall}

theorem linesOf_append (limit : ℕ) (file : Text) (n : ℕ) (a b : List Text) :
    linesOf rt limit file n (a ++ b) =
      linesOf rt limit file n a ++ linesOf rt limit file (n + a.length) b := by
  induction a generalizing n with
  | nil => rfl
  | cons raw a ih =>
      have hlen : n + 1 + a.length = n + (raw :: a).length := by
        rw [List.length_cons]
        omega
      rw [List.cons_append, linesOf, linesOf, ih, hlen]
      split_ifs
      · rfl
      · cases reading rt limit raw <;> rfl

theorem CutOf.callLines {k c : FeedCall} (h : CutOf k c) :
    callLines rt options k <+: callLines rt options c := by
  obtain ⟨t, ht⟩ := h.lines
  rw [QeReport.callLines, QeReport.callLines, ← ht, linesOf_append, h.file]
  exact List.prefix_append _ _

theorem logOf_initial {a b : List Line} (h : a <+: b) : logOf a <+: logOf b := by
  obtain ⟨t, rfl⟩ := h
  rw [logOf_append]
  exact List.prefix_append _ _

theorem exists_cutOf (h : List.Forall₂ CutOf cuts calls) {k : FeedCall} (hk : k ∈ cuts) :
    ∃ c ∈ calls, CutOf k c := by
  induction h with
  | nil => cases hk
  | cons hab _ ih =>
      rcases List.mem_cons.mp hk with rfl | hk
      · exact ⟨_, List.mem_cons_self, hab⟩
      · obtain ⟨c, hc, hkc⟩ := ih hk
        exact ⟨c, List.mem_cons_of_mem _ hc, hkc⟩

theorem mem_of_cuts (h : List.Forall₂ CutOf cuts calls) {x : Line}
    (hx : x ∈ allLines rt options cuts) : x ∈ allLines rt options calls := by
  obtain ⟨k, hk, hxk⟩ := mem_allLines.mp hx
  obtain ⟨c, hc, hkc⟩ := exists_cutOf h hk
  exact mem_allLines.mpr ⟨c, hc, hkc.callLines.subset hxk⟩

theorem apart_of_cuts (h : List.Forall₂ CutOf cuts calls)
    (hapart : calls.Pairwise (SessionsApart rt options)) :
    cuts.Pairwise (SessionsApart rt options) := by
  induction h with
  | nil => exact List.Pairwise.nil
  | cons hab htail ih =>
      obtain ⟨hhead, hrest⟩ := List.pairwise_cons.mp hapart
      refine List.pairwise_cons.mpr ⟨fun k hk x hx y hy => ?_, ih hrest⟩
      obtain ⟨c, hc, hkc⟩ := exists_cutOf htail hk
      exact hhead c hc x (hab.callLines.subset hx) y (hkc.callLines.subset hy)

/-- Cutting the files cuts every session of the log. -/
theorem runLog_of_cuts (h : List.Forall₂ CutOf cuts calls)
    (hapart : calls.Pairwise (SessionsApart rt options))
    (hcons : Consistent (allLines rt options calls)) :
    (runLog rt options cuts).Sublist (runLog rt options calls) ∧
      ∀ s, (runLog rt options cuts).ofSession s <+: (runLog rt options calls).ofSession s := by
  have hcons' : Consistent (allLines rt options cuts) :=
    fun x hx y hy => hcons x (mem_of_cuts h hx) y (mem_of_cuts h hy)
  have hlogs : List.Forall₂ (fun k c => logOf (callLines rt options k) <+:
      logOf (callLines rt options c)) cuts calls :=
    h.imp (fun k c hkc => logOf_initial hkc.callLines)
  rw [runLog_of_apart hapart hcons, runLog_of_apart (apart_of_cuts h hapart) hcons']
  refine ⟨?_, fun s => ofClass_flatMap_initial hlogs (hapart.imp ?_) s⟩
  · clear hcons hcons' hapart h
    induction hlogs with
    | nil => exact List.Sublist.slnil
    | cons hab _ ih =>
        rw [List.flatMap_cons, List.flatMap_cons]
        exact hab.sublist.append ih
  · intro c d hcd x hx y hy
    obtain ⟨x', hx', rfl⟩ := logOf_subset hx
    obtain ⟨y', hy', rfl⟩ := logOf_subset hy
    exact hcd x' hx' y' hy'

theorem lifecycle_of_cuts {l l' : Log} (h : Lifecycle l) (hlocal : AttemptsLocal l)
    (hsub : l'.Sublist l) (hs : ∀ s, l'.ofSession s <+: l.ofSession s) : Lifecycle l' := by
  have hadm : Admissible (Guard l.runnerName) l' :=
    admissible_of_classes_initial (guard_decomposes _) hsub hs (sameSession_pairwise h hlocal) h
  refine admissible_congr hadm (fun s hmem => ?_)
  exact Log.runnerName_of_initial (hs s) (session_started hadm hmem)

theorem ValidRun.cut (h : ValidRun rt fs options calls) (hcut : List.Forall₂ CutOf cuts calls)
    (hapart : calls.Pairwise (SessionsApart rt options))
    (hlocal : AttemptsLocal (runLog rt options calls)) (hreq : options.requireComplete = false)
    (hdir : options.attachmentsDir = none)
    (hrun : cuts ≠ calls → ∀ x ∈ runLog rt options cuts, x.isRunFinished = false) :
    ValidRun rt fs options cuts := by
  obtain ⟨hsub, hsess⟩ := runLog_of_cuts hcut hapart h.consistent
  have hcons : Consistent (allLines rt options cuts) :=
    fun x hx y hy => h.consistent x (mem_of_cuts hcut hx) y (mem_of_cuts hcut hy)
  constructor
  · intro k hk raw hraw
    obtain ⟨c, hc, hkc⟩ := exists_cutOf hcut hk
    exact h.read c hc raw (hkc.lines.subset hraw)
  · exact hcons
  · exact lifecycle_of_cuts h.lifecycle hlocal hsub hsess
  · rw [filesAdmit_of_apart (apart_of_cuts hcut hapart) hcons]
    intro k hk
    obtain ⟨c, hc, hkc⟩ := exists_cutOf hcut hk
    rw [hkc.singleSession]
    exact ((filesAdmit_of_apart hapart h.consistent).mp h.files c hc).initial
      (logOf_initial hkc.callLines)
  · rintro ⟨e, he, hfin⟩
    have hsame : cuts = calls := by
      by_contra hne
      rw [hrun hne e he] at hfin
      cases hfin
    subst hsame
    exact h.runEnd ⟨e, he, hfin⟩
  · intro dir hd
    rw [hdir] at hd
    cases hd
  · intro hr
    rw [hreq] at hr
    cases hr

end cuts

/-- A crash leaves a valid run: whatever first lines of its files are left, without run.finished
once something is missing, the run is valid, and it is incomplete exactly when something that
a line left of it started has no end in these lines. -/
theorem prefixes_valid (rt : Runtime) (fs : FileSystem) (options : ValidateOptions)
    (cuts calls : List FeedCall) (hcut : List.Forall₂ CutOf cuts calls)
    (hapart : calls.Pairwise (SessionsApart rt options))
    (hlocal : AttemptsLocal ((allLines rt options calls).map (fun x => x.event)))
    (hreq : options.requireComplete = false) (hdir : options.attachmentsDir = none)
    (hrun : cuts ≠ calls → ∀ x ∈ allLines rt options cuts, x.event.isRunFinished = false)
    (hvalid : (reportOf rt fs options calls).valid = true) :
    (reportOf rt fs options cuts).valid = true ∧
    ((reportOf rt fs options cuts).summary.complete = true ↔
      Derivation.NothingOpen ((runLog rt options cuts).filterMap AnyEvent.known?).toFinset) ∧
    ((reportOf rt fs options cuts).summary.complete = false →
      (reportOf rt fs options cuts).summary.verdict = .incomplete) := by
  classical
  have h := (valid_iff rt fs options calls).mp hvalid
  have hcutValid : ValidRun rt fs options cuts := by
    refine h.cut hcut hapart ?_ hreq hdir ?_
    · intro x hx y hy a hxa hya
      obtain ⟨x', hx', rfl⟩ := logOf_subset hx
      obtain ⟨y', hy', rfl⟩ := logOf_subset hy
      exact hlocal _ (List.mem_map_of_mem hx') _ (List.mem_map_of_mem hy') a hxa hya
    · intro hne x hx
      obtain ⟨x', hx', rfl⟩ := logOf_subset hx
      exact hrun hne x' hx'
  have hcomplete : (reportOf rt fs options cuts).summary.complete = true ↔
      Derivation.NothingOpen ((runLog rt options cuts).filterMap AnyEvent.known?).toFinset := by
    rw [← acceptedEvents_eq hcutValid]
    have hfact := congrArg RunFacts.complete (summary_facts hcutValid)
    simp only [Summary.facts, derive] at hfact
    rw [hfact]
    exact decide_eq_true_iff
  refine ⟨(valid_iff rt fs options cuts).mpr hcutValid, hcomplete, fun hopen => ?_⟩
  have hverdict := congrArg RunFacts.verdict (summary_facts hcutValid)
  rw [← Bool.not_eq_true, hcomplete, ← acceptedEvents_eq hcutValid] at hopen
  simpa only [Summary.facts, derive, if_pos hopen] using hverdict

instance (rt : Runtime) (options : ValidateOptions) : DecidableRel (SessionsApart rt options) :=
  fun c d => inferInstanceAs (Decidable (∀ x ∈ callLines rt options c,
    ∀ y ∈ callLines rt options d, x.event.session ≠ y.event.session))

theorem files_independent_forked :
    (reportOf Sample.runtime Sample.noFiles Sample.options Sample.forked).valid =
      (reportOf Sample.runtime Sample.noFiles Sample.options Sample.forked.reverse).valid := by
  obtain ⟨hapart, hlocal⟩ : Sample.forked.Pairwise (SessionsApart Sample.runtime Sample.options) ∧
      AttemptsLocal ((allLines Sample.runtime Sample.options Sample.forked).map
        (fun x => x.event)) := by
    decide +kernel
  exact (files_independent Sample.runtime Sample.noFiles Sample.options Sample.forked
    Sample.forked.reverse (List.reverse_perm _).symm hapart hlocal).1

/-- The second session ended in the middle of its attempt. -/
def Sample.crashed : List FeedCall :=
  Sample.forked.map (fun c => { c with lines := c.lines.take (if c.file = txt "b" then 2 else 4) })

theorem prefixes_valid_crashed :
    (reportOf Sample.runtime Sample.noFiles Sample.options Sample.crashed).valid = true := by
  obtain ⟨hapart, hlocal, hrun, hvalid⟩ :
      Sample.forked.Pairwise (SessionsApart Sample.runtime Sample.options) ∧
        AttemptsLocal ((allLines Sample.runtime Sample.options Sample.forked).map
          (fun x => x.event)) ∧
        (∀ x ∈ allLines Sample.runtime Sample.options Sample.crashed,
          x.event.isRunFinished = false) ∧
        (reportOf Sample.runtime Sample.noFiles Sample.options Sample.forked).valid = true := by
    decide +kernel
  refine (prefixes_valid Sample.runtime Sample.noFiles Sample.options Sample.crashed Sample.forked ?_
    hapart hlocal rfl rfl (fun _ => hrun) hvalid).1
  exact List.forall₂_map_left_iff.mpr
    (List.forall₂_same.mpr (fun c _ => ⟨List.take_prefix _ _, rfl, rfl⟩))

end QeReport

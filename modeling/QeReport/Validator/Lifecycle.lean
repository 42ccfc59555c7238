import QeReport.Validator.Sessions
import QeReport.Validator.Validity

/-! # The lifecycle of a valid run

`LifecycleLaw` is the lifecycle the protocol asks of a run as a whole, over its events and their
sequences.  The validator keeps the attempts of a run in one map, whatever their session, and
forgets at the end of a file that it saw run.finished, so a valid run obeys the law exactly when
its attempts stay in their sessions and nothing is fed later to the session of run.finished. -/

namespace QeReport

open GuardedLog

/-! ### The law -/

/-- A session is numbered from one and opened by its only session.started. -/
structure SessionOrder (l : Log) : Prop where
  sequences : ∀ s, (l.ofSession s).map AnyEvent.sequence = List.range' 1 (l.ofSession s).length
  first : ∀ x ∈ l, x.isSessionStarted = true ↔ x.sequence = 1

/-- After the session.finished of a session only run.finished can come in it. -/
def SessionEnd (l : Log) : Prop :=
  ∀ x ∈ l, ∀ y ∈ l, x.endsSession = some y.session → x.sequence < y.sequence →
    y.isRunFinished = true

/-- One run.finished, after everything else. -/
structure RunEnd (l : Log) : Prop where
  unique : ∀ x ∈ l, ∀ y ∈ l, x.isRunFinished = true → y.isRunFinished = true → x = y
  sessions : ∀ x ∈ l, x.isRunFinished = true → ∀ s ∈ l.sessions, s ∈ l.finishedSessions
  last : ∀ x ∈ l, x.isRunFinished = true → ∀ y ∈ l, y.session = x.session →
    y.sequence ≤ x.sequence

/-- The events of an attempt in one session, between its start and its end. -/
structure AttemptOrder (l : Log) : Prop where
  started : ∀ y ∈ l, ∀ a, y.namesAttempt = some a → a ∈ l.attempts
  first : ∀ x ∈ l, ∀ y ∈ l, ∀ a, x.startsAttempt = some a → y.namesAttempt = some a →
    x.session = y.session ∧ x.sequence < y.sequence
  finishedOnce : ∀ x ∈ l, ∀ y ∈ l, ∀ a, x.endsAttempt = some a → y.endsAttempt = some a → x = y
  last : ∀ x ∈ l, ∀ y ∈ l, ∀ a, x.endsAttempt = some a → y.namesAttempt = some a →
    y.sequence ≤ x.sequence
  stepStarted : ∀ y ∈ l, ∀ s, y.endsStep = some s → s ∈ l.steps
  stepOrder : ∀ x ∈ l, ∀ y ∈ l, ∀ s, x.startsStep = some s → y.endsStep = some s →
    x.sequence < y.sequence
  stepsFinished : ∀ x ∈ l, ∀ a, x.endsAttempt = some a → ∀ s, (a, s) ∈ l.steps →
    ∃ y ∈ l, y.endsStep = some (a, s) ∧ y.sequence < x.sequence

/-- A finished session leaves no attempt of its own open. -/
def SessionClosed (l : Log) : Prop :=
  ∀ x ∈ l, ∀ a, x.startsAttempt = some a → x.session ∈ l.finishedSessions → a ∈ l.finishedAttempts

/-- The lifecycle of a run. -/
structure LifecycleLaw (l : Log) : Prop where
  order : SessionOrder l
  sessionEnd : SessionEnd l
  runEnd : RunEnd l
  attempts : AttemptOrder l
  closed : SessionClosed l

/-! ### What the guard gives -/

section guarded
variable {rn : Text → Option Text} {l : Log} (h : Admissible (Guard rn) l)
include h

theorem sessionOrder : SessionOrder l where
  sequences := sequence_ofSession h
  first := by
    intro x hx
    obtain ⟨p, s, rfl, hg⟩ := h.of_mem hx
    rw [hg.opens, hg.sequence, Nat.add_eq_right, List.length_eq_zero_iff]
    constructor
    · exact ofSession_of_not_mem
    · intro hnil hmem
      obtain ⟨y, hy, hys⟩ := List.mem_map.mp hmem
      have : y ∈ Log.ofSession x.session p := mem_ofClass.mpr ⟨hy, hys⟩
      rw [hnil] at this
      cases this

theorem session_end : SessionEnd l := by
  intro x hx y hy hend hlt
  obtain ⟨p, s, rfl, hg⟩ := h.of_mem hy
  have hxp := mem_of_sequence_lt h hx (AnyEvent.endsSession_eq_some.mp hend).2 hlt
  exact hg.unfinished (List.mem_filterMap.mpr ⟨x, hxp, hend⟩)

theorem runFinished_unique {x y : AnyEvent} (hx : x ∈ l) (hy : y ∈ l) (hxr : x.isRunFinished = true)
    (hyr : y.isRunFinished = true) : x = y := by
  let key : AnyEvent → Option Unit := fun e => if e.isRunFinished then some () else none
  have hkeys : (l.filterMap key).Nodup := by
    refine h.nodup_keys (fun p e u hg hk hmem => ?_)
    rw [Option.ite_none_right_eq_some] at hk
    obtain ⟨z, hz, hzk⟩ := List.mem_filterMap.mp hmem
    rw [Option.ite_none_right_eq_some] at hzk
    have hpay := hg.payload
    rw [PayloadGuard, AnyEvent.isRunFinished_iff.mp hk.1] at hpay
    rw [hpay z hz] at hzk
    cases hzk.1
  exact eq_of_nodup_keys (b := ()) hkeys hx hy (if_pos hxr) (if_pos hyr)

/-- The steps of a finished attempt are finished. -/
theorem steps_of_finished {a s : Text} (ha : a ∈ l.finishedAttempts) (hs : (a, s) ∈ l.steps) :
    (a, s) ∈ l.finishedSteps := by
  induction l using List.reverseRecOn with
  | nil => cases ha
  | append_singleton l e ih =>
      obtain ⟨hl, hg⟩ := admissible_concat.mp h
      have hpay := hg.payload
      rw [Log.mem_finishedAttempts_concat] at ha
      rw [Log.mem_steps_concat] at hs
      rw [Log.mem_finishedSteps_concat]
      rcases ha with ha | ha
      · rcases hs with hs | hs
        · exact Or.inl (ih hl ha hs)
        · obtain ⟨q, hq, hqs⟩ := AnyEvent.startsStep_eq_some.mp hs
          obtain ⟨rfl, rfl⟩ := Prod.mk.inj hqs
          rw [PayloadGuard, hq] at hpay
          exact absurd ha hpay.2.1
      · obtain ⟨q, hq, rfl⟩ := AnyEvent.endsAttempt_eq_some.mp ha
        rw [PayloadGuard, hq] at hpay
        rcases hs with hs | hs
        · exact Or.inl (hpay.2.2 s hs)
        · obtain ⟨r, hr, -⟩ := AnyEvent.startsStep_eq_some.mp hs
          rw [hq] at hr
          cases hr

/-- No event names an attempt after its attempt.finished. -/
theorem not_finished_of_names {p s : Log} {y : AnyEvent} (hl : l = p ++ y :: s) {a : Text}
    (hy : y.namesAttempt = some a) : a ∉ p.finishedAttempts := by
  subst hl
  have hp := (admissible_append.mp h).1
  have hpay := (h p y s rfl).payload
  intro ha
  unfold AnyEvent.namesAttempt at hy
  unfold PayloadGuard at hpay
  split at hy
  case h_5 => cases hy
  all_goals
    rename_i q hq
    cases hy
    rw [hq] at hpay
  case h_3 => exact hpay.2 (steps_of_finished hp ha hpay.1)
  all_goals exact hpay.2.1 ha

theorem mem_of_endsAttempt {p s : Log} {x y : AnyEvent} (hl : l = p ++ x :: s) {a : Text}
    (hx : x.endsAttempt = some a) (hy : y ∈ l) (hya : y.namesAttempt = some a) : y ∈ p ∨ y = x := by
  rcases List.mem_append.mp (hl ▸ hy) with hp | hr
  · exact Or.inl hp
  · rcases List.mem_cons.mp hr with rfl | hr
    · exact Or.inr rfl
    · obtain ⟨t, u, rfl⟩ := List.append_of_mem hr
      have hl' : l = (p ++ x :: t) ++ y :: u := by simp [hl]
      refine absurd ?_ (not_finished_of_names h hl' hya)
      exact List.mem_filterMap.mpr ⟨x, by simp, hx⟩

theorem session_closed : SessionClosed l := by
  intro x hx a ha hend
  obtain ⟨f, hf, hfs⟩ := List.mem_filterMap.mp hend
  obtain ⟨⟨q, hq⟩, hsess⟩ := AnyEvent.endsSession_eq_some.mp hfs
  obtain ⟨p, s, rfl, hg⟩ := h.of_mem hf
  have hnot : x.isRunFinished = false ∧ x ≠ f := by
    obtain ⟨r, hr, -⟩ := AnyEvent.startsAttempt_eq_some.mp ha
    refine ⟨by simp [AnyEvent.isRunFinished, hr], ?_⟩
    rintro rfl
    rw [hq] at hr
    cases hr
  have hxp : x ∈ p := by
    refine mem_of_sequence_lt h hx hsess.symm ?_
    by_contra hge
    have hlt : f.sequence < x.sequence := by
      rcases Nat.lt_or_ge f.sequence x.sequence with hlt | hle
      · exact hlt
      · exact absurd (eq_of_sequence h hx hf hsess.symm (by omega)) hnot.2
    have := session_end h f hf x hx hfs hlt
    rw [hnot.1] at this
    cases this
  have hpay := hg.payload
  rw [PayloadGuard, hq] at hpay
  exact filterMap_subset_of_append _ (hpay x hxp hsess.symm a ha)

/-- An event about an attempt that comes first has the lower sequence, when attempts stay in
their sessions. -/
theorem sequence_lt_of_local (hl : AttemptsLocal l) {p s : Log} {x y : AnyEvent}
    (hs : l = p ++ y :: s) (hx : x ∈ p) {a : Text} (hxa : x.attempt? = some a)
    (hya : y.attempt? = some a) : x.session = y.session ∧ x.sequence < y.sequence := by
  subst hs
  have hsame := sameSession_of_local h hl (List.mem_append_left _ hx) (by simp : y ∈ p ++ y :: s) a
    hxa hya
  exact ⟨hsame, sequence_lt h hx hsame⟩

theorem attemptOrder (hl : AttemptsLocal l) : AttemptOrder l where
  started := by
    intro y hy a ha
    obtain ⟨p, s, rfl, hg⟩ := h.of_mem hy
    exact filterMap_subset_of_append _ (attempt_of_names (admissible_append.mp h).1 hg ha)
  first := by
    intro x hx y hy a hxa hya
    obtain ⟨p, s, hps, hg⟩ := h.of_mem hy
    have hp : Admissible (Guard rn) p := (admissible_append.mp (hps ▸ h)).1
    obtain ⟨w, hw, hwa⟩ := List.mem_filterMap.mp (attempt_of_names hp hg hya)
    have hwl : w ∈ l := hps ▸ List.mem_append_left _ hw
    rw [attempt_unique h hx hwl hxa hwa]
    exact sequence_lt_of_local h hl hps hw (AnyEvent.attempt?_of_starts hwa)
      (AnyEvent.attempt?_of_names hya)
  finishedOnce := by
    intro x hx y hy a hxa hya
    exact eq_of_nodup_keys (finishedAttempts_nodup h) hx hy hxa hya
  last := by
    intro x hx y hy a hxa hya
    obtain ⟨p, s, hps⟩ := List.append_of_mem hx
    have hxn := AnyEvent.namesAttempt_of_endsAttempt hxa
    rcases mem_of_endsAttempt h hps hxa hy hya with hp | rfl
    · exact (sequence_lt_of_local h hl hps hp (AnyEvent.attempt?_of_names hya)
        (AnyEvent.attempt?_of_names hxn)).2.le
    · exact le_rfl
  stepStarted := by
    intro y hy s hs
    exact finishedSteps_subset h (List.mem_filterMap.mpr ⟨y, hy, hs⟩)
  stepOrder := by
    intro x hx y hy s hxs hys
    obtain ⟨p, r, hps, hg⟩ := h.of_mem hy
    obtain ⟨q, hq, rfl⟩ := AnyEvent.endsStep_eq_some.mp hys
    have hpay := hg.payload
    rw [PayloadGuard, hq] at hpay
    obtain ⟨w, hw, hws⟩ := List.mem_filterMap.mp hpay.1
    have hwl : w ∈ l := hps ▸ List.mem_append_left _ hw
    rw [eq_of_nodup_keys (steps_nodup h) hx hwl hxs hws]
    exact (sequence_lt_of_local h hl hps hw
      (AnyEvent.attempt?_of_names (AnyEvent.namesAttempt_of_startsStep hws))
      (AnyEvent.attempt?_of_names (AnyEvent.namesAttempt_of_endsStep hys))).2
  stepsFinished := by
    intro x hx a hxa s hs
    obtain ⟨p, r, hps, hg⟩ := h.of_mem hx
    have hxn := AnyEvent.namesAttempt_of_endsAttempt hxa
    have hdone := steps_of_finished h (List.mem_filterMap.mpr ⟨x, hx, hxa⟩) hs
    obtain ⟨y, hy, hys⟩ := List.mem_filterMap.mp hdone
    have hyn := AnyEvent.namesAttempt_of_endsStep hys
    refine ⟨y, hy, hys, ?_⟩
    rcases mem_of_endsAttempt h hps hxa hy hyn with hp | rfl
    · exact (sequence_lt_of_local h hl hps hp (AnyEvent.attempt?_of_names hyn)
        (AnyEvent.attempt?_of_names hxn)).2
    · obtain ⟨q, hq, -⟩ := AnyEvent.endsAttempt_eq_some.mp hxa
      obtain ⟨q', hq', -⟩ := AnyEvent.endsStep_eq_some.mp hys
      rw [hq] at hq'
      cases hq'

end guarded

/-! ### The condition -/

/-- No event is fed to the session of run.finished in a call after the one that held it. -/
def NothingFedAfterRunFinished (rt : Runtime) (options : ValidateOptions)
    (calls : List FeedCall) : Prop :=
  ∀ before after, calls = before ++ after → ∀ x ∈ runLog rt options before, x.isRunFinished = true →
    ∀ y ∈ eventsAfter (allLines rt options before) (allLines rt options after),
      y.session ≠ x.session

section condition
variable {rt : Runtime} {options : ValidateOptions}

theorem runLog_append (before after : List FeedCall) :
    runLog rt options (before ++ after) =
      runLog rt options before ++
        eventsAfter (allLines rt options before) (allLines rt options after) := by
  rw [runLog, allLines, List.flatMap_append, logOf_append]
  rfl

theorem NothingFedAfterRunFinished.initial {calls : List FeedCall} {c : FeedCall}
    (h : NothingFedAfterRunFinished rt options (calls ++ [c])) :
    NothingFedAfterRunFinished rt options calls := by
  rintro before after rfl x hx hrun y hy
  refine h before (after ++ [c]) (by simp) x hx hrun y ?_
  rw [allLines_concat, eventsAfter, freshAfter_append, List.map_append]
  exact List.mem_append_left _ hy

/-- In the log of a valid run, run.finished is last in its session exactly when no later call
fed that session. -/
theorem runFinished_last_iff {calls : List FeedCall}
    (h : Lifecycle (runLog rt options calls)) (hf : FilesAdmit rt options calls) :
    (∀ x ∈ runLog rt options calls, x.isRunFinished = true → ∀ y ∈ runLog rt options calls,
      y.session = x.session → y.sequence ≤ x.sequence) ↔
    NothingFedAfterRunFinished rt options calls := by
  constructor
  · rintro hlast before after rfl x hx hrun y hy hsess
    rw [runLog_append] at hlast h
    have hle := hlast x (List.mem_append_left _ hx) hrun y (List.mem_append_right _ hy) hsess
    obtain ⟨t, u, htu⟩ := List.append_of_mem hy
    rw [htu, ← List.append_assoc] at h
    have := sequence_lt h (List.mem_append_left _ hx) hsess.symm
    omega
  · induction calls using List.reverseRecOn with
    | nil =>
        intro _ x hx
        cases hx
    | append_singleton calls c ih =>
        intro hcond x hx hrun y hy hsess
        obtain ⟨hf, hfile⟩ := admissible_concat.mp hf
        have hone : eventsAfter (allLines rt options calls) (allLines rt options [c]) =
            callEvents rt options calls c := by
          simp [callEvents, allLines]
        have hcut := hcond calls [c] rfl
        rw [hone] at hcut
        rw [runLog_append, hone] at hx hy h
        by_contra hlt
        rcases List.mem_append.mp hx with hx | hx
        · rcases List.mem_append.mp hy with hy | hy
          · exact hlt (ih h.initial hf hcond.initial x hx hrun y hy hsess)
          · exact hcut x hx hrun y hy hsess
        · obtain ⟨t, u, htu⟩ := List.append_of_mem hx
          rw [htu, ← List.append_assoc] at h
          rw [htu, ← List.append_assoc] at hy
          rcases List.mem_append.mp hy with hy | hy
          · have := sequence_lt h hy hsess
            omega
          · rcases List.mem_cons.mp hy with rfl | hy
            · exact hlt le_rfl
            · obtain ⟨t', u', rfl⟩ := List.append_of_mem hy
              have hclosed := (hfile (t ++ x :: t') y u' (by simp [htu])).closed x (by simp)
              rw [hrun] at hclosed
              cases hclosed

end condition

/-- A valid run obeys the lifecycle exactly when every step, attachment and attempt.finished event
is in the session of its attempt and no later call feeds the session of run.finished. -/
theorem lifecycle_law_iff (rt : Runtime) (fs : FileSystem) (options : ValidateOptions)
    (calls : List FeedCall) (hvalid : (reportOf rt fs options calls).valid = true) :
    LifecycleLaw (runLog rt options calls) ↔
      AttemptsLocal (runLog rt options calls) ∧ NothingFedAfterRunFinished rt options calls := by
  have hv := (valid_iff rt fs options calls).mp hvalid
  constructor
  · intro h
    exact ⟨fun x hx y hy a hxa hya => (h.attempts.first x hx y hy a hxa hya).1,
      (runFinished_last_iff hv.lifecycle hv.files).mp h.runEnd.last⟩
  · rintro ⟨hlocal, hlast⟩
    have h := hv.lifecycle
    exact ⟨sessionOrder h, session_end h,
      ⟨fun x hx y hy => runFinished_unique h hx hy, fun x hx hrun => hv.runEnd ⟨x, hx, hrun⟩,
        (runFinished_last_iff h hv.files).mpr hlast⟩,
      attemptOrder h hlocal, session_closed h⟩

theorem lifecycle_law_retried :
    LifecycleLaw (runLog Sample.runtime Sample.options [Sample.retried]) := by
  obtain ⟨hvalid, hlocal⟩ :
      (reportOf Sample.runtime Sample.noFiles Sample.options [Sample.retried]).valid = true ∧
        AttemptsLocal (runLog Sample.runtime Sample.options [Sample.retried]) := by
    decide +kernel
  refine (lifecycle_law_iff Sample.runtime Sample.noFiles Sample.options [Sample.retried]
    hvalid).mpr ⟨hlocal, ?_⟩
  rintro before after hcalls x hx - y hy
  rcases List.append_eq_singleton_iff.mp hcalls.symm with ⟨rfl, -⟩ | ⟨-, rfl⟩
  · cases hx
  · cases hy

theorem lifecycle_law_crossed :
    ¬ ∀ (rt : Runtime) (fs : FileSystem) (options : ValidateOptions) (calls : List FeedCall),
      (∀ c ∈ calls, c.singleSession = true) → (reportOf rt fs options calls).valid = true →
      LifecycleLaw (runLog rt options calls) := by
  intro h
  obtain ⟨hsingle, hvalid, hcrossed⟩ : (∀ c ∈ Sample.crossed, c.singleSession = true) ∧
      (reportOf Sample.runtime Sample.noFiles Sample.options Sample.crossed).valid = true ∧
      ¬ AttemptsLocal (runLog Sample.runtime Sample.options Sample.crossed) := by
    decide +kernel
  have hlaw := h Sample.runtime Sample.noFiles Sample.options Sample.crossed hsingle hvalid
  exact hcrossed (fun x hx y hy a hxa hya => (hlaw.attempts.first x hx y hy a hxa hya).1)

end QeReport

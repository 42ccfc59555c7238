import QeReport.ReadModel.Projector
import QeReport.Validator.Sessions
import QeReport.Validator.Verdict

/-! # What the projector holds

`Tracks l st` says what the state of the projector is after the events `l`: a session, an
attempt and a step for each that was started in time, finished only by an event of the log.  It
holds after any events that start and finish each thing once (`projectEvents_tracks`).

With the rules of the validator this gives that grouping the attempts never finds an execution
that contradicts itself, and that the projected run does not depend on the order of feeding. -/

namespace QeReport

open GuardedLog

/-! ### What the projector needs of the events -/

/-- The session that a session.started event starts. -/
def AnyEvent.startsSession (e : AnyEvent) : Option Text :=
  match e.payload? with
  | some (.sessionStarted _) => some e.session
  | _ => none

def Log.startedSessions (l : Log) : List Text := l.filterMap AnyEvent.startsSession

/-- An event that starts or finishes something does so for the first time. -/
structure Once (l : Log) (e : AnyEvent) : Prop where
  startsSession : ∀ s, e.startsSession = some s → s ∉ l.startedSessions
  endsSession : ∀ s, e.endsSession = some s → s ∉ l.finishedSessions
  startsAttempt : ∀ a, e.startsAttempt = some a → a ∉ l.attempts
  endsAttempt : ∀ a, e.endsAttempt = some a → a ∉ l.finishedAttempts
  endsStep : ∀ s, e.endsStep = some s → s ∉ l.finishedSteps

/-- The step was started after its attempt. -/
def StepPlaced (l : Log) (s : Text × Text) : Prop :=
  ∃ p x q, l = p ++ x :: q ∧ x.startsStep = some s ∧ s.1 ∈ Log.attempts p

section concat
variable {l : Log} {e : AnyEvent}

@[simp] theorem Log.mem_startedSessions_concat {s : Text} :
    s ∈ Log.startedSessions (l ++ [e]) ↔ s ∈ l.startedSessions ∨ e.startsSession = some s :=
  mem_filterMap_concat

theorem AnyEvent.startsSession_eq_some {s : Text} :
    e.startsSession = some s ↔ e.isSessionStarted = true ∧ e.session = s := by
  unfold startsSession isSessionStarted
  split <;> simp_all

theorem StepPlaced.attempt {s : Text × Text} (h : StepPlaced l s) : s.1 ∈ l.attempts := by
  obtain ⟨p, x, q, rfl, -, ha⟩ := h
  exact filterMap_subset_of_append _ ha

theorem StepPlaced.step {s : Text × Text} (h : StepPlaced l s) : s ∈ l.steps := by
  obtain ⟨p, x, q, rfl, hx, -⟩ := h
  exact List.mem_filterMap.mpr ⟨x, by simp, hx⟩

theorem stepPlaced_concat {s : Text × Text} :
    StepPlaced (l ++ [e]) s ↔ StepPlaced l s ∨ (e.startsStep = some s ∧ s.1 ∈ l.attempts) := by
  constructor
  · rintro ⟨p, x, q, hl, hx, ha⟩
    rcases List.eq_nil_or_concat q with rfl | ⟨q', y, rfl⟩
    · obtain ⟨rfl, hxe⟩ := List.append_inj' hl rfl
      rw [(List.cons.inj hxe).1]
      exact Or.inr ⟨hx, ha⟩
    · have hl' : l ++ [e] = (p ++ x :: q') ++ [y] := by simpa using hl
      exact Or.inl ⟨p, x, q', (List.append_inj' hl' rfl).1, hx, ha⟩
  · rintro (⟨p, x, q, rfl, hx, ha⟩ | ⟨hx, ha⟩)
    · exact ⟨p, x, q ++ [e], by simp, hx, ha⟩
    · exact ⟨l, e, [], rfl, hx, ha⟩

end concat

namespace Projector

/-! ### The state -/

structure SessionTracks (l : Log) (s : Text) (st : SessionState) : Prop where
  key : st.started.sessionId = s
  started : AnyEvent.known ⟨st.started.toEnvelope, .sessionStarted st.started.payload⟩ ∈ l
  finished : st.finished.isSome = true → s ∈ l.finishedSessions

/-- What an attempt holds of its steps. -/
structure StepsTrack (l : Log) (a : Text) (st : AttemptState) : Prop where
  step : ∀ id i, st.stepsById.get? id = some i → ∃ t, st.steps[i]? = some t ∧
    t.started.payload.stepId = id ∧ (t.finished.isSome = true → (a, id) ∈ l.finishedSteps)
  placed : ∀ id, st.stepsById.has id = true ↔ StepPlaced l (a, id)

structure AttemptTracks (l : Log) (a : Text) (st : AttemptState) : Prop where
  key : st.started.payload.attemptId = a
  started : AnyEvent.known ⟨st.started.toEnvelope, .attemptStarted st.started.payload⟩ ∈ l
  finished : st.finished.isSome = true → a ∈ l.finishedAttempts
  steps : StepsTrack l a st

/-- The state follows the events. -/
structure Tracks (l : Log) (st : State) : Prop where
  sessions : st.sessions.Holds (· ∈ l.startedSessions) (SessionTracks l)
  attempts : st.attempts.Holds (· ∈ l.attempts) (AttemptTracks l)

section mono
variable {l : Log} {e : AnyEvent} {s a : Text}

theorem SessionTracks.concat {st : SessionState} (h : SessionTracks l s st) :
    SessionTracks (l ++ [e]) s st :=
  ⟨h.key, List.mem_append_left _ h.started, fun hf =>
    Log.mem_finishedSessions_concat.mpr (Or.inl (h.finished hf))⟩

theorem StepsTrack.concat {st : AttemptState} (h : StepsTrack l a st)
    (he : ∀ id, e.startsStep ≠ some (a, id)) : StepsTrack (l ++ [e]) a st := by
  refine ⟨fun id i hi => ?_, fun id => ?_⟩
  · obtain ⟨t, ht, hid, hf⟩ := h.step id i hi
    exact ⟨t, ht, hid, fun hs => Log.mem_finishedSteps_concat.mpr (Or.inl (hf hs))⟩
  · rw [h.placed, stepPlaced_concat]
    exact ⟨Or.inl, fun hp => hp.elim (fun h => h) (fun hp => absurd hp.1 (he id))⟩

theorem AttemptTracks.concat {st : AttemptState} (h : AttemptTracks l a st)
    (he : ∀ id, e.startsStep ≠ some (a, id)) : AttemptTracks (l ++ [e]) a st :=
  ⟨h.key, List.mem_append_left _ h.started, fun hf =>
    Log.mem_finishedAttempts_concat.mpr (Or.inl (h.finished hf)), h.steps.concat he⟩

end mono

/-! ### One event -/

section step
variable {l : Log} {e : Envelope} {st : State}

/-- An event that starts no session keeps the sessions, whatever it adds to one of them. -/
theorem Tracks.keepSessions {P : Payload} (h : Tracks l st)
    (hP : (AnyEvent.known ⟨e, P⟩).startsSession = none) :
    st.sessions.Holds (· ∈ Log.startedSessions (l ++ [.known ⟨e, P⟩]))
      (SessionTracks (l ++ [.known ⟨e, P⟩])) :=
  h.sessions.imp (by simp [hP]) (fun _ _ => SessionTracks.concat)

theorem Tracks.keepAttempts {P : Payload} (h : Tracks l st)
    (hP : (AnyEvent.known ⟨e, P⟩).startsAttempt = none)
    (hS : (AnyEvent.known ⟨e, P⟩).startsStep = none) :
    st.attempts.Holds (· ∈ Log.attempts (l ++ [.known ⟨e, P⟩]))
      (AttemptTracks (l ++ [.known ⟨e, P⟩])) :=
  h.attempts.imp (by simp [hP]) (fun _ _ h => h.concat (by simp [hS]))

theorem Tracks.sessionStarted (h : Tracks l st) (p : SessionStartedPayload) :
    Tracks (l ++ [.known ⟨e, .sessionStarted p⟩]) (projectPayload st e (.sessionStarted p)) where
  sessions := by
    refine h.sessions.set (fun s => ?_) (fun _ _ _ => SessionTracks.concat)
      ⟨rfl, by simp, by simp⟩
    rw [Log.mem_startedSessions_concat]
    simp [AnyEvent.startsSession, AnyEvent.payload?, AnyEvent.session, AnyEvent.envelope, eq_comm]
  attempts := h.keepAttempts rfl rfl

theorem Tracks.sessionFinished (h : Tracks l st) (p : SessionFinishedPayload) :
    Tracks (l ++ [.known ⟨e, .sessionFinished p⟩]) (projectPayload st e (.sessionFinished p)) where
  sessions := by
    refine h.sessions.update (fun s => ?_) (fun _ _ _ => SessionTracks.concat) (fun ss _ hs => ?_)
    · rw [Log.mem_startedSessions_concat]
      simp [AnyEvent.startsSession, AnyEvent.payload?]
    · refine ⟨hs.key, List.mem_append_left _ hs.started, fun _ => ?_⟩
      rw [Log.mem_finishedSessions_concat]
      exact Or.inr rfl
  attempts := h.keepAttempts rfl rfl

theorem Tracks.attemptStarted (h : Tracks l st) (p : AttemptStartedPayload)
    (hnew : p.attemptId ∉ l.attempts) :
    Tracks (l ++ [.known ⟨e, .attemptStarted p⟩]) (projectPayload st e (.attemptStarted p)) where
  sessions := by
    refine h.sessions.update (fun s => ?_) (fun _ _ _ => SessionTracks.concat)
      (fun ss _ hs => ⟨hs.key, List.mem_append_left _ hs.started, fun hf => ?_⟩)
    · rw [Log.mem_startedSessions_concat]
      simp [AnyEvent.startsSession, AnyEvent.payload?]
    · exact hs.concat.finished hf
  attempts := by
    refine h.attempts.set (fun a => ?_) (fun a _ _ ha => ha.concat (fun id => ?_))
      ⟨rfl, by simp, by simp, ⟨by simp, fun id => ?_⟩⟩
    · rw [Log.mem_attempts_concat]
      simp [AnyEvent.startsAttempt, AnyEvent.payload?, eq_comm]
    · simp [AnyEvent.startsStep, AnyEvent.payload?]
    · refine iff_of_false (by simp [JsMap.has]) (fun hp => ?_)
      rcases stepPlaced_concat.mp hp with hp | hp
      · exact hnew hp.attempt
      · exact hnew hp.2

theorem Tracks.attemptFinished (h : Tracks l st) (p : AttemptFinishedPayload) :
    Tracks (l ++ [.known ⟨e, .attemptFinished p⟩]) (projectPayload st e (.attemptFinished p)) where
  sessions := h.keepSessions rfl
  attempts := by
    have hkeep : ∀ a id, (AnyEvent.known ⟨e, .attemptFinished p⟩).startsStep ≠ some (a, id) := by
      simp [AnyEvent.startsStep, AnyEvent.payload?]
    refine h.attempts.update (fun a => ?_) (fun a _ _ ha => ha.concat (hkeep a)) (fun st _ ha => ?_)
    · rw [Log.mem_attempts_concat]
      simp [AnyEvent.startsAttempt, AnyEvent.payload?]
    · have hc := ha.concat (hkeep p.attemptId)
      refine ⟨hc.key, hc.started, fun _ => ?_, hc.steps.step, hc.steps.placed⟩
      rw [Log.mem_finishedAttempts_concat]
      exact Or.inr rfl

theorem StepsTrack.addStep {a : AttemptState} {p : StepStartedPayload}
    (h : StepsTrack l p.attemptId a) (hknown : p.attemptId ∈ l.attempts) :
    StepsTrack (l ++ [.known ⟨e, .stepStarted p⟩]) p.attemptId (a.addStep ⟨e, p⟩) := by
  constructor
  · intro id i hi
    simp only [AttemptState.addStep] at hi ⊢
    rw [JsMap.get?_set] at hi
    split_ifs at hi with hid
    · cases hi
      exact ⟨⟨⟨e, p⟩, none⟩, by simp, hid.symm, by simp⟩
    · obtain ⟨t, ht, htid, hf⟩ := h.step id i hi
      refine ⟨t, ?_, htid, fun hs => Log.mem_finishedSteps_concat.mpr (Or.inl (hf hs))⟩
      rw [List.getElem?_append_left (List.getElem?_eq_some_iff.mp ht).1]
      exact ht
  · intro id
    rw [stepPlaced_concat, ← h.placed]
    simp only [AttemptState.addStep, JsMap.has, JsMap.get?_set]
    by_cases hid : id = p.stepId
    · subst hid
      simp [AnyEvent.startsStep, AnyEvent.payload?, hknown]
    · simp [hid, Ne.symm hid, AnyEvent.startsStep, AnyEvent.payload?]

theorem Tracks.stepStarted (h : Tracks l st) (p : StepStartedPayload) :
    Tracks (l ++ [.known ⟨e, .stepStarted p⟩]) (projectPayload st e (.stepStarted p)) where
  sessions := h.keepSessions rfl
  attempts := by
    refine h.attempts.update (fun a => ?_) (fun a _ hne ha => ha.concat (fun id => ?_))
      (fun st hknown ha => ⟨ha.key, List.mem_append_left _ ha.started, fun hf => ?_,
        ha.steps.addStep hknown⟩)
    · rw [Log.mem_attempts_concat]
      simp [AnyEvent.startsAttempt, AnyEvent.payload?]
    · simp [AnyEvent.startsStep, AnyEvent.payload?, Ne.symm hne]
    · exact Log.mem_finishedAttempts_concat.mpr (Or.inl (ha.finished hf))

theorem StepsTrack.finishStep {a : AttemptState} {p : StepFinishedPayload}
    (h : StepsTrack l p.attemptId a) :
    StepsTrack (l ++ [.known ⟨e, .stepFinished p⟩]) p.attemptId (a.finishStep ⟨e, p⟩) := by
  have hc : StepsTrack (l ++ [.known ⟨e, .stepFinished p⟩]) p.attemptId a :=
    h.concat (by simp [AnyEvent.startsStep, AnyEvent.payload?])
  unfold AttemptState.finishStep
  cases hi : a.stepsById.get? p.stepId with
  | none => exact hc
  | some i =>
      refine ⟨fun id j hj => ?_, hc.placed⟩
      obtain ⟨t, ht, htid, hf⟩ := hc.step id j hj
      simp only [List.getElem?_modify, ht]
      by_cases hij : i = j
      · obtain ⟨t', ht', htid', -⟩ := hc.step _ _ hi
        rw [hij, ht] at ht'
        cases ht'
        refine ⟨{ t with finished := some ⟨e, p⟩ }, by simp [hij], htid, fun _ => ?_⟩
        rw [Log.mem_finishedSteps_concat, ← htid, htid']
        exact Or.inr rfl
      · exact ⟨t, by simp [hij], htid, hf⟩

theorem Tracks.stepFinished (h : Tracks l st) (p : StepFinishedPayload) :
    Tracks (l ++ [.known ⟨e, .stepFinished p⟩]) (projectPayload st e (.stepFinished p)) where
  sessions := h.keepSessions rfl
  attempts := by
    refine h.attempts.update (fun a => ?_) (fun a _ _ ha => ha.concat (fun id => ?_))
      (fun st _ ha => ?_)
    · rw [Log.mem_attempts_concat]
      simp [AnyEvent.startsAttempt, AnyEvent.payload?]
    · simp [AnyEvent.startsStep, AnyEvent.payload?]
    · have hother : (st.finishStep ⟨e, p⟩).started = st.started ∧
          (st.finishStep ⟨e, p⟩).finished = st.finished := by
        unfold AttemptState.finishStep
        split <;> exact ⟨rfl, rfl⟩
      refine ⟨?_, ?_, fun hf => ?_, ha.steps.finishStep⟩
      · rw [hother.1]
        exact ha.key
      · rw [hother.1]
        exact List.mem_append_left _ ha.started
      · rw [hother.2] at hf
        exact Log.mem_finishedAttempts_concat.mpr (Or.inl (ha.finished hf))

theorem Tracks.attachmentAdded (h : Tracks l st) (p : AttachmentAddedPayload) :
    Tracks (l ++ [.known ⟨e, .attachmentAdded p⟩]) (projectPayload st e (.attachmentAdded p)) where
  sessions := h.keepSessions rfl
  attempts := by
    have hkeep : ∀ a id, (AnyEvent.known ⟨e, .attachmentAdded p⟩).startsStep ≠ some (a, id) := by
      simp [AnyEvent.startsStep, AnyEvent.payload?]
    refine h.attempts.update (fun a => ?_) (fun a _ _ ha => ha.concat (hkeep a)) (fun st _ ha => ?_)
    · rw [Log.mem_attempts_concat]
      simp [AnyEvent.startsAttempt, AnyEvent.payload?]
    · have hc := ha.concat (hkeep p.attemptId)
      exact ⟨hc.key, hc.started, hc.finished, hc.steps.step, hc.steps.placed⟩

theorem Tracks.projectEvent {k : Event} (h : Tracks l st) (hnew : Once l (.known k)) :
    Tracks (l ++ [.known k]) (projectEvent st k) := by
  obtain ⟨e, P⟩ := k
  have h' : Tracks l { st with runId := some (st.runId.getD e.runId) } := ⟨h.sessions, h.attempts⟩
  unfold QeReport.Projector.projectEvent
  cases P with
  | sessionStarted p => exact h'.sessionStarted p
  | sessionFinished p => exact h'.sessionFinished p
  | runFinished => exact ⟨h'.keepSessions rfl, h'.keepAttempts rfl rfl⟩
  | attemptStarted p => exact h'.attemptStarted p (hnew.startsAttempt _ rfl)
  | attemptFinished p => exact h'.attemptFinished p
  | stepStarted p => exact h'.stepStarted p
  | stepFinished p => exact h'.stepFinished p
  | attachmentAdded p => exact h'.attachmentAdded p
  | scopeFailed p => exact ⟨h'.keepSessions rfl, h'.keepAttempts rfl rfl⟩

end step

/-- The log of a list of known events. -/
def logOfEvents (events : List Event) : Log := events.map .known

theorem logOfEvents_concat (events : List Event) (e : Event) :
    logOfEvents (events ++ [e]) = logOfEvents events ++ [.known e] := by
  simp [logOfEvents]

theorem projectEvents_concat (events : List Event) (e : Event) :
    projectEvents (events ++ [e]) = projectEvent (projectEvents events) e := by
  simp [projectEvents]

theorem projectEvents_tracks {events : List Event} (h : Admissible Once (logOfEvents events)) :
    Tracks (logOfEvents events) (projectEvents events) := by
  induction events using List.reverseRecOn with
  | nil => exact ⟨JsMap.holds_empty (fun _ => List.not_mem_nil), JsMap.holds_empty (fun _ => List.not_mem_nil)⟩
  | append_singleton events e ih =>
      rw [logOfEvents_concat] at h ⊢
      obtain ⟨hl, he⟩ := admissible_concat.mp h
      rw [projectEvents_concat]
      exact (ih hl).projectEvent he

/-! ### The order of the events -/

section order
variable {l : Log}

theorem once_of_nodup (h1 : l.startedSessions.Nodup) (h2 : l.finishedSessions.Nodup)
    (h3 : l.attempts.Nodup) (h4 : l.finishedAttempts.Nodup) (h5 : l.finishedSteps.Nodup) :
    Admissible Once l := by
  rintro p e s rfl
  have key : ∀ {β : Type} {f : AnyEvent → Option β}, ((p ++ e :: s).filterMap f).Nodup →
      ∀ b, f e = some b → b ∉ p.filterMap f := by
    intro β f hn b hb hmem
    rw [List.filterMap_append, List.filterMap_cons_some hb, List.nodup_append] at hn
    exact hn.2.2 b hmem b List.mem_cons_self rfl
  exact ⟨key h1, key h2, key h3, key h4, key h5⟩

/-- What known events add is the same for the log and for the events the projector goes
through. -/
theorem filterMap_ordered {β : Type} {f : AnyEvent → Option β} (hf : ∀ u, f (.unknown u) = none) :
    ((logOfEvents (ordered (l.filterMap AnyEvent.known?))).filterMap f).Perm (l.filterMap f) := by
  have hperm : (logOfEvents (ordered (l.filterMap AnyEvent.known?))).Perm
      ((l.filterMap AnyEvent.known?).map .known) := (sortBy_perm _).map _
  refine (hperm.filterMap f).trans (List.Perm.of_eq ?_)
  rw [List.filterMap_map, List.filterMap_filterMap]
  refine List.filterMap_congr (fun x _ => ?_)
  cases x with
  | known e => rfl
  | unknown u => exact (hf u).symm

theorem mem_logOfEvents_ordered {x : AnyEvent} :
    x ∈ logOfEvents (ordered (l.filterMap AnyEvent.known?)) ↔ x ∈ l ∧ ∃ e, x = .known e := by
  simp only [logOfEvents, ordered, List.mem_map, mem_sortBy, List.mem_filterMap]
  constructor
  · rintro ⟨e, ⟨y, hy, hye⟩, rfl⟩
    cases y with
    | known k =>
        obtain rfl := Option.some.inj hye
        exact ⟨hy, k, rfl⟩
    | unknown u => cases hye
  · rintro ⟨hx, e, rfl⟩
    exact ⟨e, ⟨_, hx, rfl⟩, rfl⟩

theorem startedSessions_eq (l : Log) :
    l.startedSessions = (l.filter AnyEvent.isSessionStarted).map AnyEvent.session := by
  rw [Log.startedSessions, ← List.filterMap_eq_map, List.filterMap_filter]
  refine List.filterMap_congr (fun x _ => ?_)
  unfold AnyEvent.startsSession AnyEvent.isSessionStarted
  split <;> simp_all

theorem ordered_once (h : Lifecycle l) :
    Admissible Once (logOfEvents (ordered (l.filterMap AnyEvent.known?))) := by
  refine once_of_nodup ((filterMap_ordered (fun _ => rfl)).nodup_iff.mpr ?_)
    ((filterMap_ordered (fun _ => rfl)).nodup_iff.mpr (finishedSessions_nodup h))
    ((filterMap_ordered (fun _ => rfl)).nodup_iff.mpr (attempts_nodup h))
    ((filterMap_ordered (fun _ => rfl)).nodup_iff.mpr (finishedAttempts_nodup h))
    ((filterMap_ordered (fun _ => rfl)).nodup_iff.mpr (finishedSteps_nodup h))
  rw [← Log.startedSessions, startedSessions_eq]
  exact startedSessions_nodup h

/-- The state of the projector after the events of a log. -/
def projected (l : Log) : State := projectEvents (ordered (l.filterMap AnyEvent.known?))

theorem projected_tracks (h : Lifecycle l) :
    Tracks (logOfEvents (ordered (l.filterMap AnyEvent.known?))) (projected l) :=
  projectEvents_tracks (ordered_once h)

end order

/-! ### Grouping -/

section grouping

theorem sameNumber_eq_none {as : List Attempt} (h : (as.map (fun a => a.attemptNumber)).Nodup) :
    sameNumber as = none := by
  induction as with
  | nil => rfl
  | cons a as ih =>
      cases as with
      | nil => rfl
      | cons b as =>
          have hne : a.attemptNumber ≠ b.attemptNumber := by
            intro he
            rw [List.map_cons, List.nodup_cons] at h
            exact h.1 (he ▸ List.mem_cons_self)
          rw [sameNumber, if_neg hne]
          exact ih h.of_cons

theorem length_fresh_le_one {as : List (Option Text)} (h : ∀ a ∈ as, ∀ b ∈ as, a = b) :
    (fresh id as).length ≤ 1 := by
  have hnodup : ((fresh id as).map id).Nodup := fresh_nodup as
  rw [List.map_id] at hnodup
  have hsub : fresh id as ⊆ as := (fresh_sublist as).subset
  match hf : fresh id as with
  | [] => simp
  | [_] => simp
  | a :: b :: rest =>
      rw [hf] at hnodup hsub
      refine absurd (h a (hsub (by simp)) b (hsub (by simp))) ?_
      intro hab
      exact (List.nodup_cons.mp hnodup).1 (hab ▸ List.mem_cons_self)

theorem groupExecution_eq_ok {sessions : JsMap Text SessionState} {id : Text}
    {states : List AttemptState} {x : TestExecution} (h : groupExecution sessions id states = .ok x) :
    x.executionId = id ∧
      x.attempts =
        sortBy (fun a b => compare a.attemptNumber b.attemptNumber) (states.map attempt) := by
  unfold groupExecution at h
  dsimp only at h
  split at h
  · cases h
  · split at h
    · cases h
    · split at h
      · cases h
      · split_ifs at h
        cases h
        exact ⟨rfl, rfl⟩

/-- Attempts that agree make an execution. -/
theorem groupExecution_ok {sessions : JsMap Text SessionState} (executionId : Text)
    {states : List AttemptState} (hne : states ≠ [])
    (hnum : (states.map (fun a => a.started.payload.attemptNumber)).Nodup)
    (hsame : ∀ a ∈ states, ∀ b ∈ states,
      a.started.payload.test.historicalId = b.started.payload.test.historicalId ∧
      a.started.payload.test.historicalIdStability = b.started.payload.test.historicalIdStability ∧
      runnerOf sessions (attempt a) = runnerOf sessions (attempt b)) :
    ∃ x, groupExecution sessions executionId states = .ok x := by
  have hperm : (sortBy (fun a b => compare a.attemptNumber b.attemptNumber)
      (states.map attempt)).Perm (states.map attempt) := sortBy_perm _
  have hnodup : ((states.map attempt).map (fun a => a.attemptNumber)).Nodup := by
    rwa [List.map_map]
  have hagree : ∀ a ∈ states.map attempt, ∀ b ∈ states.map attempt,
      a.test.historicalId = b.test.historicalId ∧
      a.test.historicalIdStability = b.test.historicalIdStability ∧
      runnerOf sessions a = runnerOf sessions b := by
    intro a ha b hb
    obtain ⟨a', ha', rfl⟩ := List.mem_map.mp ha
    obtain ⟨b', hb', rfl⟩ := List.mem_map.mp hb
    exact hsame a' ha' b' hb'
  unfold groupExecution
  dsimp only
  rw [sameNumber_eq_none ((hperm.map _).nodup_iff.mpr hnodup)]
  generalize hlist : sortBy (fun a b => compare a.attemptNumber b.attemptNumber)
    (states.map attempt) = list at hperm
  cases list with
  | nil =>
      have := hperm.length_eq
      rw [List.length_map] at this
      exact absurd (List.length_eq_zero_iff.mp this.symm) hne
  | cons first rest =>
      have hfirst : first ∈ states.map attempt := hperm.mem_iff.mp List.mem_cons_self
      have hfind : (first :: rest).find? (fun a =>
          decide (a.test.historicalId ≠ first.test.historicalId ∨
            a.test.historicalIdStability ≠ first.test.historicalIdStability)) = none := by
        rw [List.find?_eq_none]
        intro a ha
        obtain ⟨h1, h2, -⟩ := hagree a (hperm.mem_iff.mp ha) first hfirst
        simp [h1, h2]
      have hrunners : ¬ (fresh id ((first :: rest).map (runnerOf sessions))).length > 1 := by
        refine not_lt.mpr (length_fresh_le_one ?_)
        intro a ha b hb
        obtain ⟨a', ha', rfl⟩ := List.mem_map.mp ha
        obtain ⟨b', hb', rfl⟩ := List.mem_map.mp hb
        exact (hagree a' (hperm.mem_iff.mp ha') b' (hperm.mem_iff.mp hb')).2.2
      simp only [hfind, if_neg hrunners]
      exact ⟨_, rfl⟩

theorem mapM_ok {α β ε : Type} {f : α → Except ε β} {as : List α}
    (h : ∀ a ∈ as, ∃ b, f a = .ok b) : ∃ bs, as.mapM f = .ok bs := by
  induction as with
  | nil => exact ⟨[], rfl⟩
  | cons a as ih =>
      obtain ⟨b, hb⟩ := h a List.mem_cons_self
      obtain ⟨bs, hbs⟩ := ih (fun c hc => h c (List.mem_cons_of_mem _ hc))
      refine ⟨b :: bs, ?_⟩
      rw [List.mapM_cons, hb, hbs]
      rfl

theorem mem_groups {attempts : JsMap Text AttemptState} {g : Text × List AttemptState}
    (hg : g ∈ groups attempts) :
    g.2 = attempts.values.filter (fun a => a.started.payload.test.executionId = g.1) ∧
      g.2 ≠ [] := by
  have hget := JsMap.mem_entries.mp (mem_sortBy.mp hg)
  rw [JsMap.get?_groupBy] at hget
  split_ifs at hget with hmem
  rw [List.map_id, Option.some_inj] at hget
  refine ⟨hget.symm, ?_⟩
  obtain ⟨a, ha, hae⟩ := List.mem_map.mp hmem
  rw [← hget]
  exact List.ne_nil_of_mem (List.mem_filter.mpr ⟨ha, by simpa using hae⟩)

/-- The attempts of a group are those of one execution. -/
theorem mem_group {attempts : JsMap Text AttemptState} {g : Text × List AttemptState}
    (hg : g ∈ groups attempts) {a : AttemptState} (ha : a ∈ g.2) :
    a ∈ attempts.values ∧ a.started.payload.test.executionId = g.1 := by
  rw [(mem_groups hg).1, List.mem_filter, decide_eq_true_eq] at ha
  exact ha

end grouping

/-! ### Executions of a valid run -/

/-- The attempt.started event of an attempt. -/
def startEvent (a : AttemptState) : AnyEvent :=
  .known ⟨a.started.toEnvelope, .attemptStarted a.started.payload⟩

section executions
variable {l : Log} (h : Lifecycle l)
include h

theorem tracks_of_value {a : AttemptState} (ha : a ∈ (projected l).attempts.values) :
    AttemptTracks (logOfEvents (ordered (l.filterMap AnyEvent.known?)))
      a.started.payload.attemptId a := by
  obtain ⟨k, hk⟩ := JsMap.mem_values.mp ha
  have htracks := ((projected_tracks h).attempts.some k a hk).2
  rw [htracks.key]
  exact htracks

theorem startEvent_mem {a : AttemptState} (ha : a ∈ (projected l).attempts.values) :
    startEvent a ∈ l := (mem_logOfEvents_ordered.mp (tracks_of_value h ha).started).1

theorem attemptIds_nodup :
    ((projected l).attempts.values.map (fun a => a.started.payload.attemptId)).Nodup := by
  have hkeys : (projected l).attempts.values.map (fun a => a.started.payload.attemptId) =
      (projected l).attempts.entries.map Prod.fst := by
    rw [JsMap.values, List.map_map]
    refine List.map_congr_left (fun p hp => ?_)
    exact ((projected_tracks h).attempts.some p.1 p.2 (JsMap.mem_entries.mp hp)).2.key
  rw [hkeys]
  exact (projected l).attempts.nodup

/-- The runner that the sessions map gives for an attempt is the one of the log. -/
theorem runnerOf_eq {a : AttemptState} (ha : a ∈ (projected l).attempts.values) :
    runnerOf (projected l).sessions (attempt a) = l.runnerName a.started.sessionId := by
  have hsess : a.started.sessionId ∈ l.sessions := Log.session_mem (startEvent_mem h ha)
  obtain ⟨x, hx, hst, hxs⟩ := session_started h hsess
  obtain ⟨p, hp⟩ := AnyEvent.isSessionStarted_iff.mp hst
  obtain ⟨e, rfl, he⟩ := AnyEvent.payload?_eq_some.mp hp
  have hstarted : a.started.sessionId ∈
      Log.startedSessions (logOfEvents (ordered (l.filterMap AnyEvent.known?))) :=
    List.mem_filterMap.mpr ⟨_, mem_logOfEvents_ordered.mpr ⟨hx, e, rfl⟩,
      AnyEvent.startsSession_eq_some.mpr ⟨hst, hxs⟩⟩
  cases hget : (projected l).sessions.get? a.started.sessionId with
  | none => exact absurd hstarted ((projected_tracks h).sessions.none _ hget)
  | some ss =>
      have htracks := ((projected_tracks h).sessions.some _ ss hget).2
      have hmem := (mem_logOfEvents_ordered.mp htracks.started).1
      have hrunner := runnerName_of_started h hmem rfl
      have hkey : (AnyEvent.known ⟨ss.started.toEnvelope,
          .sessionStarted ss.started.payload⟩).session = a.started.sessionId := htracks.key
      rw [hkey] at hrunner
      rw [hrunner, runnerOf]
      simp only [attempt, hget]
      rfl

theorem group_numbers_nodup {g : Text × List AttemptState}
    (hg : g ∈ groups (projected l).attempts) :
    (g.2.map (fun a => a.started.payload.attemptNumber)).Nodup := by
  have hnodup : g.2.Nodup := by
    rw [(mem_groups hg).1]
    exact (attemptIds_nodup h).of_map.filter _
  refine hnodup.map_on (fun a ha b hb hab => ?_)
  obtain ⟨ha1, ha2⟩ := mem_group hg ha
  obtain ⟨hb1, hb2⟩ := mem_group hg hb
  have hsame : startEvent a = startEvent b := by
    refine attemptNumber_unique h (startEvent_mem h ha1) (startEvent_mem h hb1)
      (AnyEvent.attemptNumber_eq_some.mpr ⟨_, rfl, rfl⟩)
      (AnyEvent.attemptNumber_eq_some.mpr ⟨_, rfl, ?_⟩)
    rw [hab, ha2, hb2]
  refine List.inj_on_of_nodup_map (attemptIds_nodup h) ha1 hb1 ?_
  have hpay := congrArg AnyEvent.payload? hsame
  simp only [startEvent, AnyEvent.payload?, Option.some.injEq, Payload.attemptStarted.injEq] at hpay
  rw [hpay]

theorem groupExecutions_ok :
    ∃ xs, groupExecutions (projected l).attempts (projected l).sessions = .ok xs := by
  refine mapM_ok (fun g hg => ?_)
  refine groupExecution_ok g.1 (mem_groups hg).2 (group_numbers_nodup h hg) (fun a ha b hb => ?_)
  obtain ⟨ha1, ha2⟩ := mem_group hg ha
  obtain ⟨hb1, hb2⟩ := mem_group hg hb
  rw [runnerOf_eq h ha1, runnerOf_eq h hb1]
  exact executions_agree h (startEvent_mem h ha1) (startEvent_mem h hb1) rfl rfl
    (ha2.trans hb2.symm)

end executions

/-! ### The run -/

theorem projectPayload_runId (st : State) (e : Envelope) (P : Payload) :
    (projectPayload st e P).runId = st.runId := by
  cases P <;> rfl

theorem projectEvents_runId (events : List Event) :
    (projectEvents events).runId = events.head?.map (fun e => e.runId) := by
  induction events using List.reverseRecOn with
  | nil => rfl
  | append_singleton events e ih =>
      rw [projectEvents_concat, projectEvent, projectPayload_runId, ih]
      cases events <;> rfl

/-- The events of a log that kept the rules make a run. -/
theorem projectRun_eq {l : Log} (h : Lifecycle l) {snapshot : ValidatedRun}
    (hvalid : snapshot.report.valid = true)
    (hevents : snapshot.events = l.filterMap AnyEvent.known?) (hne : snapshot.events ≠ [])
    (projectId runDirectory : Text) :
    ∃ runId xs, groupExecutions (projected l).attempts (projected l).sessions = .ok xs ∧
      projectRun projectId runDirectory snapshot =
        .ok (runOf projectId runId runDirectory snapshot.report.summary (projected l) xs) := by
  obtain ⟨xs, hxs⟩ := groupExecutions_ok h
  have hlen : (ordered snapshot.events).length = snapshot.events.length := length_sortBy _
  cases hord : ordered snapshot.events with
  | nil =>
      rw [hord] at hlen
      exact absurd (List.length_eq_zero_iff.mp hlen.symm) hne
  | cons e es =>
      have hst : projectEvents (e :: es) = projected l := by rw [← hord, hevents, projected]
      have hrun : (projected l).runId = some e.runId := by
        rw [← hst, projectEvents_runId]
        rfl
      refine ⟨e.runId, xs, hxs, ?_⟩
      simp only [projectRun, hvalid, hord, hst, hrun, hxs]
      rfl

instance : Std.TransCmp compareEvents :=
  inferInstanceAs (Std.TransCmp
    (compareLex (compareOn (fun a : Event => a.sessionId)) (compareOn (fun a => a.sequence))))

/-- A log that kept the rules has one order of its events. -/
theorem ordered_eq {l : Log} (h : Lifecycle l) {events : List Event}
    (hp : (l.filterMap AnyEvent.known?).Perm events) :
    ordered (l.filterMap AnyEvent.known?) = ordered events := by
  refine sortBy_eq_of_perm hp (fun a ha b hb hab => ?_)
  have hmem : ∀ e ∈ l.filterMap AnyEvent.known?, AnyEvent.known e ∈ l := by
    intro e he
    have : AnyEvent.known e ∈ logOfEvents (ordered (l.filterMap AnyEvent.known?)) :=
      List.mem_map_of_mem (mem_sortBy.mpr he)
    exact (mem_logOfEvents_ordered.mp this).1
  rw [compareEvents, Ordering.then_eq_eq] at hab
  have heq : AnyEvent.known a = AnyEvent.known b :=
    eq_of_sequence h (hmem a ha) (hmem b hb) (Std.LawfulEqCmp.eq_of_compare hab.1)
      (Std.LawfulEqCmp.eq_of_compare hab.2)
  cases heq
  rfl

/-- A run is projected from the order of its events and from what the validator concluded. -/
theorem projectRun_congr {a b : ValidatedRun} (hvalid : a.report.valid = b.report.valid)
    (horder : ordered a.events = ordered b.events) (hfacts : a.report.summary.facts = b.report.summary.facts)
    (hignored : a.report.summary.ignored = b.report.summary.ignored)
    (hduplicates : a.report.summary.duplicates = b.report.summary.duplicates)
    (projectId runDirectory : Text) :
    projectRun projectId runDirectory a = projectRun projectId runDirectory b := by
  simp only [Summary.facts, RunFacts.mk.injEq] at hfacts
  obtain ⟨-, -, -, -, -, -, -, -, -, hcomplete, hclosed, hverdict⟩ := hfacts
  have hrun : ∀ runId st xs, runOf projectId runId runDirectory a.report.summary st xs =
      runOf projectId runId runDirectory b.report.summary st xs := by
    intro runId st xs
    simp only [runOf, hcomplete, hclosed, hverdict, hignored, hduplicates]
  simp only [projectRun, hvalid, horder, hrun]

/-- Every reference of the loop is that of an event. -/
theorem emitted_events (events : List Event) {x : Emitted} (hx : x ∈ (projectEvents events).emitted) :
    ∃ e ∈ events, ∃ p, e.payload = .attachmentAdded p ∧ x.reference = reference e.toEnvelope p := by
  induction events using List.reverseRecOn with
  | nil => cases hx
  | append_singleton events e ih =>
      have hold : x ∈ (projectEvents events).emitted → ∃ f ∈ events ++ [e], ∃ p,
          f.payload = .attachmentAdded p ∧ x.reference = reference f.toEnvelope p := by
        intro hx
        obtain ⟨f, hf, hp⟩ := ih hx
        exact ⟨f, List.mem_append_left _ hf, hp⟩
      rw [projectEvents, List.foldl_append] at hx
      change x ∈ (projectEvent (projectEvents events) e).emitted at hx
      cases hp : e.payload with
      | attachmentAdded p =>
          rw [projectEvent, hp] at hx
          rcases List.mem_append.mp hx with hx | hx
          · exact hold hx
          · obtain rfl := List.mem_singleton.mp hx
            exact ⟨e, by simp, p, hp, rfl⟩
      | _ =>
          rw [projectEvent, hp] at hx
          exact hold hx

/-- The attachments of a run are declared by its events. -/
theorem attachments_declared {projectId runDirectory : Text} {validated : ValidatedRun}
    {run : ProjectedRun} (h : projectRun projectId runDirectory validated = .ok run)
    {a : AttachmentReference} (ha : a ∈ run.attachments) :
    ∃ e ∈ validated.events, ∃ p, e.payload = .attachmentAdded p ∧ p.sha256 = a.sha256 ∧
      p.sizeBytes = a.sizeBytes := by
  unfold projectRun at h
  dsimp only at h
  split_ifs at h
  split at h
  · cases h
  · obtain ⟨executions, -, h⟩ := bind_eq_ok.mp h
    cases h
    obtain ⟨x, hx, rfl⟩ := List.mem_map.mp ha
    obtain ⟨e, he, p, hp, hreference⟩ := emitted_events _ (mem_sortBy.mp hx)
    refine ⟨e, mem_sortBy.mp he, p, hp, ?_⟩
    rw [hreference]
    exact ⟨rfl, rfl⟩

end Projector

/-! ### Valid runs -/

section runs
variable {rt : Runtime} {fs : FileSystem} {options : ValidateOptions} {calls : List FeedCall}

/-- A snapshot that holds events holds the known events of the log. -/
theorem snapshot_events (h : ValidRun rt fs options calls)
    (hne : (snapshotOf rt fs options calls).events ≠ []) :
    (snapshotOf rt fs options calls).events =
      (runLog rt options calls).filterMap AnyEvent.known? := by
  have haccepted := h.ends.follows.accepted
  have hevents : (snapshotOf rt fs options calls).events = (feedAll rt options calls).books.accepted :=
    rfl
  rw [hevents, haccepted] at hne ⊢
  split_ifs at hne ⊢
  · rfl
  · exact absurd rfl hne

/-- The events that the lines of the calls read, duplicates included. -/
def fedEvents (rt : Runtime) (options : ValidateOptions) (calls : List FeedCall) : List AnyEvent :=
  (allLines rt options calls).map (fun x => x.event)

theorem known_nodup {l : Log} (h : l.Nodup) : (l.filterMap AnyEvent.known?).Nodup := by
  refine h.filterMap (fun x y e hx hy => ?_)
  cases x <;> cases y <;> simp_all [AnyEvent.known?]

theorem length_known (l : Log) :
    (l.filterMap AnyEvent.known?).length + l.countP (fun e => e.known?.isNone) = l.length := by
  rw [List.length_filterMap_eq_countP,
    List.length_eq_countP_add_countP (fun e : AnyEvent => e.known?.isSome)]
  refine congrArg _ (List.countP_congr (fun e _ => ?_))
  simp

/-- The number of fresh lines depends on the events that were fed, not on their order. -/
theorem length_runLog_of_perm {rt' : Runtime} {options' : ValidateOptions} {calls' : List FeedCall}
    (hp : (fedEvents rt' options' calls').Perm (fedEvents rt options calls)) :
    (runLog rt' options' calls').length = (runLog rt options calls).length := by
  have hids : ∀ ls : List Line, ((freshLines ls).map Line.eventId).Nodup ∧
      ∀ i, i ∈ (freshLines ls).map Line.eventId ↔ i ∈ ls.map Line.eventId := by
    intro ls
    refine ⟨fresh_nodup ls, fun i => ⟨fun hi => ?_, fun hi => ?_⟩⟩
    · obtain ⟨x, hx, rfl⟩ := List.mem_map.mp hi
      exact List.mem_map_of_mem ((fresh_sublist ls).subset hx)
    · obtain ⟨x, hx, rfl⟩ := List.mem_map.mp hi
      obtain ⟨y, hy, hyx⟩ : ∃ y ∈ freshLines ls, y.eventId = x.eventId := exists_fresh hx
      exact List.mem_map.mpr ⟨y, hy, hyx⟩
  have hfed : ((allLines rt' options' calls').map Line.eventId).Perm
      ((allLines rt options calls).map Line.eventId) := by
    have := hp.map (fun e : AnyEvent => e.envelope.eventId)
    rwa [fedEvents, fedEvents, List.map_map, List.map_map] at this
  have hperm : ((freshLines (allLines rt' options' calls')).map Line.eventId).Perm
      ((freshLines (allLines rt options calls)).map Line.eventId) := by
    refine (List.perm_ext_iff_of_nodup (hids _).1 (hids _).1).mpr (fun i => ?_)
    rw [(hids _).2, (hids _).2, hfed.mem_iff]
  have hlen := hperm.length_eq
  rw [List.length_map, List.length_map] at hlen
  rw [runLog, runLog, logOf, logOf, List.length_map, List.length_map, hlen]

end runs

open Projector in
/-- A valid run with an accepted event is projected, and the outcome is a function of the set of
accepted events and of the summary; feeding the same events in another order that is valid
projects the same run. -/
theorem projection_determined (rt : Runtime) (fs : FileSystem) (options : ValidateOptions)
    (calls : List FeedCall) (hvalid : (reportOf rt fs options calls).valid = true)
    (hne : (snapshotOf rt fs options calls).events ≠ []) (projectId runDirectory : Text) :
    (∃ run, projectRun projectId runDirectory (snapshotOf rt fs options calls) = .ok run) ∧
    ∀ (rt' : Runtime) (fs' : FileSystem) (options' : ValidateOptions) (calls' : List FeedCall),
      (reportOf rt' fs' options' calls').valid = true →
      (∀ e, e ∈ (snapshotOf rt' fs' options' calls').events ↔
        e ∈ (snapshotOf rt fs options calls).events) →
      ((reportOf rt' fs' options' calls').summary = (reportOf rt fs options calls).summary ∨
        (fedEvents rt' options' calls').Perm (fedEvents rt options calls)) →
      projectRun projectId runDirectory (snapshotOf rt' fs' options' calls') =
        projectRun projectId runDirectory (snapshotOf rt fs options calls) := by
  have hv := (valid_iff rt fs options calls).mp hvalid
  have hevents := snapshot_events hv hne
  constructor
  · obtain ⟨runId, xs, -, hrun⟩ := projectRun_eq hv.lifecycle hvalid hevents hne projectId runDirectory
    exact ⟨_, hrun⟩
  · intro rt' fs' options' calls' hvalid' hsame hor
    have hv' := (valid_iff rt' fs' options' calls').mp hvalid'
    obtain ⟨e, he⟩ := List.exists_mem_of_ne_nil _ hne
    have hevents' := snapshot_events hv' (List.ne_nil_of_mem ((hsame e).mpr he))
    have hperm : ((runLog rt' options' calls').filterMap AnyEvent.known?).Perm
        ((runLog rt options calls).filterMap AnyEvent.known?) := by
      refine (List.perm_ext_iff_of_nodup (known_nodup (logOf_nodup _))
        (known_nodup (logOf_nodup _))).mpr (fun e => ?_)
      rw [hevents, hevents'] at hsame
      exact hsame e
    have hfacts : (reportOf rt' fs' options' calls').summary.facts =
        (reportOf rt fs options calls).summary.facts := by
      rw [summary_facts hv, summary_facts hv', acceptedEvents_eq hv, acceptedEvents_eq hv']
      exact congrArg derive (List.toFinset_eq_of_perm _ _ hperm)
    have hcounts : (reportOf rt' fs' options' calls').summary.ignored =
          (reportOf rt fs options calls).summary.ignored ∧
        (reportOf rt' fs' options' calls').summary.duplicates =
          (reportOf rt fs options calls).summary.duplicates := by
      rcases hor with hsum | hfed
      · rw [hsum]
        exact ⟨rfl, rfl⟩
      · have hlen := length_runLog_of_perm hfed
        have hall : (allLines rt' options' calls').length = (allLines rt options calls).length := by
          simpa [fedEvents] using hfed.length_eq
        have hk := length_known (runLog rt options calls)
        have hk' := length_known (runLog rt' options' calls')
        have hi := hv.ends.follows.ignored
        have hi' := hv'.ends.follows.ignored
        have hd := hv.ends.duplicates
        have hd' := hv'.ends.duplicates
        have hkl := hperm.length_eq
        simp only [reportOf, finish, summaryOf]
        omega
    refine projectRun_congr (hvalid'.trans hvalid.symm) ?_ hfacts hcounts.1 hcounts.2 _ _
    rw [hevents', hevents]
    exact ordered_eq hv'.lifecycle hperm

/-- The files of `Sample.forked`, which hold two attempts of one execution, in both orders. -/
theorem projection_determined_forked :
    projectRun (txt "p") (txt "d")
        (snapshotOf Sample.runtime Sample.noFiles Sample.options Sample.forked.reverse) =
      projectRun (txt "p") (txt "d")
        (snapshotOf Sample.runtime Sample.noFiles Sample.options Sample.forked) := by
  obtain ⟨hvalid, hne, hvalid', hsummary, hperm⟩ :
      (reportOf Sample.runtime Sample.noFiles Sample.options Sample.forked).valid = true ∧
        (snapshotOf Sample.runtime Sample.noFiles Sample.options Sample.forked).events ≠ [] ∧
        (reportOf Sample.runtime Sample.noFiles Sample.options
          Sample.forked.reverse).valid = true ∧
        (reportOf Sample.runtime Sample.noFiles Sample.options Sample.forked.reverse).summary =
          (reportOf Sample.runtime Sample.noFiles Sample.options Sample.forked).summary ∧
        (snapshotOf Sample.runtime Sample.noFiles Sample.options
          Sample.forked.reverse).events.Perm
          (snapshotOf Sample.runtime Sample.noFiles Sample.options Sample.forked).events := by
    decide +kernel
  exact (projection_determined Sample.runtime Sample.noFiles Sample.options Sample.forked hvalid
    hne (txt "p") (txt "d")).2 Sample.runtime Sample.noFiles Sample.options Sample.forked.reverse
    hvalid' (fun _ => hperm.mem_iff) (.inl hsummary)

end QeReport

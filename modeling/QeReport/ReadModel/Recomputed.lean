import QeReport.ReadModel.Faithful

/-! # The verdict read off a projected run

A run that shows the facts of a valid log also shows its completeness and its verdict: the rule
of the protocol, applied to the sessions, attempts, steps and scope failures of the projected
run, gives what the validator concluded from the events. -/

namespace QeReport

open GuardedLog Projector

/-! ### Facts of events -/

section events
variable {e : Event}

theorem sessionStarted_mem {s t : Text} {p : SessionStartedPayload} :
    .sessionStarted s t p ∈ e.facts ↔
      e.payload = .sessionStarted p ∧ e.sessionId = s ∧ e.occurredAt = t := by
  obtain ⟨e, P⟩ := e
  cases P with
  | sessionStarted q =>
      simp only [Event.facts, List.mem_singleton, Fact.sessionStarted.injEq,
        Payload.sessionStarted.injEq]
      exact ⟨fun h => ⟨h.2.2.symm, h.1.symm, h.2.1.symm⟩, fun h => ⟨h.2.1.symm, h.2.2.symm, h.1.symm⟩⟩
  | _ => simp [Event.facts]

theorem sessionFinished_mem {s : Text} {en : Ending SessionStatus} :
    .sessionFinished s en ∈ e.facts ↔ ∃ p, e.payload = .sessionFinished p ∧ e.sessionId = s ∧
      en = ⟨true, some e.occurredAt, p.status, p.rawStatus, none, none, p.failures.getD []⟩ := by
  obtain ⟨e, P⟩ := e
  cases P <;> simp [Event.facts, eq_comm]

theorem attemptStarted_mem {x s t : Text} {p : AttemptStartedPayload} :
    .attemptStarted x s t p ∈ e.facts ↔
      e.payload = .attemptStarted p ∧ p.test.executionId = x ∧ e.sessionId = s ∧ e.occurredAt = t := by
  obtain ⟨e, P⟩ := e
  cases P with
  | attemptStarted q =>
      simp only [Event.facts, List.mem_singleton, Fact.attemptStarted.injEq,
        Payload.attemptStarted.injEq]
      constructor
      · rintro ⟨rfl, rfl, rfl, rfl⟩
        exact ⟨rfl, rfl, rfl, rfl⟩
      · rintro ⟨rfl, rfl, rfl, rfl⟩
        exact ⟨rfl, rfl, rfl, rfl⟩
  | _ => simp [Event.facts]

theorem attemptFinished_mem {a : Text} {en : Ending Status} :
    .attemptFinished a en ∈ e.facts ↔ ∃ p, e.payload = .attemptFinished p ∧ p.attemptId = a ∧
      en = ⟨true, some e.occurredAt, some p.status, p.rawStatus, p.expectedStatus, p.durationMs,
        p.failures.getD []⟩ := by
  obtain ⟨e, P⟩ := e
  cases P <;> simp [Event.facts, eq_comm]

theorem stepStarted_mem {t : Text} {p : StepStartedPayload} :
    .stepStarted t p ∈ e.facts ↔ e.payload = .stepStarted p ∧ e.occurredAt = t := by
  obtain ⟨e, P⟩ := e
  cases P <;> simp [Event.facts, eq_comm, and_comm]

theorem stepFinished_mem {a s : Text} {en : Ending Status} :
    .stepFinished a s en ∈ e.facts ↔ ∃ p, e.payload = .stepFinished p ∧ p.attemptId = a ∧
      p.stepId = s ∧ en = ⟨true, some e.occurredAt, some p.status, p.rawStatus, none, p.durationMs,
        p.failures.getD []⟩ := by
  obtain ⟨e, P⟩ := e
  cases P <;> simp [Event.facts, eq_comm]

theorem scopeFailed_mem {f : ScopeFailure} :
    .scopeFailed f ∈ e.facts ↔ ∃ p, e.payload = .scopeFailed p ∧ f = scopeFailure e.toEnvelope p := by
  obtain ⟨e, P⟩ := e
  cases P <;> simp [Event.facts]

end events

/-! ### Facts of runs -/

section runs
variable {run : ProjectedRun}

@[simp] theorem Ending.mem_facts {S : Type} [DecidableEq S] {mk : Ending S → Fact} {en : Ending S}
    {f : Fact} : f ∈ en.facts mk ↔ en ≠ .unfinished ∧ f = mk en := by
  unfold Ending.facts
  split_ifs with h <;> simp [h]

theorem sessionStarted_mem_run {s t : Text} {p : SessionStartedPayload} :
    .sessionStarted s t p ∈ run.facts ↔ ∃ ps ∈ run.sessions, ps.sessionId = s ∧ ps.startedAt = t ∧
      p = ⟨ps.producer, ps.runner, ps.environment, ps.executor, ps.source, ps.labels⟩ := by
  simp [ProjectedRun.facts, ProjectedSession.facts, TestExecution.facts, Attempt.facts, Step.facts,
    ProjectedSession.start, Attempt.start, Step.start,
    eq_comm]

theorem sessionFinished_mem_run {s : Text} {en : Ending SessionStatus} :
    .sessionFinished s en ∈ run.facts ↔
      ∃ ps ∈ run.sessions, ps.sessionId = s ∧ ps.ending = en ∧ en ≠ .unfinished := by
  simp only [ProjectedRun.facts, ProjectedSession.facts, TestExecution.facts, Attempt.facts, Step.facts,
    ProjectedSession.start, Attempt.start, Step.start,
    List.mem_append, List.mem_flatMap, List.mem_cons, Ending.mem_facts, List.mem_map,
    reduceCtorEq, false_or, and_false, exists_false, or_false, Fact.sessionFinished.injEq]
  constructor
  · rintro ⟨ps, hps, hne, rfl, rfl⟩
    exact ⟨ps, hps, rfl, rfl, hne⟩
  · rintro ⟨ps, hps, rfl, rfl, hne⟩
    exact ⟨ps, hps, hne, rfl, rfl⟩

theorem attemptStarted_mem_run {x s t : Text} {p : AttemptStartedPayload} :
    .attemptStarted x s t p ∈ run.facts ↔ ∃ ex ∈ run.executions, ex.executionId = x ∧
      ∃ a ∈ ex.attempts, a.sessionId = s ∧ a.startedAt = t ∧
        p = ⟨a.attemptId, a.attemptNumber, a.test⟩ := by
  simp only [ProjectedRun.facts, ProjectedSession.facts, TestExecution.facts, Attempt.facts, Step.facts,
    ProjectedSession.start, Attempt.start, Step.start,
    List.mem_append, List.mem_flatMap, List.mem_cons, Ending.mem_facts, List.mem_map,
    reduceCtorEq, false_or, or_false, and_false, exists_false, Fact.attemptStarted.injEq]
  constructor
  · rintro ⟨ex, hex, a, ha, rfl, rfl, rfl, rfl⟩
    exact ⟨ex, hex, rfl, a, ha, rfl, rfl, rfl⟩
  · rintro ⟨ex, hex, rfl, a, ha, rfl, rfl, rfl⟩
    exact ⟨ex, hex, a, ha, rfl, rfl, rfl, rfl⟩

theorem mem_attempts {a : Attempt} :
    a ∈ run.attempts ↔ ∃ ex ∈ run.executions, a ∈ ex.attempts := by
  simp [ProjectedRun.attempts]

theorem attemptFinished_mem_run {i : Text} {en : Ending Status} :
    .attemptFinished i en ∈ run.facts ↔
      ∃ a ∈ run.attempts, a.attemptId = i ∧ a.ending = en ∧ en ≠ .unfinished := by
  simp only [ProjectedRun.facts, ProjectedSession.facts, TestExecution.facts, Attempt.facts, Step.facts,
    ProjectedSession.start, Attempt.start, Step.start,
    List.mem_append, List.mem_flatMap, List.mem_cons, Ending.mem_facts, List.mem_map,
    reduceCtorEq, false_or, or_false, and_false, exists_false, Fact.attemptFinished.injEq]
  constructor
  · rintro ⟨ex, hex, a, ha, hne, rfl, rfl⟩
    exact ⟨a, mem_attempts.mpr ⟨ex, hex, ha⟩, rfl, rfl, hne⟩
  · rintro ⟨a, ha, rfl, rfl, hne⟩
    obtain ⟨ex, hex, ha⟩ := mem_attempts.mp ha
    exact ⟨ex, hex, a, ha, hne, rfl, rfl⟩

theorem stepStarted_mem_run {t : Text} {p : StepStartedPayload} :
    .stepStarted t p ∈ run.facts ↔ ∃ a ∈ run.attempts, ∃ s ∈ a.steps, s.startedAt = t ∧
      p = ⟨s.stepId, a.attemptId, s.parentStepId, s.name, s.kind, s.location⟩ := by
  simp only [ProjectedRun.facts, ProjectedSession.facts, TestExecution.facts, Attempt.facts, Step.facts,
    ProjectedSession.start, Attempt.start, Step.start,
    List.mem_append, List.mem_flatMap, List.mem_cons, Ending.mem_facts, List.mem_map,
    reduceCtorEq, false_or, or_false, and_false, exists_false, Fact.stepStarted.injEq]
  constructor
  · rintro ⟨ex, hex, a, ha, s, hs, rfl, rfl⟩
    exact ⟨a, mem_attempts.mpr ⟨ex, hex, ha⟩, s, hs, rfl, rfl⟩
  · rintro ⟨a, ha, s, hs, rfl, rfl⟩
    obtain ⟨ex, hex, ha⟩ := mem_attempts.mp ha
    exact ⟨ex, hex, a, ha, s, hs, rfl, rfl⟩

theorem stepFinished_mem_run {i j : Text} {en : Ending Status} :
    .stepFinished i j en ∈ run.facts ↔ ∃ a ∈ run.attempts, a.attemptId = i ∧ ∃ s ∈ a.steps,
      s.stepId = j ∧ s.ending = en ∧ en ≠ .unfinished := by
  simp only [ProjectedRun.facts, ProjectedSession.facts, TestExecution.facts, Attempt.facts, Step.facts,
    ProjectedSession.start, Attempt.start, Step.start,
    List.mem_append, List.mem_flatMap, List.mem_cons, Ending.mem_facts, List.mem_map,
    reduceCtorEq, false_or, or_false, and_false, exists_false, Fact.stepFinished.injEq]
  constructor
  · rintro ⟨ex, hex, a, ha, s, hs, hne, rfl, rfl, rfl⟩
    exact ⟨a, mem_attempts.mpr ⟨ex, hex, ha⟩, rfl, s, hs, rfl, rfl, hne⟩
  · rintro ⟨a, ha, rfl, s, hs, rfl, rfl, hne⟩
    obtain ⟨ex, hex, ha⟩ := mem_attempts.mp ha
    exact ⟨ex, hex, a, ha, s, hs, hne, rfl, rfl, rfl⟩

theorem scopeFailed_mem_run {f : ScopeFailure} :
    .scopeFailed f ∈ run.facts ↔ f ∈ run.scopeFailures := by
  simp [ProjectedRun.facts, ProjectedSession.facts, TestExecution.facts, Attempt.facts, Step.facts,
    ProjectedSession.start, Attempt.start, Step.start]

end runs

/-! ### Names occur once -/

def Fact.session? : Fact → Option Text
  | .sessionStarted s _ _ => some s
  | _ => none

def Fact.attempt? : Fact → Option Text
  | .attemptStarted _ _ _ p => some p.attemptId
  | _ => none

def Fact.step? : Fact → Option (Text × Text)
  | .stepStarted _ p => some (p.attemptId, p.stepId)
  | _ => none

/-- A key that only the facts of starts have. -/
structure OnlyStarts {β : Type} (f : Fact → Option β) : Prop where
  sessionFinished : ∀ s en, f (.sessionFinished s en) = none
  attemptFinished : ∀ a en, f (.attemptFinished a en) = none
  stepFinished : ∀ a s en, f (.stepFinished a s en) = none
  attachmentOf : ∀ a r, f (.attachmentOf a r) = none
  attachment : ∀ r, f (.attachment r) = none
  scopeFailed : ∀ r, f (.scopeFailed r) = none

section names
variable {run : ProjectedRun} {β : Type} {f : Fact → Option β}

theorem filterMap_cons_toList (a : Fact) (l : List Fact) :
    (a :: l).filterMap f = (f a).toList ++ l.filterMap f := by
  cases h : f a <;> simp [h]

theorem Ending.filterMap_facts {S : Type} [DecidableEq S] {mk : Ending S → Fact} {en : Ending S}
    (h : ∀ en, f (mk en) = none) : (en.facts mk).filterMap f = [] := by
  unfold Ending.facts
  split_ifs <;> simp [h]

theorem Attempt.filterMap_facts (h : OnlyStarts f) (x : Text) (a : Attempt) :
    (a.facts x).filterMap f =
      (f (a.start x)).toList ++ a.steps.flatMap (fun s => (f (s.start a.attemptId)).toList) := by
  have hstep : ∀ s : Step, (s.facts a.attemptId).filterMap f = (f (s.start a.attemptId)).toList := by
    intro s
    rw [Step.facts, filterMap_cons_toList, Ending.filterMap_facts (h.stepFinished _ _),
      List.append_nil]
  have hattached : (a.attachments.map (Fact.attachmentOf a.attemptId)).filterMap f = [] := by
    simp [h.attachmentOf]
  rw [Attempt.facts, filterMap_cons_toList, List.filterMap_append, List.filterMap_append,
    Ending.filterMap_facts (h.attemptFinished _), List.nil_append, hattached, List.append_nil,
    List.filterMap_flatMap]
  simp only [hstep]

theorem ProjectedRun.filterMap_facts (h : OnlyStarts f) :
    run.facts.filterMap f = run.sessions.flatMap (fun s => (f s.start).toList) ++
      run.executions.flatMap (fun x => x.attempts.flatMap (fun a =>
        (f (a.start x.executionId)).toList ++
          a.steps.flatMap (fun s => (f (s.start a.attemptId)).toList))) := by
  have hsession : ∀ s : ProjectedSession, s.facts.filterMap f = (f s.start).toList := by
    intro s
    rw [ProjectedSession.facts, filterMap_cons_toList, Ending.filterMap_facts (h.sessionFinished _),
      List.append_nil]
  have hlists : (run.attachments.map Fact.attachment).filterMap f = [] ∧
      (run.scopeFailures.map Fact.scopeFailed).filterMap f = [] := by
    simp [h.attachment, h.scopeFailed]
  rw [ProjectedRun.facts, List.filterMap_append, List.filterMap_append, List.filterMap_append,
    hlists.1, hlists.2, List.append_nil, List.append_nil, List.filterMap_flatMap,
    List.filterMap_flatMap]
  simp only [hsession, TestExecution.facts, List.filterMap_flatMap, Attempt.filterMap_facts h]

theorem session_names : run.facts.filterMap Fact.session? = run.sessions.map (fun s => s.sessionId) := by
  rw [ProjectedRun.filterMap_facts ⟨fun _ _ => rfl, fun _ _ => rfl, fun _ _ _ => rfl, fun _ _ => rfl,
    fun _ => rfl, fun _ => rfl⟩]
  simp [ProjectedSession.start, Attempt.start, Step.start, Fact.session?, ← List.map_eq_flatMap]

theorem attempt_names : run.facts.filterMap Fact.attempt? = run.attempts.map (fun a => a.attemptId) := by
  rw [ProjectedRun.filterMap_facts ⟨fun _ _ => rfl, fun _ _ => rfl, fun _ _ _ => rfl, fun _ _ => rfl,
    fun _ => rfl, fun _ => rfl⟩]
  have hnil : ∀ {α : Type} (l : List α), l.flatMap (fun _ => ([] : List Text)) = [] := by
    intro α l
    simp [List.flatMap_eq_nil_iff]
  simp [ProjectedSession.start, Attempt.start, Step.start, Fact.attempt?, ProjectedRun.attempts,
    List.map_flatMap, hnil, ← List.map_eq_flatMap]

theorem step_names : run.facts.filterMap Fact.step? =
    (run.attempts.flatMap (fun a => a.steps.map (fun s => (a, s)))).map
      (fun t => (t.1.attemptId, t.2.stepId)) := by
  rw [ProjectedRun.filterMap_facts ⟨fun _ _ => rfl, fun _ _ => rfl, fun _ _ _ => rfl, fun _ _ => rfl,
    fun _ => rfl, fun _ => rfl⟩]
  simp [ProjectedSession.start, Attempt.start, Step.start, Fact.step?, ProjectedRun.attempts,
    List.map_flatMap, List.flatMap_assoc, Function.comp_def, ← List.map_eq_flatMap]

/-- The names that the facts of events start are those that the events start. -/
theorem filterMap_event_facts {g : AnyEvent → Option β} {events : List Event}
    (h : ∀ e : Event, e.facts.filterMap f = (g (.known e)).toList) :
    (events.flatMap Event.facts).filterMap f = (logOfEvents events).filterMap g := by
  rw [List.filterMap_flatMap, logOfEvents, List.filterMap_map, List.filterMap_eq_flatMap_toList]
  simp [h]

end names

/-! ### Reading a run -/

section reading
variable {run : ProjectedRun} {events : List Event} {E : Finset Event}

/-- A run that shows the facts of events that start and finish each thing once. -/
structure Shows (run : ProjectedRun) (events : List Event) : Prop where
  facts : run.facts.Perm (events.flatMap Event.facts)
  executions : (run.executions.map (fun x => x.executionId)).Nodup
  sessions : (Log.startedSessions (logOfEvents events)).Nodup
  attempts : (Log.attempts (logOfEvents events)).Nodup
  steps : (Log.steps (logOfEvents events)).Nodup

variable (h : Shows run events) (hE : ∀ e, e ∈ E ↔ e ∈ events)
include h

omit E in
theorem Shows.sessionIds : (run.sessions.map (fun s => s.sessionId)).Nodup := by
  rw [← session_names, (h.facts.filterMap _).nodup_iff,
    filterMap_event_facts (g := AnyEvent.startsSession)]
  · exact h.sessions
  · rintro ⟨e, P⟩
    cases P <;> rfl

omit E in
theorem Shows.attemptIds : (run.attempts.map (fun a => a.attemptId)).Nodup := by
  rw [← attempt_names, (h.facts.filterMap _).nodup_iff,
    filterMap_event_facts (g := AnyEvent.startsAttempt)]
  · exact h.attempts
  · rintro ⟨e, P⟩
    cases P <;> rfl

omit E in
theorem Shows.stepIds : ((run.attempts.flatMap (fun a => a.steps.map (fun s => (a, s)))).map
    (fun t => (t.1.attemptId, t.2.stepId))).Nodup := by
  rw [← step_names, (h.facts.filterMap _).nodup_iff,
    filterMap_event_facts (g := AnyEvent.startsStep)]
  · exact h.steps
  · rintro ⟨e, P⟩
    cases P <;> rfl

include hE

theorem Shows.mem {f : Fact} : f ∈ run.facts ↔ ∃ e ∈ E, f ∈ e.facts := by
  rw [h.facts.mem_iff, List.mem_flatMap]
  simp [hE]

theorem Shows.session_finished {s : ProjectedSession} (hs : s ∈ run.sessions) :
    s.finished = true ↔ Derivation.SessionFinished E s.sessionId := by
  constructor
  · intro hfin
    have hmem : Fact.sessionFinished s.sessionId s.ending ∈ run.facts := by
      refine sessionFinished_mem_run.mpr ⟨s, hs, rfl, rfl, fun hu => ?_⟩
      rw [show s.finished = s.ending.finished from rfl, hu] at hfin
      cases hfin
    obtain ⟨e, he, hf⟩ := (h.mem hE).mp hmem
    obtain ⟨p, hp, hid, -⟩ := sessionFinished_mem.mp hf
    exact ⟨e, he, ⟨p, hp⟩, hid⟩
  · rintro ⟨e, he, ⟨p, hp⟩, hid⟩
    obtain ⟨s', hs', hid', hend, -⟩ := sessionFinished_mem_run.mp
      ((h.mem hE).mpr ⟨e, he, sessionFinished_mem.mpr ⟨p, hp, hid, rfl⟩⟩)
    obtain rfl := List.inj_on_of_nodup_map h.sessionIds hs' hs hid'
    exact congrArg Ending.finished hend

theorem Shows.attempt_finished {a : Attempt} (ha : a ∈ run.attempts) :
    a.finished = true ↔ Derivation.AttemptFinished E a.attemptId := by
  constructor
  · intro hfin
    have hmem : Fact.attemptFinished a.attemptId a.ending ∈ run.facts := by
      refine attemptFinished_mem_run.mpr ⟨a, ha, rfl, rfl, fun hu => ?_⟩
      rw [show a.finished = a.ending.finished from rfl, hu] at hfin
      cases hfin
    obtain ⟨e, he, hf⟩ := (h.mem hE).mp hmem
    obtain ⟨p, hp, hid, -⟩ := attemptFinished_mem.mp hf
    exact ⟨e, he, p, hp, hid⟩
  · rintro ⟨e, he, p, hp, hid⟩
    obtain ⟨a', ha', hid', hend, -⟩ := attemptFinished_mem_run.mp
      ((h.mem hE).mpr ⟨e, he, attemptFinished_mem.mpr ⟨p, hp, hid, rfl⟩⟩)
    obtain rfl := List.inj_on_of_nodup_map h.attemptIds ha' ha hid'
    exact congrArg Ending.finished hend

theorem Shows.step_finished {a : Attempt} (ha : a ∈ run.attempts) {s : Step} (hs : s ∈ a.steps) :
    s.finished = true ↔ Derivation.StepFinished E (a.attemptId, s.stepId) := by
  have hpair : ∀ {b : Attempt} {t : Step}, b ∈ run.attempts → t ∈ b.steps →
      (b, t) ∈ run.attempts.flatMap (fun a => a.steps.map (fun s => (a, s))) :=
    fun hb ht => List.mem_flatMap.mpr ⟨_, hb, List.mem_map_of_mem ht⟩
  constructor
  · intro hfin
    have hmem : Fact.stepFinished a.attemptId s.stepId s.ending ∈ run.facts := by
      refine stepFinished_mem_run.mpr ⟨a, ha, rfl, s, hs, rfl, rfl, fun hu => ?_⟩
      rw [show s.finished = s.ending.finished from rfl, hu] at hfin
      cases hfin
    obtain ⟨e, he, hf⟩ := (h.mem hE).mp hmem
    obtain ⟨p, hp, hid, hid', -⟩ := stepFinished_mem.mp hf
    exact ⟨e, he, p, hp, by rw [hid, hid']⟩
  · rintro ⟨e, he, p, hp, hid⟩
    obtain ⟨hid1, hid2⟩ := Prod.mk.inj hid
    obtain ⟨a', ha', hida, s', hs', hids, hend, -⟩ := stepFinished_mem_run.mp
      ((h.mem hE).mpr ⟨e, he, stepFinished_mem.mpr ⟨p, hp, hid1, hid2, rfl⟩⟩)
    obtain ⟨rfl, rfl⟩ := Prod.mk.inj (List.inj_on_of_nodup_map h.stepIds (hpair ha' hs') (hpair ha hs)
      (by rw [hida, hids]))
    exact congrArg Ending.finished hend

/-- Completeness can be read off the run. -/
theorem Shows.complete : run.recomputedComplete = true ↔ Derivation.NothingOpen E := by
  simp only [ProjectedRun.recomputedComplete, Bool.and_eq_true, List.all_eq_true]
  constructor
  · rintro ⟨hsess, hatt⟩
    refine ⟨?_, ?_, ?_⟩
    · rintro s ⟨e, he, ⟨p, hp⟩, rfl⟩
      obtain ⟨ps, hps, hid, -⟩ := sessionStarted_mem_run.mp
        ((h.mem hE).mpr ⟨e, he, sessionStarted_mem.mpr ⟨hp, rfl, rfl⟩⟩)
      exact hid ▸ (h.session_finished hE hps).mp (hsess ps hps)
    · rintro a ⟨e, he, p, hp, rfl⟩
      obtain ⟨x, hx, -, b, hb, -, -, rfl⟩ := attemptStarted_mem_run.mp
        ((h.mem hE).mpr ⟨e, he, attemptStarted_mem.mpr ⟨hp, rfl, rfl, rfl⟩⟩)
      have hb' := mem_attempts.mpr ⟨x, hx, hb⟩
      exact (h.attempt_finished hE hb').mp (hatt b hb').1
    · rintro s ⟨e, he, p, hp, rfl⟩
      obtain ⟨a, ha, t, ht, -, rfl⟩ := stepStarted_mem_run.mp
        ((h.mem hE).mpr ⟨e, he, stepStarted_mem.mpr ⟨hp, rfl⟩⟩)
      exact (h.step_finished hE ha ht).mp ((hatt a ha).2 t ht)
  · rintro ⟨hsess, hatt, hstep⟩
    refine ⟨fun s hs => ?_, fun a ha => ⟨?_, fun t ht => ?_⟩⟩
    · rw [h.session_finished hE hs]
      obtain ⟨e, he, hf⟩ := (h.mem hE).mp (sessionStarted_mem_run.mpr ⟨s, hs, rfl, rfl, rfl⟩)
      obtain ⟨hp, hid, -⟩ := sessionStarted_mem.mp hf
      exact hsess _ ⟨e, he, ⟨_, hp⟩, hid⟩
    · rw [h.attempt_finished hE ha]
      obtain ⟨x, hx, hax⟩ := mem_attempts.mp ha
      obtain ⟨e, he, hf⟩ := (h.mem hE).mp
        (attemptStarted_mem_run.mpr ⟨x, hx, rfl, a, hax, rfl, rfl, rfl⟩)
      exact hatt _ ⟨e, he, _, (attemptStarted_mem.mp hf).1, rfl⟩
    · rw [h.step_finished hE ha ht]
      obtain ⟨e, he, hf⟩ := (h.mem hE).mp (stepStarted_mem_run.mpr ⟨a, ha, t, ht, rfl, rfl⟩)
      exact hstep _ ⟨e, he, _, (stepStarted_mem.mp hf).1, rfl⟩

/-- The attempts with the highest number are the final attempts of the events. -/
theorem Shows.final {x : TestExecution} (hx : x ∈ run.executions) {a : Attempt}
    (ha : a ∈ x.attempts) : a ∈ x.finalAttempts ↔
      Derivation.FinalAttempt E ⟨a.attemptId, a.attemptNumber, a.test⟩ := by
  obtain ⟨e, he, hf⟩ := (h.mem hE).mp
    (attemptStarted_mem_run.mpr ⟨x, hx, rfl, a, ha, rfl, rfl, rfl⟩)
  obtain ⟨hp, hid, -, -⟩ := attemptStarted_mem.mp hf
  rw [TestExecution.finalAttempts, List.mem_filter, List.all_eq_true]
  constructor
  · rintro ⟨-, hmax⟩
    refine ⟨⟨e, he, hp⟩, fun e' he' q hq hqx => ?_⟩
    obtain ⟨x', hx', hid', b, hb, -, -, rfl⟩ := attemptStarted_mem_run.mp
      ((h.mem hE).mpr ⟨e', he', attemptStarted_mem.mpr ⟨hq, hqx.trans hid, rfl, rfl⟩⟩)
    obtain rfl := List.inj_on_of_nodup_map h.executions hx' hx hid'
    exact of_decide_eq_true (hmax b hb)
  · rintro ⟨-, hmax⟩
    refine ⟨ha, fun b hb => decide_eq_true ?_⟩
    obtain ⟨e', he', hf'⟩ := (h.mem hE).mp
      (attemptStarted_mem_run.mpr ⟨x, hx, rfl, b, hb, rfl, rfl, rfl⟩)
    obtain ⟨hq, hqid, -, -⟩ := attemptStarted_mem.mp hf'
    exact hmax e' he' _ hq (hqid.trans hid.symm)

/-- How the final attempts ended can be read off the run. -/
theorem Shows.any_final {f : Attempt → Bool} {g : AttemptFinishedPayload → Prop}
    (hopen : ∀ a : Attempt, a.status = none → f a = false)
    (hend : ∀ (a : Attempt) (q : AttemptFinishedPayload), a.status = some q.status →
      a.expectedStatus = q.expectedStatus → (f a = true ↔ g q)) :
    (run.executions.flatMap TestExecution.finalAttempts).any f = true ↔
      ∃ p q, Derivation.FinalAttempt E p ∧ Derivation.EndsWith E p.attemptId q ∧ g q := by
  simp only [List.any_eq_true, List.mem_flatMap]
  constructor
  · rintro ⟨a, ⟨x, hx, hfin⟩, hf⟩
    have ha : a ∈ x.attempts := List.mem_of_mem_filter hfin
    have hne : a.ending ≠ .unfinished := by
      intro hu
      rw [hopen a (congrArg Ending.status hu)] at hf
      cases hf
    obtain ⟨e, he, hfact⟩ := (h.mem hE).mp (attemptFinished_mem_run.mpr
      ⟨a, mem_attempts.mpr ⟨x, hx, ha⟩, rfl, rfl, hne⟩)
    obtain ⟨q, hq, hid, hending⟩ := attemptFinished_mem.mp hfact
    exact ⟨_, q, (h.final hE hx ha).mp hfin, ⟨e, he, hq, hid⟩,
      (hend a q (congrArg Ending.status hending) (congrArg Ending.expectedStatus hending)).mp hf⟩
  · rintro ⟨p, q, hfinal, ⟨e', he', hq, hid⟩, hg⟩
    obtain ⟨e, he, hp⟩ := hfinal.1
    obtain ⟨x, hx, -, a, ha, -, -, rfl⟩ := attemptStarted_mem_run.mp
      ((h.mem hE).mpr ⟨e, he, attemptStarted_mem.mpr ⟨hp, rfl, rfl, rfl⟩⟩)
    obtain ⟨b, hb, hidb, hending, -⟩ := attemptFinished_mem_run.mp
      ((h.mem hE).mpr ⟨e', he', attemptFinished_mem.mpr ⟨q, hq, hid, rfl⟩⟩)
    obtain rfl := List.inj_on_of_nodup_map h.attemptIds hb (mem_attempts.mpr ⟨x, hx, ha⟩) hidb
    exact ⟨b, ⟨x, hx, (h.final hE hx ha).mpr hfinal⟩,
      (hend b q (congrArg Ending.status hending) (congrArg Ending.expectedStatus hending)).mpr hg⟩

theorem Shows.any_session (status : SessionStatus) :
    run.sessions.any (fun s => s.status == some status) = true ↔
      ∃ e ∈ E, Derivation.SessionStatusIs status e := by
  simp only [List.any_eq_true, beq_iff_eq]
  constructor
  · rintro ⟨s, hs, hst⟩
    have hne : s.ending ≠ .unfinished := by
      intro hu
      have hnone : s.status = none := congrArg Ending.status hu
      rw [hnone] at hst
      cases hst
    obtain ⟨e, he, hf⟩ := (h.mem hE).mp (sessionFinished_mem_run.mpr ⟨s, hs, rfl, rfl, hne⟩)
    obtain ⟨p, hp, -, hending⟩ := sessionFinished_mem.mp hf
    exact ⟨e, he, p, hp, (congrArg Ending.status hending).symm.trans hst⟩
  · rintro ⟨e, he, p, hp, hst⟩
    obtain ⟨s, hs, -, hending, -⟩ := sessionFinished_mem_run.mp
      ((h.mem hE).mpr ⟨e, he, sessionFinished_mem.mpr ⟨p, hp, rfl, rfl⟩⟩)
    exact ⟨s, hs, (congrArg Ending.status hending).trans hst⟩

theorem Shows.any_scope :
    (!run.scopeFailures.isEmpty) = true ↔ ∃ e ∈ E, ∃ p, e.payload = .scopeFailed p := by
  rw [Bool.not_eq_true', List.isEmpty_eq_false_iff_exists_mem]
  constructor
  · rintro ⟨f, hf⟩
    obtain ⟨e, he, hfact⟩ := (h.mem hE).mp (scopeFailed_mem_run.mpr hf)
    obtain ⟨p, hp, -⟩ := scopeFailed_mem.mp hfact
    exact ⟨e, he, p, hp⟩
  · rintro ⟨e, he, p, hp⟩
    exact ⟨_, scopeFailed_mem_run.mp ((h.mem hE).mpr ⟨e, he, scopeFailed_mem.mpr ⟨p, hp, rfl⟩⟩)⟩

theorem Shows.failed :
    ((run.executions.flatMap TestExecution.finalAttempts).any Attempt.unexpected ||
      !run.scopeFailures.isEmpty || run.sessions.any (fun s => s.status == some .failed)) = true ↔
      Derivation.Failed E := by
  rw [Bool.or_eq_true, Bool.or_eq_true, h.any_scope hE, h.any_session hE,
    h.any_final hE (g := Derivation.Unexpected), or_assoc, Derivation.Failed]
  · intro a ha
    simp [Attempt.unexpected, ha]
  · intro a q hst hex
    simp [Attempt.unexpected, expected, Derivation.Unexpected, hst, hex]

theorem Shows.inconclusive :
    ((run.executions.flatMap TestExecution.finalAttempts).any
        (fun a => a.status == some .inconclusive) ||
      run.sessions.any (fun s => s.status == some .inconclusive)) = true ↔
      Derivation.Inconclusive E := by
  rw [Bool.or_eq_true, h.any_session hE, h.any_final hE (g := fun q => q.status = .inconclusive),
    Derivation.Inconclusive]
  · intro a ha
    simp [ha]
  · intro a q hst _
    simp [hst]

/-- The verdict can be read off the run. -/
theorem Shows.verdict : run.recomputedVerdict = (derive E).verdict := by
  have hcomplete : (!run.recomputedComplete) = true ↔ ¬ Derivation.NothingOpen E := by
    rw [← h.complete hE]
    simp
  simp only [ProjectedRun.recomputedVerdict, derive]
  congr
  · exact propext hcomplete
  · exact propext (h.failed hE)
  · exact propext (h.inconclusive hE)

end reading

/-! ### Valid runs -/

section valid
variable {l : Log} (h : Lifecycle l) (hnodup : l.Nodup)
include h hnodup

/-- The projected run shows the facts of the log exactly when their targets come first. -/
theorem facts_perm_iff {xs : List TestExecution}
    (hxs : groupExecutions (projected l).attempts (projected l).sessions = .ok xs)
    (projectId runId runDirectory : Text) (summary : Summary) :
    (runOf projectId runId runDirectory summary (projected l) xs).facts.Perm
        ((l.filterMap AnyEvent.known?).flatMap Event.facts) ↔ TargetsFirst l := by
  obtain ⟨lost, hlost, hnone⟩ := projectEvents_facts (ordered_once h)
  have hsame : ((ordered (l.filterMap AnyEvent.known?)).flatMap Event.facts : Multiset Fact) =
      ((l.filterMap AnyEvent.known?).flatMap Event.facts : List Fact) :=
    Multiset.coe_eq_coe.mpr (List.Perm.flatMap_right _ (sortBy_perm _))
  rw [← Multiset.coe_eq_coe, runOf_facts hxs, ← hsame, ← hlost]
  have hzero : (projected l).facts = (projected l).facts + lost ↔ lost = 0 := by
    rw [eq_comm, add_eq_left]
  exact (hzero.trans hnone).trans
    ⟨targetsFirst_of_known h hnodup, known_of_targetsFirst h hnodup⟩

theorem runOf_shows {xs : List TestExecution}
    (hxs : groupExecutions (projected l).attempts (projected l).sessions = .ok xs)
    (ht : TargetsFirst l) (projectId runId runDirectory : Text) (summary : Summary) :
    Shows (runOf projectId runId runDirectory summary (projected l) xs)
      (l.filterMap AnyEvent.known?) where
  facts := (facts_perm_iff h hnodup hxs projectId runId runDirectory summary).mpr ht
  executions := executionIds_nodup hxs
  sessions := by
    have hperm : (Log.startedSessions (logOfEvents (l.filterMap AnyEvent.known?))).Perm
        l.startedSessions :=
      (((sortBy_perm _).map _).filterMap _).symm.trans (filterMap_ordered (fun _ => rfl))
    rw [hperm.nodup_iff, startedSessions_eq]
    exact startedSessions_nodup h
  attempts := by
    have hperm : (Log.attempts (logOfEvents (l.filterMap AnyEvent.known?))).Perm l.attempts :=
      (((sortBy_perm _).map _).filterMap _).symm.trans (filterMap_ordered (fun _ => rfl))
    exact hperm.nodup_iff.mpr (attempts_nodup h)
  steps := by
    have hperm : (Log.steps (logOfEvents (l.filterMap AnyEvent.known?))).Perm l.steps :=
      (((sortBy_perm _).map _).filterMap _).symm.trans (filterMap_ordered (fun _ => rfl))
    exact hperm.nodup_iff.mpr (steps_nodup h)

/-- Each session of the projected run lists the executions of its attempts. -/
theorem runOf_executionIds {xs : List TestExecution}
    (hxs : groupExecutions (projected l).attempts (projected l).sessions = .ok xs)
    (ht : TargetsFirst l) (projectId runId runDirectory : Text) (summary : Summary)
    {s : ProjectedSession}
    (hs : s ∈ (runOf projectId runId runDirectory summary (projected l) xs).sessions) :
    s.executionIds.Nodup ∧ ∀ x, x ∈ s.executionIds ↔
      ∃ t ∈ xs, t.executionId = x ∧ ∃ a ∈ t.attempts, a.sessionId = s.sessionId := by
  obtain ⟨ss, hss, rfl⟩ := List.mem_map.mp (mem_sortBy.mp hs)
  obtain ⟨k, hk⟩ := JsMap.mem_values.mp hss
  have htrack := ((projectEvents_executions (ordered_opens h hnodup)).some k ss hk).2
  have hkey := ((projected_tracks h).sessions.some k ss hk).2.key
  have hshows := runOf_shows h hnodup hxs ht projectId runId runDirectory summary
  refine ⟨(sortBy_perm _).nodup_iff.mpr htrack.nodup, fun x => ?_⟩
  have hmem : x ∈ (session ss).executionIds ↔ x ∈ ss.executionIds := mem_sortBy
  rw [hmem, htrack.mem, (filterMap_ordered (fun _ => rfl)).mem_iff, List.mem_filterMap]
  constructor
  · rintro ⟨e, he, hex⟩
    unfold executionIn at hex
    split at hex
    · rename_i p hp
      split_ifs at hex with hsess
      obtain ⟨e, rfl, hpay⟩ := AnyEvent.payload?_eq_some.mp hp
      have hfact : Fact.attemptStarted p.test.executionId e.sessionId e.occurredAt p ∈
          (runOf projectId runId runDirectory summary (projected l) xs).facts :=
        hshows.facts.mem_iff.mpr (List.mem_flatMap.mpr ⟨e, List.mem_filterMap.mpr ⟨_, he, rfl⟩,
          attemptStarted_mem.mpr ⟨hpay, rfl, rfl, rfl⟩⟩)
      obtain ⟨t, ht, hid, a, ha, has, -, -⟩ := attemptStarted_mem_run.mp hfact
      exact ⟨t, ht, hid.trans (Option.some.inj hex), a, ha, has.trans (hsess.trans hkey.symm)⟩
    · cases hex
  · rintro ⟨t, ht, rfl, a, ha, has⟩
    have hfact := hshows.facts.mem_iff.mp
      (attemptStarted_mem_run.mpr ⟨t, ht, rfl, a, ha, rfl, rfl, rfl⟩)
    obtain ⟨e, he, hf⟩ := List.mem_flatMap.mp hfact
    obtain ⟨hp, hid, hsess, -⟩ := attemptStarted_mem.mp hf
    obtain ⟨y, hy, hye⟩ := List.mem_filterMap.mp he
    cases y with
    | unknown u => cases hye
    | known k' =>
        obtain rfl := Option.some.inj hye
        refine ⟨_, hy, ?_⟩
        have hpay : (AnyEvent.known k').payload? = some (.attemptStarted
            ⟨a.attemptId, a.attemptNumber, a.test⟩) := congrArg some hp
        have hk' : (AnyEvent.known k').session = k := hsess.trans (has.trans hkey)
        simp only [executionIn, hpay, if_pos hk']
        exact congrArg some hid

end valid

/-- Projection loses and invents nothing, and the completeness and the verdict read off the
projected run are those of the validator, exactly when no attempt or step of the valid run is
started in a higher session than that of an event that names it. -/
theorem projection_faithful_iff (rt : Runtime) (fs : FileSystem) (options : ValidateOptions)
    (calls : List FeedCall) (hvalid : (reportOf rt fs options calls).valid = true)
    (hne : (snapshotOf rt fs options calls).events ≠ []) (projectId runDirectory : Text) :
    (∃ run, projectRun projectId runDirectory (snapshotOf rt fs options calls) = .ok run ∧
      Faithful run (snapshotOf rt fs options calls).events ∧
      run.recomputedComplete = (reportOf rt fs options calls).summary.complete ∧
      run.recomputedVerdict = (reportOf rt fs options calls).summary.verdict ∧
      run.validator.complete = (reportOf rt fs options calls).summary.complete ∧
      run.validator.verdict = (reportOf rt fs options calls).summary.verdict) ↔
    TargetsFirst (runLog rt options calls) := by
  have hv := (valid_iff rt fs options calls).mp hvalid
  have hnodup : (runLog rt options calls).Nodup := logOf_nodup _
  have hevents := snapshot_events hv hne
  obtain ⟨runId, xs, hxs, hrun⟩ :=
    projectRun_eq hv.lifecycle hvalid hevents hne projectId runDirectory
  rw [hrun]
  constructor
  · rintro ⟨run, hok, hfaithful, -⟩
    cases hok
    rw [hevents] at hfaithful
    exact (facts_perm_iff hv.lifecycle hnodup hxs _ _ _ _).mp hfaithful.facts
  · intro ht
    have hshows := runOf_shows hv.lifecycle hnodup hxs ht projectId runId runDirectory
      (snapshotOf rt fs options calls).report.summary
    have hE : ∀ e, e ∈ (acceptedEvents rt options calls).toFinset ↔
        e ∈ (runLog rt options calls).filterMap AnyEvent.known? := by
      intro e
      rw [List.mem_toFinset, acceptedEvents_eq hv]
    have hfacts := summary_facts hv
    refine ⟨_, rfl, ?_, ?_, ?_, rfl, rfl⟩
    · rw [hevents]
      exact ⟨hshows.facts, hshows.executions,
        fun s hs => (runOf_executionIds hv.lifecycle hnodup hxs ht _ _ _ _ hs).1,
        fun s hs => (runOf_executionIds hv.lifecycle hnodup hxs ht _ _ _ _ hs).2⟩
    · classical
      have hcomplete : (reportOf rt fs options calls).summary.complete =
          (derive (acceptedEvents rt options calls).toFinset).complete :=
        congrArg RunFacts.complete hfacts
      rw [hcomplete, Bool.eq_iff_iff, hshows.complete hE]
      simp only [derive, decide_eq_true_eq]
    · rw [hshows.verdict hE]
      exact (congrArg RunFacts.verdict hfacts).symm

theorem projection_faithful_forked :
    ∃ run, projectRun (txt "p") (txt "d")
        (snapshotOf Sample.runtime Sample.noFiles Sample.options Sample.forked) = .ok run ∧
      Faithful run (snapshotOf Sample.runtime Sample.noFiles Sample.options Sample.forked).events := by
  obtain ⟨hvalid, hne, htargets⟩ :
      (reportOf Sample.runtime Sample.noFiles Sample.options Sample.forked).valid = true ∧
        (snapshotOf Sample.runtime Sample.noFiles Sample.options Sample.forked).events ≠ [] ∧
        TargetsFirst (runLog Sample.runtime Sample.options Sample.forked) := by
    decide +kernel
  obtain ⟨run, hrun, hfaithful, -⟩ := (projection_faithful_iff Sample.runtime Sample.noFiles
    Sample.options Sample.forked hvalid hne (txt "p") (txt "d")).mpr htargets
  exact ⟨run, hrun, hfaithful⟩

/-- Session `a` finishes the attempt that session `z` started: the run is complete, and its
projection shows an attempt that never ended. -/
theorem projection_faithful_crossed :
    ¬ ∀ (rt : Runtime) (fs : FileSystem) (options : ValidateOptions) (calls : List FeedCall),
      (reportOf rt fs options calls).valid = true →
      (snapshotOf rt fs options calls).events ≠ [] → ∀ projectId runDirectory,
      ∃ run, projectRun projectId runDirectory (snapshotOf rt fs options calls) = .ok run ∧
        Faithful run (snapshotOf rt fs options calls).events ∧
        run.recomputedComplete = (reportOf rt fs options calls).summary.complete ∧
        run.recomputedVerdict = (reportOf rt fs options calls).summary.verdict := by
  intro h
  obtain ⟨hvalid, hne, hopen, hclosed⟩ :
      (reportOf Sample.runtime Sample.noFiles Sample.options Sample.crossed).valid = true ∧
        (snapshotOf Sample.runtime Sample.noFiles Sample.options Sample.crossed).events ≠ [] ∧
        (projectRun (txt "p") (txt "d") (snapshotOf Sample.runtime Sample.noFiles
          Sample.options Sample.crossed)).toOption.map ProjectedRun.recomputedComplete =
            some false ∧
        (reportOf Sample.runtime Sample.noFiles Sample.options
          Sample.crossed).summary.complete = true := by
    decide +kernel
  obtain ⟨run, hrun, -, hcomplete, -⟩ := h Sample.runtime Sample.noFiles Sample.options
    Sample.crossed hvalid hne (txt "p") (txt "d")
  rw [hrun] at hopen
  rw [hclosed] at hcomplete
  simp [Except.toOption, hcomplete] at hopen

end QeReport

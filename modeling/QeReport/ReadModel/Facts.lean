import Mathlib.Algebra.BigOperators.Group.Multiset.Basic
import QeReport.ReadModel.Projection

/-! # The facts of a run

A `Fact` is what one event says about the thing it names, and `ProjectedRun.facts` reads back
the facts that a projected run shows, each with the session, attempt, step or list it stands on.
The projector keeps a balance: after any events, the facts of its state together with those it
lost are the facts of the events, and it lost none exactly when each event came after the one
that starts what it names (`projectEvents_facts`). -/

namespace QeReport

open GuardedLog

/-! ### Facts -/

/-- What a finished event leaves on a session, an attempt or a step. -/
structure Ending (S : Type) where
  finished : Bool
  finishedAt : Option Text
  status : Option S
  rawStatus : Option Text
  expectedStatus : Option ExpectedStatus
  durationMs : Option ℤ
  failures : List Failure
deriving DecidableEq

/-- One fact, with the name of the thing it stands on. -/
inductive Fact where
  | sessionStarted (sessionId startedAt : Text) (p : SessionStartedPayload)
  | sessionFinished (sessionId : Text) (ending : Ending SessionStatus)
  | attemptStarted (executionId sessionId startedAt : Text) (p : AttemptStartedPayload)
  | attemptFinished (attemptId : Text) (ending : Ending Status)
  | stepStarted (startedAt : Text) (p : StepStartedPayload)
  | stepFinished (attemptId stepId : Text) (ending : Ending Status)
  /-- On the list of the attempt. -/
  | attachmentOf (attemptId : Text) (r : AttachmentReference)
  /-- On the list of the run. -/
  | attachment (r : AttachmentReference)
  | scopeFailed (f : ScopeFailure)
deriving DecidableEq

/-- Nothing was left. -/
def Ending.unfinished {S : Type} : Ending S := ⟨false, none, none, none, none, none, []⟩

def Ending.facts {S : Type} [DecidableEq S] (mk : Ending S → Fact) (e : Ending S) : List Fact :=
  if e = .unfinished then [] else [mk e]

def ProjectedSession.ending (s : ProjectedSession) : Ending SessionStatus :=
  ⟨s.finished, s.finishedAt, s.status, s.rawStatus, none, none, s.failures⟩

def ProjectedSession.start (s : ProjectedSession) : Fact :=
  .sessionStarted s.sessionId s.startedAt
    ⟨s.producer, s.runner, s.environment, s.executor, s.source, s.labels⟩

def ProjectedSession.facts (s : ProjectedSession) : List Fact :=
  s.start :: s.ending.facts (.sessionFinished s.sessionId)

def Step.ending (s : Step) : Ending Status :=
  ⟨s.finished, s.finishedAt, s.status, s.rawStatus, none, s.durationMs, s.failures⟩

def Step.start (attemptId : Text) (s : Step) : Fact :=
  .stepStarted s.startedAt ⟨s.stepId, attemptId, s.parentStepId, s.name, s.kind, s.location⟩

def Step.facts (attemptId : Text) (s : Step) : List Fact :=
  s.start attemptId :: s.ending.facts (.stepFinished attemptId s.stepId)

def Attempt.ending (a : Attempt) : Ending Status :=
  ⟨a.finished, a.finishedAt, a.status, a.rawStatus, a.expectedStatus, a.durationMs, a.failures⟩

def Attempt.start (executionId : Text) (a : Attempt) : Fact :=
  .attemptStarted executionId a.sessionId a.startedAt ⟨a.attemptId, a.attemptNumber, a.test⟩

def Attempt.facts (executionId : Text) (a : Attempt) : List Fact :=
  a.start executionId ::
  (a.ending.facts (.attemptFinished a.attemptId) ++ a.steps.flatMap (Step.facts a.attemptId) ++
    a.attachments.map (.attachmentOf a.attemptId))

def TestExecution.facts (x : TestExecution) : List Fact :=
  x.attempts.flatMap (Attempt.facts x.executionId)

/-- Every fact a projected run shows. -/
def ProjectedRun.facts (run : ProjectedRun) : List Fact :=
  run.sessions.flatMap ProjectedSession.facts ++ run.executions.flatMap TestExecution.facts ++
    run.attachments.map .attachment ++ run.scopeFailures.map .scopeFailed

/-- The facts an event states. -/
def Event.facts (e : Event) : List Fact :=
  match e.payload with
  | .sessionStarted p => [.sessionStarted e.sessionId e.occurredAt p]
  | .sessionFinished p =>
      [.sessionFinished e.sessionId
        ⟨true, some e.occurredAt, p.status, p.rawStatus, none, none, p.failures.getD []⟩]
  | .runFinished => []
  | .attemptStarted p =>
      [.attemptStarted p.test.executionId e.sessionId e.occurredAt p]
  | .attemptFinished p =>
      [.attemptFinished p.attemptId
        ⟨true, some e.occurredAt, some p.status, p.rawStatus, p.expectedStatus, p.durationMs,
          p.failures.getD []⟩]
  | .stepStarted p => [.stepStarted e.occurredAt p]
  | .stepFinished p =>
      [.stepFinished p.attemptId p.stepId
        ⟨true, some e.occurredAt, some p.status, p.rawStatus, none, p.durationMs,
          p.failures.getD []⟩]
  | .attachmentAdded p =>
      [.attachmentOf p.attemptId (Projector.reference e.toEnvelope p),
        .attachment (Projector.reference e.toEnvelope p)]
  | .scopeFailed p => [.scopeFailed (Projector.scopeFailure e.toEnvelope p)]

theorem Ending.facts_of_finished {S : Type} [DecidableEq S] {mk : Ending S → Fact} {e : Ending S}
    (h : e.finished = true) : e.facts mk = [mk e] := by
  refine if_neg (fun he => ?_)
  rw [he] at h
  cases h

@[simp] theorem Ending.facts_unfinished {S : Type} [DecidableEq S] {mk : Ending S → Fact} :
    Ending.facts mk .unfinished = [] := if_pos rfl

/-! ### What an event needs -/

/-- What the event names stands in the log. -/
def Known (l : Log) (e : AnyEvent) : Prop :=
  match e.payload? with
  | some (.sessionFinished _) => e.session ∈ l.startedSessions
  | some (.attemptFinished p) => p.attemptId ∈ l.attempts
  | some (.stepStarted p) => p.attemptId ∈ l.attempts
  | some (.stepFinished p) => StepPlaced l (p.attemptId, p.stepId)
  | some (.attachmentAdded p) => p.attemptId ∈ l.attempts
  | _ => True

/-! ### Sums of facts -/

theorem coe_flatMap {α β : Type} (f : α → List β) (l : List α) :
    ((l.flatMap f : List β) : Multiset β) = (l.map (fun a => (f a : Multiset β))).sum := by
  induction l with
  | nil => rfl
  | cons a l ih => rw [List.flatMap_cons, ← Multiset.coe_add, ih, List.map_cons, List.sum_cons]

/-- What a change adds to one element it adds to the sum. -/
theorem sum_map_modify {α M : Type} [AddCommMonoid M] {f : α → M} {g : α → α} {l : List α} {i : ℕ}
    {a : α} {d : M} (h : l[i]? = some a) (hd : f (g a) = f a + d) :
    ((l.modify i g).map f).sum = (l.map f).sum + d := by
  induction l generalizing i with
  | nil => simp at h
  | cons b l ih =>
      cases i with
      | zero =>
          rw [List.getElem?_cons_zero, Option.some_inj] at h
          subst h
          rw [List.modify_zero_cons, List.map_cons, List.sum_cons, hd, List.map_cons, List.sum_cons]
          ac_rfl
      | succ i =>
          rw [List.getElem?_cons_succ] at h
          rw [List.modify_succ_cons, List.map_cons, List.sum_cons, ih h, List.map_cons, List.sum_cons,
            add_assoc]

namespace Projector

/-- The facts of an attempt under its own execution. -/
def attemptFacts (a : AttemptState) : Multiset Fact :=
  (attempt a).facts a.started.payload.test.executionId

/-- The facts that the state of the loop shows. -/
def State.facts (st : State) : Multiset Fact :=
  st.sessions.total (fun s => ((session s).facts : Multiset Fact)) +
    st.attempts.total attemptFacts + (st.emitted.map (fun e => Fact.attachment e.reference) : List Fact) +
    (st.scopeFailures.map Fact.scopeFailed : List Fact)

section changes
variable {e : Envelope}

theorem session_facts_finish {s : SessionState} (h : s.finished = none)
    (p : SessionFinishedPayload) :
    ((session { s with finished := some ⟨e, p⟩ }).facts : Multiset Fact) =
      (session s).facts + {.sessionFinished s.started.sessionId
        ⟨true, some e.occurredAt, p.status, p.rawStatus, none, none, p.failures.getD []⟩} := by
  have hopen : (session s).ending = .unfinished := by
    simp [session, ProjectedSession.ending, Ending.unfinished, h]
  have hend : (session { s with finished := some ⟨e, p⟩ }).ending =
      ⟨true, some e.occurredAt, p.status, p.rawStatus, none, none, p.failures.getD []⟩ := by
    simp [session, ProjectedSession.ending]
  rw [ProjectedSession.facts, ProjectedSession.facts, hopen, hend, Ending.facts_unfinished,
    Ending.facts_of_finished rfl]
  rfl

theorem session_facts_executionIds (s : SessionState) (ids : List Text) :
    (session { s with executionIds := ids }).facts = (session s).facts := rfl

theorem attemptFacts_eq (a : AttemptState) :
    attemptFacts a =
      {.attemptStarted a.started.payload.test.executionId a.started.sessionId a.started.occurredAt
        a.started.payload} +
      (((attempt a).ending.facts (.attemptFinished a.started.payload.attemptId) : List Fact) +
        (a.steps.map (fun s =>
          ((step s).facts a.started.payload.attemptId : Multiset Fact))).sum +
        (a.attachments.map (Fact.attachmentOf a.started.payload.attemptId) : List Fact)) := by
  have hsteps : ((attempt a).steps.flatMap (Step.facts (attempt a).attemptId) : Multiset Fact) =
      (a.steps.map (fun s => ((step s).facts a.started.payload.attemptId : Multiset Fact))).sum := by
    rw [coe_flatMap]
    simp only [attempt, List.map_map]
    rfl
  rw [attemptFacts, Attempt.facts, ← Multiset.cons_coe, ← Multiset.coe_add, ← Multiset.coe_add,
    hsteps, ← Multiset.singleton_add]
  rfl

theorem attemptFacts_started (p : AttemptStartedPayload) :
    attemptFacts ⟨⟨e, p⟩, none, [], .empty, []⟩ =
      {.attemptStarted p.test.executionId e.sessionId e.occurredAt p} := rfl

theorem attemptFacts_finish {a : AttemptState} (h : a.finished = none) (p : AttemptFinishedPayload) :
    attemptFacts { a with finished := some ⟨e, p⟩ } =
      attemptFacts a + {.attemptFinished a.started.payload.attemptId
        ⟨true, some e.occurredAt, some p.status, p.rawStatus, p.expectedStatus, p.durationMs,
          p.failures.getD []⟩} := by
  have hopen : (attempt a).ending = .unfinished := by
    simp [attempt, Attempt.ending, Ending.unfinished, h]
  have hend : (attempt { a with finished := some ⟨e, p⟩ }).ending =
      ⟨true, some e.occurredAt, some p.status, p.rawStatus, p.expectedStatus, p.durationMs,
        p.failures.getD []⟩ := by
    simp [attempt, Attempt.ending]
  rw [attemptFacts_eq, attemptFacts_eq, hopen, hend, Ending.facts_unfinished,
    Ending.facts_of_finished rfl, Multiset.coe_nil, Multiset.coe_singleton]
  ac_rfl

/-- What is added to the facts of the steps is added to those of the attempt. -/
theorem attemptFacts_steps (a : AttemptState) {steps : List StepState} (byId : JsMap Text ℕ)
    {d : Multiset Fact}
    (h : (steps.map (fun s => ((step s).facts a.started.payload.attemptId : Multiset Fact))).sum =
      (a.steps.map (fun s => ((step s).facts a.started.payload.attemptId : Multiset Fact))).sum + d) :
    attemptFacts { a with steps := steps, stepsById := byId } = attemptFacts a + d := by
  have hend : (attempt { a with steps := steps, stepsById := byId }).ending = (attempt a).ending := rfl
  rw [attemptFacts_eq, attemptFacts_eq a, hend, h]
  ac_rfl

theorem attemptFacts_addStep (a : AttemptState) (p : StepStartedPayload)
    (h : p.attemptId = a.started.payload.attemptId) :
    attemptFacts (a.addStep ⟨e, p⟩) = attemptFacts a + {.stepStarted e.occurredAt p} := by
  have hstep : (step ⟨⟨e, p⟩, none⟩).facts a.started.payload.attemptId =
      [.stepStarted e.occurredAt p] := by
    rw [← h]
    rfl
  refine attemptFacts_steps a _ ?_
  rw [List.map_append, List.sum_append, List.map_singleton, List.sum_singleton, hstep,
    Multiset.coe_singleton]

theorem step_facts_finish {s : StepState} (h : s.finished = none) (attemptId : Text)
    (p : StepFinishedPayload) :
    ((step { s with finished := some ⟨e, p⟩ }).facts attemptId : Multiset Fact) =
      (step s).facts attemptId + {.stepFinished attemptId s.started.payload.stepId
        ⟨true, some e.occurredAt, some p.status, p.rawStatus, none, p.durationMs,
          p.failures.getD []⟩} := by
  have hopen : (step s).ending = .unfinished := by
    simp [step, Step.ending, Ending.unfinished, h]
  have hend : (step { s with finished := some ⟨e, p⟩ }).ending =
      ⟨true, some e.occurredAt, some p.status, p.rawStatus, none, p.durationMs,
        p.failures.getD []⟩ := by
    simp [step, Step.ending]
  rw [Step.facts, Step.facts, hopen, hend, Ending.facts_unfinished, Ending.facts_of_finished rfl]
  rfl

theorem attemptFacts_finishStep {a : AttemptState} {p : StepFinishedPayload} {i : ℕ} {t : StepState}
    (hid : a.stepsById.get? p.stepId = some i) (ht : a.steps[i]? = some t)
    (hkey : t.started.payload.stepId = p.stepId) (hopen : t.finished = none)
    (h : p.attemptId = a.started.payload.attemptId) :
    attemptFacts (a.finishStep ⟨e, p⟩) =
      attemptFacts a + {.stepFinished p.attemptId p.stepId
        ⟨true, some e.occurredAt, some p.status, p.rawStatus, none, p.durationMs,
          p.failures.getD []⟩} := by
  rw [AttemptState.finishStep, hid]
  refine attemptFacts_steps a _ (sum_map_modify ht ?_)
  rw [step_facts_finish hopen, hkey, h]

theorem attemptFacts_attach (a : AttemptState) (r : AttachmentReference) :
    attemptFacts { a with attachments := a.attachments ++ [r] } =
      attemptFacts a + {.attachmentOf a.started.payload.attemptId r} := by
  have hend : (attempt { a with attachments := a.attachments ++ [r] }).ending = (attempt a).ending :=
    rfl
  rw [attemptFacts_eq, attemptFacts_eq a, hend, List.map_append, ← Multiset.coe_add,
    List.map_singleton, Multiset.coe_singleton]
  ac_rfl

end changes

/-! ### The balance -/

section balance
variable {l : Log} {st : State}

theorem Tracks.session_unknown {s : Text} (h : Tracks l st) (hs : s ∉ l.startedSessions) :
    st.sessions.get? s = none := by
  cases hget : st.sessions.get? s with
  | none => rfl
  | some ss => exact absurd (h.sessions.some s ss hget).1 hs

theorem Tracks.attempt_unknown {a : Text} (h : Tracks l st) (ha : a ∉ l.attempts) :
    st.attempts.get? a = none := by
  cases hget : st.attempts.get? a with
  | none => rfl
  | some as => exact absurd (h.attempts.some a as hget).1 ha

theorem State.facts_sessions (st : State) {m : JsMap Text SessionState} {d : Multiset Fact}
    (h : m.total (fun s => ((session s).facts : Multiset Fact)) =
      st.sessions.total (fun s => ((session s).facts : Multiset Fact)) + d) :
    ({ st with sessions := m } : State).facts = st.facts + d := by
  simp only [State.facts, h]
  ac_rfl

theorem State.facts_attempts (st : State) {m : JsMap Text AttemptState} {d : Multiset Fact}
    (h : m.total attemptFacts = st.attempts.total attemptFacts + d) :
    ({ st with attempts := m } : State).facts = st.facts + d := by
  simp only [State.facts, h]
  ac_rfl

/-- An event adds its facts to the state, apart from what it loses: nothing exactly when what it
names is known. -/
def Balanced (l : Log) (st st' : State) (k : Event) : Prop :=
  ∃ lost : Multiset Fact, st'.facts + lost = st.facts + k.facts ∧
    (lost = 0 ↔ Known l (.known k))

theorem Balanced.kept {st' : State} {k : Event} (h : st'.facts = st.facts + k.facts)
    (hk : Known l (.known k)) : Balanced l st st' k :=
  ⟨0, by rw [add_zero, h], iff_of_true rfl hk⟩

theorem Balanced.lost {st' : State} {k : Event} (lost : Multiset Fact)
    (h : st'.facts + lost = st.facts + k.facts) (hne : lost ≠ 0) (hk : ¬ Known l (.known k)) :
    Balanced l st st' k :=
  ⟨lost, h, iff_of_false hne hk⟩

variable {e : Envelope} (h : Tracks l st)
include h

theorem balanced_sessionStarted (p : SessionStartedPayload) (hnew : e.sessionId ∉ l.startedSessions) :
    Balanced l st (projectPayload st e (.sessionStarted p)) ⟨e, .sessionStarted p⟩ :=
  .kept (State.facts_sessions _ (JsMap.total_set_of_none _ _ (h.session_unknown hnew))) trivial

theorem balanced_sessionFinished (p : SessionFinishedPayload)
    (hnew : e.sessionId ∉ l.finishedSessions) :
    Balanced l st (projectPayload st e (.sessionFinished p)) ⟨e, .sessionFinished p⟩ := by
  cases hget : st.sessions.get? e.sessionId with
  | none =>
      refine .lost (Event.facts ⟨e, .sessionFinished p⟩) ?_ (by simp [Event.facts])
        (h.sessions.none _ hget)
      simp only [projectPayload, JsMap.update_of_none _ hget]
  | some ss =>
      obtain ⟨hknown, htracks⟩ := h.sessions.some _ ss hget
      have hopen : ss.finished = none := by
        by_contra hs
        exact hnew (htracks.finished (Option.isSome_iff_ne_none.mpr hs))
      refine .kept (State.facts_sessions _ (JsMap.total_update _ hget ?_)) hknown
      rw [session_facts_finish hopen, htracks.key]
      rfl

theorem balanced_attemptStarted (p : AttemptStartedPayload) (hnew : p.attemptId ∉ l.attempts) :
    Balanced l st (projectPayload st e (.attemptStarted p)) ⟨e, .attemptStarted p⟩ := by
  refine .kept ?_ trivial
  have hsessions : (st.sessions.update e.sessionId (fun s =>
      { s with executionIds := addTo s.executionIds p.test.executionId })).total
        (fun s => ((session s).facts : Multiset Fact)) =
      st.sessions.total (fun s => ((session s).facts : Multiset Fact)) + 0 := by
    rw [add_zero]
    exact JsMap.total_update_same _ (fun s => by rw [session_facts_executionIds])
  have hattempts := JsMap.total_set_of_none attemptFacts ⟨⟨e, p⟩, none, [], .empty, []⟩
    (h.attempt_unknown hnew)
  have hone := State.facts_attempts st hattempts
  have hboth := State.facts_sessions { st with
    attempts := st.attempts.set p.attemptId ⟨⟨e, p⟩, none, [], .empty, []⟩ } hsessions
  rw [add_zero, hone] at hboth
  exact hboth

theorem balanced_attemptFinished (p : AttemptFinishedPayload)
    (hnew : p.attemptId ∉ l.finishedAttempts) :
    Balanced l st (projectPayload st e (.attemptFinished p)) ⟨e, .attemptFinished p⟩ := by
  cases hget : st.attempts.get? p.attemptId with
  | none =>
      refine .lost (Event.facts ⟨e, .attemptFinished p⟩) ?_ (by simp [Event.facts])
        (h.attempts.none _ hget)
      simp only [projectPayload, JsMap.update_of_none _ hget]
  | some a =>
      obtain ⟨hknown, htracks⟩ := h.attempts.some _ a hget
      have hopen : a.finished = none := by
        by_contra hs
        exact hnew (htracks.finished (Option.isSome_iff_ne_none.mpr hs))
      refine .kept (State.facts_attempts _ (JsMap.total_update _ hget ?_)) hknown
      rw [attemptFacts_finish hopen, htracks.key]
      rfl

theorem balanced_stepStarted (p : StepStartedPayload) :
    Balanced l st (projectPayload st e (.stepStarted p)) ⟨e, .stepStarted p⟩ := by
  cases hget : st.attempts.get? p.attemptId with
  | none =>
      refine .lost (Event.facts ⟨e, .stepStarted p⟩) ?_ (by simp [Event.facts])
        (h.attempts.none _ hget)
      simp only [projectPayload, JsMap.update_of_none _ hget]
  | some a =>
      obtain ⟨hknown, htracks⟩ := h.attempts.some _ a hget
      exact .kept (State.facts_attempts _ (JsMap.total_update _ hget
        (attemptFacts_addStep a p htracks.key.symm))) hknown

theorem balanced_stepFinished (p : StepFinishedPayload)
    (hnew : (p.attemptId, p.stepId) ∉ l.finishedSteps) :
    Balanced l st (projectPayload st e (.stepFinished p)) ⟨e, .stepFinished p⟩ := by
  cases hget : st.attempts.get? p.attemptId with
  | none =>
      refine .lost (Event.facts ⟨e, .stepFinished p⟩) ?_ (by simp [Event.facts])
        (fun hk => h.attempts.none _ hget (StepPlaced.attempt hk))
      simp only [projectPayload, JsMap.update_of_none _ hget]
  | some a =>
      obtain ⟨-, htracks⟩ := h.attempts.some _ a hget
      cases hid : a.stepsById.get? p.stepId with
      | none =>
          refine .lost (Event.facts ⟨e, .stepFinished p⟩) ?_ (by simp [Event.facts]) (fun hk => ?_)
          · have hsame : attemptFacts (a.finishStep ⟨e, p⟩) = attemptFacts a + 0 := by
              rw [AttemptState.finishStep, hid, add_zero]
            have hst := State.facts_attempts st
              (JsMap.total_update (g := fun a => a.finishStep ⟨e, p⟩) attemptFacts hget hsame)
            rw [add_zero] at hst
            exact congrArg (· + _) hst
          · have hhas := (htracks.steps.placed p.stepId).mpr hk
            rw [JsMap.has, hid] at hhas
            cases hhas
      | some i =>
          obtain ⟨t, ht, hkey, hfin⟩ := htracks.steps.step _ i hid
          have hopen : t.finished = none := by
            by_contra hs
            exact hnew (hfin (Option.isSome_iff_ne_none.mpr hs))
          refine .kept (State.facts_attempts _ (JsMap.total_update _ hget
            (attemptFacts_finishStep hid ht hkey hopen htracks.key.symm))) ?_
          exact (htracks.steps.placed p.stepId).mp (by rw [JsMap.has, hid]; rfl)

theorem balanced_attachmentAdded (p : AttachmentAddedPayload) :
    Balanced l st (projectPayload st e (.attachmentAdded p)) ⟨e, .attachmentAdded p⟩ := by
  have hlist : ∀ m : JsMap Text AttemptState, ({ st with
      attempts := m
      emitted := st.emitted ++ [⟨e.sessionId, e.sequence, reference e p⟩] } : State).facts =
      ({ st with attempts := m } : State).facts + {.attachment (reference e p)} := by
    intro m
    simp only [State.facts, List.map_append, List.map_singleton, ← Multiset.coe_add,
      Multiset.coe_singleton]
    ac_rfl
  have hfacts : (Event.facts ⟨e, .attachmentAdded p⟩ : Multiset Fact) =
      {.attachmentOf p.attemptId (reference e p)} + {.attachment (reference e p)} := rfl
  cases hget : st.attempts.get? p.attemptId with
  | none =>
      refine .lost {.attachmentOf p.attemptId (reference e p)} ?_ (by simp)
        (h.attempts.none _ hget)
      rw [projectPayload, JsMap.update_of_none _ hget, hlist, hfacts]
      ac_rfl
  | some a =>
      obtain ⟨hknown, htracks⟩ := h.attempts.some _ a hget
      refine .kept ?_ hknown
      have hattach := attemptFacts_attach a (reference e p)
      rw [htracks.key] at hattach
      rw [projectPayload, hlist, hfacts,
        State.facts_attempts _ (JsMap.total_update attemptFacts hget hattach)]
      ac_rfl

theorem balanced_projectEvent {k : Event} (hnew : Once l (.known k)) :
    Balanced l st (projectEvent st k) k := by
  obtain ⟨e, P⟩ := k
  have h' : Tracks l { st with runId := some (st.runId.getD e.runId) } := ⟨h.sessions, h.attempts⟩
  unfold projectEvent
  have hgoal : Balanced l { st with runId := some (st.runId.getD e.runId) }
      (projectPayload { st with runId := some (st.runId.getD e.runId) } e P) ⟨e, P⟩ := by
    cases P with
    | sessionStarted p => exact balanced_sessionStarted h' p (hnew.startsSession _ rfl)
    | sessionFinished p => exact balanced_sessionFinished h' p (hnew.endsSession _ rfl)
    | runFinished => exact .kept (by simp [Event.facts, projectPayload]) trivial
    | attemptStarted p => exact balanced_attemptStarted h' p (hnew.startsAttempt _ rfl)
    | attemptFinished p => exact balanced_attemptFinished h' p (hnew.endsAttempt _ rfl)
    | stepStarted p => exact balanced_stepStarted h' p
    | stepFinished p => exact balanced_stepFinished h' p (hnew.endsStep _ rfl)
    | attachmentAdded p => exact balanced_attachmentAdded h' p
    | scopeFailed p =>
        refine .kept ?_ trivial
        simp only [projectPayload, State.facts, List.map_append, List.map_singleton,
          ← Multiset.coe_add]
        rw [← add_assoc]
        rfl
  exact hgoal

omit h in
/-- After any events, what the state shows and what was lost are the facts of the events, and
nothing was lost exactly when every event came after what it names. -/
theorem projectEvents_facts {events : List Event} (h : Admissible Once (logOfEvents events)) :
    ∃ lost : Multiset Fact, (projectEvents events).facts + lost = (events.flatMap Event.facts) ∧
      (lost = 0 ↔ Admissible Known (logOfEvents events)) := by
  induction events using List.reverseRecOn with
  | nil => exact ⟨0, rfl, iff_of_true rfl admissible_nil⟩
  | append_singleton events e ih =>
      rw [logOfEvents_concat] at h ⊢
      obtain ⟨hl, he⟩ := admissible_concat.mp h
      obtain ⟨lost, hlost, hnone⟩ := ih hl
      obtain ⟨lost', hlost', hnone'⟩ := balanced_projectEvent (projectEvents_tracks hl) he
      refine ⟨lost + lost', ?_, ?_⟩
      · rw [projectEvents_concat, List.flatMap_append, ← Multiset.coe_add, List.flatMap_singleton,
          ← hlost, add_comm lost lost', ← add_assoc, hlost']
        ac_rfl
      · rw [← Multiset.card_eq_zero, Multiset.card_add, Nat.add_eq_zero_iff, Multiset.card_eq_zero,
          Multiset.card_eq_zero, hnone, hnone', admissible_concat]

end balance

end Projector

end QeReport

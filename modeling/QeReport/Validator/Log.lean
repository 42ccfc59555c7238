import QeReport.Lib.GuardedLog
import QeReport.Validator.Feed

/-! # The lifecycle rules as a guard on logs

The validator's rules, stated over the list of the events it took so far instead of its maps.
`Guard rn p e` says that `e` may follow the events `p`; `rn` gives the runner name of a session.
The rules look at a log only through the few lists below: the sessions, attempts and steps that
were started and finished in it. -/

namespace QeReport

open GuardedLog

/-! ### What an event says -/

namespace AnyEvent

def session (e : AnyEvent) : Text := e.envelope.sessionId

def sequence (e : AnyEvent) : ℕ := e.envelope.sequence

/-- The payload of a known event. -/
def payload? : AnyEvent → Option Payload
  | .known e => some e.payload
  | .unknown _ => none

def isSessionStarted (e : AnyEvent) : Bool :=
  match e.payload? with
  | some (.sessionStarted _) => true
  | _ => false

def isRunFinished (e : AnyEvent) : Bool :=
  match e.payload? with
  | some .runFinished => true
  | _ => false

/-- The session that a session.finished event closes. -/
def endsSession (e : AnyEvent) : Option Text :=
  match e.payload? with
  | some (.sessionFinished _) => some e.session
  | _ => none

/-- The attempt that an attempt.started event starts. -/
def startsAttempt (e : AnyEvent) : Option Text :=
  match e.payload? with
  | some (.attemptStarted p) => some p.attemptId
  | _ => none

/-- Execution and number of an attempt.started event. -/
def attemptNumber (e : AnyEvent) : Option (Text × ℕ) :=
  match e.payload? with
  | some (.attemptStarted p) => some (p.test.executionId, p.attemptNumber)
  | _ => none

def endsAttempt (e : AnyEvent) : Option Text :=
  match e.payload? with
  | some (.attemptFinished p) => some p.attemptId
  | _ => none

/-- The attempt and the step that a step.started event starts. -/
def startsStep (e : AnyEvent) : Option (Text × Text) :=
  match e.payload? with
  | some (.stepStarted p) => some (p.attemptId, p.stepId)
  | _ => none

def endsStep (e : AnyEvent) : Option (Text × Text) :=
  match e.payload? with
  | some (.stepFinished p) => some (p.attemptId, p.stepId)
  | _ => none

/-- The attempt that a step, attachment or attempt.finished event names. -/
def namesAttempt (e : AnyEvent) : Option Text :=
  match e.payload? with
  | some (.attemptFinished p) => some p.attemptId
  | some (.stepStarted p) => some p.attemptId
  | some (.stepFinished p) => some p.attemptId
  | some (.attachmentAdded p) => some p.attemptId
  | _ => none

section inversion
variable {e : AnyEvent}

theorem payload?_eq_some {P : Payload} :
    e.payload? = some P ↔ ∃ k : Event, e = .known k ∧ k.payload = P := by
  cases e <;> simp [payload?]

theorem isSessionStarted_iff :
    e.isSessionStarted = true ↔ ∃ p, e.payload? = some (.sessionStarted p) := by
  unfold isSessionStarted
  split <;> simp_all

theorem isRunFinished_iff : e.isRunFinished = true ↔ e.payload? = some .runFinished := by
  unfold isRunFinished
  split <;> simp_all

theorem endsSession_eq_some {s : Text} :
    e.endsSession = some s ↔ (∃ p, e.payload? = some (.sessionFinished p)) ∧ e.session = s := by
  unfold endsSession
  split <;> simp_all

theorem startsAttempt_eq_some {a : Text} :
    e.startsAttempt = some a ↔ ∃ p, e.payload? = some (.attemptStarted p) ∧ p.attemptId = a := by
  unfold startsAttempt
  split <;> simp_all

theorem attemptNumber_eq_some {n : Text × ℕ} :
    e.attemptNumber = some n ↔
      ∃ p, e.payload? = some (.attemptStarted p) ∧ (p.test.executionId, p.attemptNumber) = n := by
  unfold attemptNumber
  split <;> simp_all

theorem endsAttempt_eq_some {a : Text} :
    e.endsAttempt = some a ↔ ∃ p, e.payload? = some (.attemptFinished p) ∧ p.attemptId = a := by
  unfold endsAttempt
  split <;> simp_all

theorem startsStep_eq_some {s : Text × Text} :
    e.startsStep = some s ↔
      ∃ p, e.payload? = some (.stepStarted p) ∧ (p.attemptId, p.stepId) = s := by
  unfold startsStep
  split <;> simp_all

theorem endsStep_eq_some {s : Text × Text} :
    e.endsStep = some s ↔
      ∃ p, e.payload? = some (.stepFinished p) ∧ (p.attemptId, p.stepId) = s := by
  unfold endsStep
  split <;> simp_all

end inversion

end AnyEvent

/-! ### What a log says -/

abbrev Log := List AnyEvent

namespace Log

def sessions (l : Log) : List Text := l.map AnyEvent.session

def finishedSessions (l : Log) : List Text := l.filterMap AnyEvent.endsSession

def attempts (l : Log) : List Text := l.filterMap AnyEvent.startsAttempt

def finishedAttempts (l : Log) : List Text := l.filterMap AnyEvent.endsAttempt

/-- The started steps, each with its attempt. -/
def steps (l : Log) : List (Text × Text) := l.filterMap AnyEvent.startsStep

def finishedSteps (l : Log) : List (Text × Text) := l.filterMap AnyEvent.endsStep

/-- The events of a session. -/
def ofSession (s : Text) (l : Log) : Log := ofClass AnyEvent.session s l

/-- The runner name that the session.started event of a session declares. -/
def runnerName (l : Log) (s : Text) : Option Text :=
  (l.find? (fun e => e.isSessionStarted && e.session = s)).bind runnerNameOf

end Log

section concat
variable {l : Log} {e : AnyEvent}

@[simp] theorem Log.mem_sessions_concat {s : Text} :
    s ∈ Log.sessions (l ++ [e]) ↔ s ∈ l.sessions ∨ e.session = s := by
  simp [Log.sessions, eq_comm]

theorem mem_filterMap_concat {β : Type} {f : AnyEvent → Option β} {b : β} :
    b ∈ (l ++ [e]).filterMap f ↔ b ∈ l.filterMap f ∨ f e = some b := by
  simp only [List.filterMap_append, List.mem_append, List.mem_filterMap, List.mem_singleton,
    exists_eq_left]

@[simp] theorem Log.mem_finishedSessions_concat {s : Text} :
    s ∈ Log.finishedSessions (l ++ [e]) ↔ s ∈ l.finishedSessions ∨ e.endsSession = some s :=
  mem_filterMap_concat

@[simp] theorem Log.mem_attempts_concat {a : Text} :
    a ∈ Log.attempts (l ++ [e]) ↔ a ∈ l.attempts ∨ e.startsAttempt = some a :=
  mem_filterMap_concat

@[simp] theorem Log.mem_finishedAttempts_concat {a : Text} :
    a ∈ Log.finishedAttempts (l ++ [e]) ↔ a ∈ l.finishedAttempts ∨ e.endsAttempt = some a :=
  mem_filterMap_concat

@[simp] theorem Log.mem_steps_concat {s : Text × Text} :
    s ∈ Log.steps (l ++ [e]) ↔ s ∈ l.steps ∨ e.startsStep = some s :=
  mem_filterMap_concat

@[simp] theorem Log.mem_finishedSteps_concat {s : Text × Text} :
    s ∈ Log.finishedSteps (l ++ [e]) ↔ s ∈ l.finishedSteps ∨ e.endsStep = some s :=
  mem_filterMap_concat

theorem Log.ofSession_concat (s : Text) :
    Log.ofSession s (l ++ [e]) = l.ofSession s ++ if e.session = s then [e] else [] := by
  by_cases h : e.session = s <;> simp [Log.ofSession, ofClass, List.filter_append, h]

theorem Log.session_mem {x : AnyEvent} (h : x ∈ l) : x.session ∈ l.sessions :=
  List.mem_map_of_mem h

/-- The runner of a session that has begun does not change. -/
theorem Log.runnerName_concat {s : Text} (hs : s ∈ l.sessions)
    (he : e.isSessionStarted = true → e.session ∉ l.sessions) :
    Log.runnerName (l ++ [e]) s = l.runnerName s := by
  have hne : (e.isSessionStarted && decide (e.session = s)) = false := by
    rw [Bool.and_eq_false_iff, decide_eq_false_iff_not]
    by_cases h : e.isSessionStarted = true
    · exact Or.inr (fun h' => he h (h' ▸ hs))
    · exact Or.inl (by simpa using h)
  simp [Log.runnerName, List.find?_append, hne]

end concat

/-- The runner of a session is found among its own events. -/
theorem Log.runnerName_eq (l : Log) (s : Text) :
    l.runnerName s = ((l.ofSession s).find? AnyEvent.isSessionStarted).bind runnerNameOf := by
  rw [Log.runnerName, Log.ofSession, ofClass, List.find?_filter]
  congr
  funext e
  rw [Bool.and_comm]
  simp

theorem Log.runnerName_congr {l l' : Log} {s : Text} (h : l.ofSession s = l'.ofSession s) :
    l.runnerName s = l'.runnerName s := by
  rw [Log.runnerName_eq, Log.runnerName_eq, h]

/-- The first events of a session tell its runner, its session.started among them. -/
theorem Log.runnerName_of_initial {l l' : Log} {s : Text} (h : l'.ofSession s <+: l.ofSession s)
    (hs : ∃ x ∈ l', x.isSessionStarted = true ∧ x.session = s) : l.runnerName s = l'.runnerName s := by
  obtain ⟨t, ht⟩ := h
  obtain ⟨x, hx, hst, hxs⟩ := hs
  have hsome : ((l'.ofSession s).find? AnyEvent.isSessionStarted).isSome = true := by
    rw [List.find?_isSome]
    exact ⟨x, mem_ofClass.mpr ⟨hx, hxs⟩, hst⟩
  rw [Log.runnerName_eq, Log.runnerName_eq, ← ht, List.find?_append, Option.or_of_isSome hsome]

/-! ### The guard -/

/-- Two attempts of one execution: different numbers, one history identity, one runner. -/
structure Compatible (rn : Text → Option Text) (s t : Text) (p q : AttemptStartedPayload) : Prop where
  number : p.attemptNumber ≠ q.attemptNumber
  historicalId : p.test.historicalId = q.test.historicalId
  stability : p.test.historicalIdStability = q.test.historicalIdStability
  runner : rn s = rn t

/-- The rules of the event switch. -/
def PayloadGuard (rn : Text → Option Text) (l : Log) (e : AnyEvent) : Prop :=
  match e.payload? with
  | some (.sessionFinished _) =>
      ∀ x ∈ l, x.session = e.session → ∀ a, x.startsAttempt = some a → a ∈ l.finishedAttempts
  | some .runFinished => ∀ x ∈ l, x.isRunFinished = false
  | some (.attemptStarted p) =>
      (p.test.historicalId.isSome → (rn e.session).isSome) ∧ p.attemptId ∉ l.attempts ∧
        ∀ x ∈ l, ∀ q, x.payload? = some (.attemptStarted q) →
          q.test.executionId = p.test.executionId → Compatible rn x.session e.session q p
  | some (.attemptFinished p) =>
      p.attemptId ∈ l.attempts ∧ p.attemptId ∉ l.finishedAttempts ∧
        ∀ s, (p.attemptId, s) ∈ l.steps → (p.attemptId, s) ∈ l.finishedSteps
  | some (.stepStarted p) =>
      p.attemptId ∈ l.attempts ∧ p.attemptId ∉ l.finishedAttempts ∧
        (p.attemptId, p.stepId) ∉ l.steps ∧
        ∀ parent, p.parentStepId = some parent → (p.attemptId, parent) ∈ l.steps
  | some (.stepFinished p) =>
      (p.attemptId, p.stepId) ∈ l.steps ∧ (p.attemptId, p.stepId) ∉ l.finishedSteps
  | some (.attachmentAdded p) =>
      p.attemptId ∈ l.attempts ∧ p.attemptId ∉ l.finishedAttempts ∧
        ∀ s, p.stepId = some s → (p.attemptId, s) ∈ l.steps
  | _ => True

/-- An event that may follow a log. -/
structure Guard (rn : Text → Option Text) (l : Log) (e : AnyEvent) : Prop where
  runId : ∀ x ∈ l, x.envelope.runId = e.envelope.runId
  opens : e.isSessionStarted = true ↔ e.session ∉ l.sessions
  sequence : e.sequence = (l.ofSession e.session).length + 1
  unfinished : e.session ∈ l.finishedSessions → e.isRunFinished = true
  payload : PayloadGuard rn l e

/-- The rules of one `feed`: one session, and nothing after a run.finished of the same file. -/
structure FileGuard (singleSession : Bool) (l : Log) (e : AnyEvent) : Prop where
  session : singleSession = true → ∀ x ∈ l, x.session = e.session
  closed : ∀ x ∈ l, x.isRunFinished = false

/-- The log of a run: every event admitted by the ones before it. -/
def Lifecycle (l : Log) : Prop := Admissible (Guard l.runnerName) l

section congr
variable {rn rn' : Text → Option Text} {l : Log} {e : AnyEvent}

theorem Compatible.congr {s t : Text} {p q : AttemptStartedPayload} (h : Compatible rn s t p q)
    (hs : rn s = rn' s) (ht : rn t = rn' t) : Compatible rn' s t p q :=
  ⟨h.number, h.historicalId, h.stability, by rw [← hs, ← ht, h.runner]⟩

theorem PayloadGuard.congr (h : PayloadGuard rn l e) (he : rn e.session = rn' e.session)
    (hl : ∀ s ∈ l.sessions, rn s = rn' s) : PayloadGuard rn' l e := by
  unfold PayloadGuard at h ⊢
  split at h
  · exact h
  · exact h
  · refine ⟨fun hp => he ▸ h.1 hp, h.2.1, fun x hx q hq hqe => ?_⟩
    exact (h.2.2 x hx q hq hqe).congr (hl _ (Log.session_mem hx)) he
  · exact h
  · exact h
  · exact h
  · exact h
  · trivial

theorem Guard.congr (h : Guard rn l e) (he : rn e.session = rn' e.session)
    (hl : ∀ s ∈ l.sessions, rn s = rn' s) : Guard rn' l e :=
  ⟨h.runId, h.opens, h.sequence, h.unfinished, h.payload.congr he hl⟩

/-- Only the runners of the sessions of the log matter. -/
theorem admissible_congr (h : Admissible (Guard rn) l) (hl : ∀ s ∈ l.sessions, rn s = rn' s) :
    Admissible (Guard rn') l := by
  refine h.imp (fun p e s he hg => hg.congr (hl _ ?_) (fun t ht => hl t ?_))
  · rw [he]
    exact Log.session_mem (by simp)
  · rw [he, Log.sessions, List.map_append]
    exact List.mem_append_left _ ht

end congr

/-! ### Admitted logs -/

section admitted
variable {rn : Text → Option Text} {l : Log}

theorem filterMap_subset_of_append {β : Type} (f : AnyEvent → Option β) {p s : Log} :
    p.filterMap f ⊆ (p ++ s).filterMap f := by
  intro b hb
  rw [List.filterMap_append]
  exact List.mem_append_left _ hb

theorem finishedAttempts_subset (h : Admissible (Guard rn) l) : l.finishedAttempts ⊆ l.attempts := by
  intro a ha
  obtain ⟨e, he, hea⟩ := List.mem_filterMap.mp ha
  obtain ⟨q, hq, rfl⟩ := AnyEvent.endsAttempt_eq_some.mp hea
  obtain ⟨p, s, rfl, hg⟩ := h.of_mem he
  have hp := hg.payload
  rw [PayloadGuard, hq] at hp
  exact filterMap_subset_of_append _ hp.1

theorem steps_subset (h : Admissible (Guard rn) l) : ∀ s ∈ l.steps, s.1 ∈ l.attempts := by
  intro s hs
  obtain ⟨e, he, hes⟩ := List.mem_filterMap.mp hs
  obtain ⟨q, hq, rfl⟩ := AnyEvent.startsStep_eq_some.mp hes
  obtain ⟨p, s, rfl, hg⟩ := h.of_mem he
  have hp := hg.payload
  rw [PayloadGuard, hq] at hp
  exact filterMap_subset_of_append _ hp.1

theorem finishedSteps_subset (h : Admissible (Guard rn) l) : l.finishedSteps ⊆ l.steps := by
  intro s hs
  obtain ⟨e, he, hes⟩ := List.mem_filterMap.mp hs
  obtain ⟨q, hq, rfl⟩ := AnyEvent.endsStep_eq_some.mp hes
  obtain ⟨p, s, rfl, hg⟩ := h.of_mem he
  have hp := hg.payload
  rw [PayloadGuard, hq] at hp
  exact filterMap_subset_of_append _ hp.1

theorem runIds_agree (h : Admissible (Guard rn) l) {x y : AnyEvent} (hx : x ∈ l) (hy : y ∈ l) :
    x.envelope.runId = y.envelope.runId := by
  let R : AnyEvent → AnyEvent → Prop := fun x y => x.envelope.runId = y.envelope.runId
  have : Std.Symm R := ⟨fun _ _ h => h.symm⟩
  have hR : l.Pairwise R := h.pairwise (fun _ _ hg => hg.runId)
  have hrefl : ∀ z ∈ l, R z z := fun _ _ => rfl
  exact List.Pairwise.forall_of_forall hrefl hR hx hy

/-- A session begins with its session.started event. -/
theorem session_started (h : Admissible (Guard rn) l) {s : Text} (hs : s ∈ l.sessions) :
    ∃ x ∈ l, x.isSessionStarted = true ∧ x.session = s := by
  induction l using List.reverseRecOn with
  | nil => simp [Log.sessions] at hs
  | append_singleton l e ih =>
      obtain ⟨hl, hg⟩ := admissible_concat.mp h
      by_cases hsl : s ∈ Log.sessions l
      · obtain ⟨x, hx, hx'⟩ := ih hl hsl
        exact ⟨x, List.mem_append_left _ hx, hx'⟩
      · have he : e.session = s := (Log.mem_sessions_concat.mp hs).resolve_left hsl
        exact ⟨e, by simp, hg.opens.mpr (he ▸ hsl), he⟩

theorem attempts_nodup (h : Admissible (Guard rn) l) : l.attempts.Nodup := by
  refine h.nodup_keys (fun p e a hg ha => ?_)
  obtain ⟨q, hq, rfl⟩ := AnyEvent.startsAttempt_eq_some.mp ha
  have hp := hg.payload
  rw [PayloadGuard, hq] at hp
  exact hp.2.1

theorem steps_nodup (h : Admissible (Guard rn) l) : l.steps.Nodup := by
  refine h.nodup_keys (fun p e a hg ha => ?_)
  obtain ⟨q, hq, rfl⟩ := AnyEvent.startsStep_eq_some.mp ha
  have hp := hg.payload
  rw [PayloadGuard, hq] at hp
  exact hp.2.2.1

/-- A session is started once. -/
theorem startedSessions_nodup (h : Admissible (Guard rn) l) :
    ((l.filter AnyEvent.isSessionStarted).map AnyEvent.session).Nodup := by
  have hkeys : (l.filter AnyEvent.isSessionStarted).map AnyEvent.session =
      l.filterMap (fun e => if e.isSessionStarted then some e.session else none) := by
    rw [← List.filterMap_eq_map, List.filterMap_filter]
    rfl
  rw [hkeys]
  refine h.nodup_keys (fun p e s hg hs hmem => ?_)
  obtain ⟨x, hx, hxs⟩ := List.mem_filterMap.mp hmem
  rw [Option.ite_none_right_eq_some, Option.some_inj] at hs hxs
  refine hg.opens.mp hs.1 ?_
  rw [hs.2, ← hxs.2]
  exact Log.session_mem hx

theorem finishedSessions_nodup (h : Admissible (Guard rn) l) : l.finishedSessions.Nodup := by
  refine h.nodup_keys (fun p e s hg hs hmem => ?_)
  obtain ⟨⟨q, hq⟩, rfl⟩ := AnyEvent.endsSession_eq_some.mp hs
  have hrun := hg.unfinished hmem
  rw [AnyEvent.isRunFinished_iff, hq] at hrun
  cases hrun

theorem finishedAttempts_nodup (h : Admissible (Guard rn) l) : l.finishedAttempts.Nodup := by
  refine h.nodup_keys (fun p e a hg ha => ?_)
  obtain ⟨q, hq, rfl⟩ := AnyEvent.endsAttempt_eq_some.mp ha
  have hp := hg.payload
  rw [PayloadGuard, hq] at hp
  exact hp.2.1

theorem finishedSteps_nodup (h : Admissible (Guard rn) l) : l.finishedSteps.Nodup := by
  refine h.nodup_keys (fun p e s hg hs => ?_)
  obtain ⟨q, hq, rfl⟩ := AnyEvent.endsStep_eq_some.mp hs
  have hp := hg.payload
  rw [PayloadGuard, hq] at hp
  exact hp.2

/-- The runner of a session is the one its session.started event declares. -/
theorem runnerName_of_started (h : Admissible (Guard rn) l) {x : AnyEvent} (hx : x ∈ l)
    (hst : x.isSessionStarted = true) : l.runnerName x.session = runnerNameOf x := by
  have hfind : l.find? (fun e => e.isSessionStarted && e.session = x.session) = some x := by
    cases hf : l.find? (fun e => e.isSessionStarted && e.session = x.session) with
    | none =>
        have := List.find?_eq_none.mp hf x hx
        simp [hst] at this
    | some y =>
        have hy := List.find?_some hf
        simp only [Bool.and_eq_true, decide_eq_true_eq] at hy
        have hmem : ∀ z ∈ l, z.isSessionStarted = true → z ∈ l.filter AnyEvent.isSessionStarted :=
          fun z hz hzs => List.mem_filter.mpr ⟨hz, hzs⟩
        rw [List.inj_on_of_nodup_map (startedSessions_nodup h)
          (hmem y (List.mem_of_find?_eq_some hf) hy.1) (hmem x hx hst) hy.2]
  rw [Log.runnerName, hfind]
  rfl

/-- An attempt is started by one event. -/
theorem attempt_unique (h : Admissible (Guard rn) l) {x y : AnyEvent} {a : Text} (hx : x ∈ l)
    (hy : y ∈ l) (hxa : x.startsAttempt = some a) (hya : y.startsAttempt = some a) : x = y :=
  eq_of_nodup_keys (attempts_nodup h) hx hy hxa hya

/-- The number of an attempt determines it within its execution. -/
theorem attemptNumber_unique (h : Admissible (Guard rn) l) {x y : AnyEvent} {n : Text × ℕ}
    (hx : x ∈ l) (hy : y ∈ l) (hxn : x.attemptNumber = some n) (hyn : y.attemptNumber = some n) :
    x = y := by
  refine eq_of_nodup_keys (h.nodup_keys (fun p e n hg hn hmem => ?_)) hx hy hxn hyn
  obtain ⟨q, hq, rfl⟩ := AnyEvent.attemptNumber_eq_some.mp hn
  obtain ⟨z, hz, hzn⟩ := List.mem_filterMap.mp hmem
  obtain ⟨r, hr, hrq⟩ := AnyEvent.attemptNumber_eq_some.mp hzn
  have hp := hg.payload
  rw [PayloadGuard, hq] at hp
  exact (hp.2.2 z hz r hr (congrArg Prod.fst hrq)).number (congrArg Prod.snd hrq)

/-- The attempts of one execution have one history identity and one runner. -/
theorem executions_agree (h : Admissible (Guard rn) l) {x y : AnyEvent} (hx : x ∈ l) (hy : y ∈ l)
    {p q : AttemptStartedPayload} (hp : x.payload? = some (.attemptStarted p))
    (hq : y.payload? = some (.attemptStarted q)) (he : p.test.executionId = q.test.executionId) :
    p.test.historicalId = q.test.historicalId ∧
      p.test.historicalIdStability = q.test.historicalIdStability ∧
      rn x.session = rn y.session := by
  let R : AnyEvent → AnyEvent → Prop := fun x y => ∀ p q : AttemptStartedPayload,
    x.payload? = some (.attemptStarted p) → y.payload? = some (.attemptStarted q) →
    p.test.executionId = q.test.executionId → p.test.historicalId = q.test.historicalId ∧
      p.test.historicalIdStability = q.test.historicalIdStability ∧ rn x.session = rn y.session
  have hR : l.Pairwise R := by
    refine h.pairwise (fun l e hg x hx p q hp hq he => ?_)
    have hpay := hg.payload
    rw [PayloadGuard, hq] at hpay
    obtain ⟨-, h2, h3, h4⟩ := hpay.2.2 x hx p hp he
    exact ⟨h2, h3, h4⟩
  have : Std.Symm R := by
    constructor
    intro x y hxy p q hp hq he
    obtain ⟨h1, h2, h3⟩ := hxy q p hq hp he.symm
    exact ⟨h1.symm, h2.symm, h3.symm⟩
  have hrefl : ∀ z ∈ l, R z z := by
    intro z _ p q hp hq _
    rw [hp] at hq
    cases hq
    exact ⟨rfl, rfl, rfl⟩
  exact List.Pairwise.forall_of_forall hrefl hR hx hy p q hp hq he

end admitted

end QeReport

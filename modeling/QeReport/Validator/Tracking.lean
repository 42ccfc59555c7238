import Mathlib.Algebra.Ring.Nat
import QeReport.Validator.Log

/-! # The bookkeeping follows the log

While no rule was broken, the maps and counters of the validator are functions of the events it
took: `TracksSessions`, `TracksAttempts`, `TracksExecutions` and `TracksCounts` say which.  Each
has a lemma for an event that leaves it alone and one for every event that changes it. -/

namespace QeReport

open GuardedLog

/-! ### Sessions -/

structure TracksSessions (m : JsMap Text SessionState) (l : Log) : Prop where
  get : ∀ s, m.get? s =
    if s ∈ l.sessions then
      some ⟨decide (s ∈ l.finishedSessions), (l.ofSession s).length, l.runnerName s, false⟩
    else none
  size : m.size = (l.filter AnyEvent.isSessionStarted).length

/-! ### Attempts -/

/-- What the log says about one attempt. -/
structure AttemptFacts (l : Log) (a : Text) (st : AttemptState) : Prop where
  started : ∃ x ∈ l, ∃ p, x.payload? = some (.attemptStarted p) ∧ p.attemptId = a ∧
    st.session = x.session ∧ st.executionId = p.test.executionId ∧
    st.attemptNumber = p.attemptNumber
  finished : st.finished = true ↔ a ∈ l.finishedAttempts
  outcome : ∀ x ∈ l, ∀ p, x.payload? = some (.attemptFinished p) → p.attemptId = a →
    st.unexpected = unexpectedOutcome p ∧ st.inconclusive = decide (p.status = .inconclusive)
  unfinished : a ∉ l.finishedAttempts → st.unexpected = false ∧ st.inconclusive = false
  steps : ∀ s, st.steps.get? s =
    if (a, s) ∈ l.steps then some (decide ((a, s) ∈ l.finishedSteps)) else none

structure TracksAttempts (m : JsMap Text AttemptState) (l : Log) : Prop where
  none : ∀ a, m.get? a = none ↔ a ∉ l.attempts
  some : ∀ a st, m.get? a = some st → AttemptFacts l a st
  size : m.size = l.attempts.length

theorem TracksAttempts.get_of_mem {m : JsMap Text AttemptState} {l : Log} (h : TracksAttempts m l)
    {a : Text} (ha : a ∈ l.attempts) : ∃ st, m.get? a = .some st ∧ AttemptFacts l a st := by
  cases hg : m.get? a with
  | none => exact absurd ha ((h.none a).mp hg)
  | some st => exact ⟨st, rfl, h.some a st hg⟩

theorem TracksAttempts.mem_of_get {m : JsMap Text AttemptState} {l : Log} (h : TracksAttempts m l)
    {a : Text} {st : AttemptState} (hst : m.get? a = .some st) : a ∈ l.attempts := by
  by_contra hc
  rw [(h.none a).mpr hc] at hst
  cases hst

theorem TracksAttempts.has_iff {m : JsMap Text AttemptState} {l : Log} (h : TracksAttempts m l)
    {a : Text} : m.has a = true ↔ a ∈ l.attempts := by
  rw [JsMap.has, Option.isSome_iff_ne_none, ne_eq, h.none, not_not]

/-- The state of an attempt holds the data of its attempt.started event. -/
theorem TracksAttempts.of_started {rn : Text → Option Text} {m : JsMap Text AttemptState} {l : Log}
    (h : TracksAttempts m l) (hl : Admissible (Guard rn) l) {x : AnyEvent} (hx : x ∈ l)
    {p : AttemptStartedPayload} (hp : x.payload? = .some (.attemptStarted p)) :
    ∃ st, m.get? p.attemptId = .some st ∧ AttemptFacts l p.attemptId st ∧ st.session = x.session ∧
      st.executionId = p.test.executionId ∧ st.attemptNumber = p.attemptNumber := by
  have hxa := AnyEvent.startsAttempt_eq_some.mpr ⟨p, hp, rfl⟩
  obtain ⟨st, hst, hf⟩ := h.get_of_mem (List.mem_filterMap.mpr ⟨x, hx, hxa⟩)
  obtain ⟨y, hy, q, hq, hqa, hs, he, hn⟩ := hf.started
  obtain rfl := attempt_unique hl hx hy hxa (AnyEvent.startsAttempt_eq_some.mpr ⟨q, hq, hqa⟩)
  rw [hp] at hq
  cases hq
  exact ⟨st, hst, hf, hs, he, hn⟩

theorem AttemptFacts.has_step {l : Log} {a : Text} {st : AttemptState} (h : AttemptFacts l a st)
    {s : Text} : st.steps.has s = true ↔ (a, s) ∈ l.steps := by
  rw [JsMap.has, h.steps]
  split_ifs with hs <;> simp [hs]

section attempts
variable {rn : Text → Option Text} {m : JsMap Text AttemptState} {l : Log} {e : AnyEvent}

/-- An event that says nothing about an attempt leaves its facts. -/
theorem AttemptFacts.concat {a : Text} {st : AttemptState} (h : AttemptFacts l a st)
    (hend : e.endsAttempt ≠ some a) (hstep : ∀ s, e.startsStep ≠ some (a, s))
    (hdone : ∀ s, e.endsStep ≠ some (a, s)) : AttemptFacts (l ++ [e]) a st where
  started := by
    obtain ⟨x, hx, p, hp⟩ := h.started
    exact ⟨x, List.mem_append_left _ hx, p, hp⟩
  finished := by simp [h.finished, hend]
  outcome := by
    intro x hx p hp ha
    rcases List.mem_append.mp hx with hx | hx
    · exact h.outcome x hx p hp ha
    · rw [List.mem_singleton] at hx
      subst hx
      exact absurd (AnyEvent.endsAttempt_eq_some.mpr ⟨p, hp, ha⟩) hend
  unfinished := by
    intro ha
    exact h.unfinished (fun h' => ha (by simp [h']))
  steps := by
    intro s
    rw [h.steps]
    simp [hstep s, hdone s]

theorem TracksAttempts.inert (h : TracksAttempts m l) (hs : e.startsAttempt = .none)
    (hend : e.endsAttempt = .none) (hstep : e.startsStep = .none) (hdone : e.endsStep = .none) :
    TracksAttempts m (l ++ [e]) where
  none := by
    intro a
    simp [h.none, hs]
  some := by
    intro a st ha
    exact (h.some a st ha).concat (by simp [hend]) (by simp [hstep]) (by simp [hdone])
  size := by simp [h.size, Log.attempts, hs]

theorem TracksAttempts.started (h : TracksAttempts m l) (hl : Admissible (Guard rn) l)
    {p : AttemptStartedPayload} (hp : e.payload? = .some (.attemptStarted p))
    (hnew : p.attemptId ∉ l.attempts) {st : AttemptState}
    (hst : st = ⟨e.session, p.test.executionId, p.attemptNumber, false, false, false, .empty⟩) :
    TracksAttempts (m.set p.attemptId st) (l ++ [e]) where
  none := by
    intro a
    rw [JsMap.get?_set]
    split_ifs with ha
    · simp [AnyEvent.startsAttempt, hp, ha]
    · simp [h.none, AnyEvent.startsAttempt, hp, Ne.symm ha]
  some := by
    intro a st' ha
    rw [JsMap.get?_set] at ha
    split_ifs at ha with hae
    · obtain rfl := Option.some.inj ha
      subst hae
      have hfin : p.attemptId ∉ l.finishedAttempts := fun h' => hnew (finishedAttempts_subset hl h')
      have hsteps : ∀ s, (p.attemptId, s) ∉ l.steps := fun s h' => hnew (steps_subset hl _ h')
      subst hst
      refine ⟨⟨e, by simp, p, hp, rfl, rfl, rfl, rfl⟩, ?_, ?_, fun _ => ⟨rfl, rfl⟩, ?_⟩
      · simp [hfin, AnyEvent.endsAttempt, hp]
      · intro x hx q hq hqa
        rcases List.mem_append.mp hx with hx | hx
        · exact absurd (List.mem_filterMap.mpr ⟨x, hx, AnyEvent.endsAttempt_eq_some.mpr ⟨q, hq, hqa⟩⟩)
            hfin
        · rw [List.mem_singleton.mp hx, hp] at hq
          cases hq
      · intro s
        simp [hsteps s, AnyEvent.startsStep, hp]
    · exact (h.some a st' ha).concat (by simp [AnyEvent.endsAttempt, hp])
        (by simp [AnyEvent.startsStep, hp]) (by simp [AnyEvent.endsStep, hp])
  size := by
    rw [JsMap.size_set_of_none _ ((h.none _).mpr hnew), h.size]
    simp [Log.attempts, AnyEvent.startsAttempt, hp]

/-- Replacing the state of an attempt that was started before. -/
theorem TracksAttempts.replace (h : TracksAttempts m l) {a : Text} {st : AttemptState}
    (ha : a ∈ l.attempts) (hs : e.startsAttempt = .none)
    (hother : ∀ b st', b ≠ a → AttemptFacts l b st' → AttemptFacts (l ++ [e]) b st')
    (hst : AttemptFacts (l ++ [e]) a st) : TracksAttempts (m.set a st) (l ++ [e]) where
  none := by
    intro b
    rw [JsMap.get?_set]
    split_ifs with hb
    · simp [hb, ha]
    · simp [h.none, hs]
  some := by
    intro b st' hb
    rw [JsMap.get?_set] at hb
    split_ifs at hb with hba
    · obtain rfl := Option.some.inj hb
      subst hba
      exact hst
    · exact hother b st' hba (h.some b st' hb)
  size := by
    obtain ⟨st', hst', -⟩ := h.get_of_mem ha
    rw [JsMap.size_set_of_some _ hst', h.size]
    simp [Log.attempts, hs]

theorem TracksAttempts.finished (h : TracksAttempts m l) {p : AttemptFinishedPayload}
    (hp : e.payload? = .some (.attemptFinished p)) (hnew : p.attemptId ∉ l.finishedAttempts)
    {st st' : AttemptState} (hst : m.get? p.attemptId = .some st)
    (hst' : st' = { st with
      finished := true
      unexpected := unexpectedOutcome p
      inconclusive := p.status = .inconclusive }) :
    TracksAttempts (m.set p.attemptId st') (l ++ [e]) := by
  have hfacts := h.some _ _ hst
  have hmem := h.mem_of_get hst
  subst hst'
  refine h.replace hmem (by simp [AnyEvent.startsAttempt, hp]) ?_ ?_
  · intro b st' hb hf
    exact hf.concat (by simp [AnyEvent.endsAttempt, hp, Ne.symm hb])
      (by simp [AnyEvent.startsStep, hp]) (by simp [AnyEvent.endsStep, hp])
  · obtain ⟨x, hx, q, hq⟩ := hfacts.started
    refine ⟨⟨x, List.mem_append_left _ hx, q, hq⟩, ?_, ?_, ?_, ?_⟩
    · simp [AnyEvent.endsAttempt, hp]
    · intro y hy q' hq' hqa
      rcases List.mem_append.mp hy with hy | hy
      · exact absurd
          (List.mem_filterMap.mpr ⟨y, hy, AnyEvent.endsAttempt_eq_some.mpr ⟨q', hq', hqa⟩⟩) hnew
      · rw [List.mem_singleton.mp hy, hp] at hq'
        cases hq'
        exact ⟨rfl, rfl⟩
    · simp [AnyEvent.endsAttempt, hp]
    · intro s
      simp [hfacts.steps s, AnyEvent.startsStep, AnyEvent.endsStep, hp]

theorem TracksAttempts.stepStarted (h : TracksAttempts m l) (hl : Admissible (Guard rn) l)
    {p : StepStartedPayload} (hp : e.payload? = .some (.stepStarted p))
    (hnew : (p.attemptId, p.stepId) ∉ l.steps) {st st' : AttemptState}
    (hst : m.get? p.attemptId = .some st)
    (hst' : st' = { st with steps := st.steps.set p.stepId false }) :
    TracksAttempts (m.set p.attemptId st') (l ++ [e]) := by
  have hfacts := h.some _ _ hst
  have hmem := h.mem_of_get hst
  subst hst'
  refine h.replace hmem (by simp [AnyEvent.startsAttempt, hp]) ?_ ?_
  · intro b st' hb hf
    refine hf.concat (by simp [AnyEvent.endsAttempt, hp]) (fun s => ?_)
      (by simp [AnyEvent.endsStep, hp])
    simp [AnyEvent.startsStep, hp, Ne.symm hb]
  · obtain ⟨x, hx, q, hq⟩ := hfacts.started
    refine ⟨⟨x, List.mem_append_left _ hx, q, hq⟩, ?_, ?_, ?_, ?_⟩
    · simp [hfacts.finished, AnyEvent.endsAttempt, hp]
    · intro y hy q' hq' hqa
      rcases List.mem_append.mp hy with hy | hy
      · exact hfacts.outcome y hy q' hq' hqa
      · rw [List.mem_singleton.mp hy, hp] at hq'
        cases hq'
    · intro ha
      exact hfacts.unfinished (fun h' => ha (by simp [h']))
    · intro s
      rw [JsMap.get?_set]
      split_ifs with h1 h2 h2
      · subst h1
        have hd : (p.attemptId, p.stepId) ∉ l.finishedSteps :=
          fun h' => hnew (finishedSteps_subset hl h')
        simp [hd, AnyEvent.endsStep, hp]
      · exact absurd (by simp [AnyEvent.startsStep, hp, h1]) h2
      · have h3 : (p.attemptId, s) ∈ l.steps := by
          simpa [AnyEvent.startsStep, hp, Ne.symm h1] using h2
        simp [hfacts.steps s, h3, AnyEvent.endsStep, hp]
      · have h3 : (p.attemptId, s) ∉ l.steps := fun h' => h2 (by simp [h'])
        simp [hfacts.steps s, h3]

theorem TracksAttempts.stepFinished (h : TracksAttempts m l)
    {p : StepFinishedPayload} (hp : e.payload? = .some (.stepFinished p))
    (hold : (p.attemptId, p.stepId) ∈ l.steps) {st st' : AttemptState}
    (hst : m.get? p.attemptId = .some st)
    (hst' : st' = { st with steps := st.steps.set p.stepId true }) :
    TracksAttempts (m.set p.attemptId st') (l ++ [e]) := by
  have hfacts := h.some _ _ hst
  have hmem := h.mem_of_get hst
  subst hst'
  refine h.replace hmem (by simp [AnyEvent.startsAttempt, hp]) ?_ ?_
  · intro b st' hb hf
    refine hf.concat (by simp [AnyEvent.endsAttempt, hp]) (by simp [AnyEvent.startsStep, hp])
      (fun s => ?_)
    simp [AnyEvent.endsStep, hp, Ne.symm hb]
  · obtain ⟨x, hx, q, hq⟩ := hfacts.started
    refine ⟨⟨x, List.mem_append_left _ hx, q, hq⟩, ?_, ?_, ?_, ?_⟩
    · simp [hfacts.finished, AnyEvent.endsAttempt, hp]
    · intro y hy q' hq' hqa
      rcases List.mem_append.mp hy with hy | hy
      · exact hfacts.outcome y hy q' hq' hqa
      · rw [List.mem_singleton.mp hy, hp] at hq'
        cases hq'
    · intro ha
      exact hfacts.unfinished (fun h' => ha (by simp [h']))
    · intro s
      rw [JsMap.get?_set]
      split_ifs with h1 h2 h2
      · subst h1
        simp [AnyEvent.endsStep, hp]
      · exact absurd (by simp [h1, hold]) h2
      · have h3 : (p.attemptId, s) ∈ l.steps := by
          simpa [AnyEvent.startsStep, hp] using h2
        simp [hfacts.steps s, h3, AnyEvent.endsStep, hp, Ne.symm h1]
      · have h3 : (p.attemptId, s) ∉ l.steps := fun h' => h2 (by simp [h'])
        simp [hfacts.steps s, h3]

end attempts

/-! ### Executions -/

/-- What the log says about one execution. -/
structure ExecutionFacts (rn : Text → Option Text) (l : Log) (x : Text) (st : ExecutionState) : Prop where
  numbers : ∀ n, st.attemptNumbers.has n = true ↔
    ∃ e ∈ l, ∃ p, e.payload? = some (.attemptStarted p) ∧ p.test.executionId = x ∧
      p.attemptNumber = n
  reference : ∃ e ∈ l, ∃ p, e.payload? = some (.attemptStarted p) ∧ p.test.executionId = x ∧
    st.historicalId = p.test.historicalId ∧
    st.historicalIdStability = p.test.historicalIdStability ∧ st.runnerName = rn e.session
  known : st.runnerKnown = true

structure TracksExecutions (rn : Text → Option Text) (m : JsMap Text ExecutionState) (l : Log) :
    Prop where
  none : ∀ x, m.get? x = none ↔
    ∀ e ∈ l, ∀ p, e.payload? = some (.attemptStarted p) → p.test.executionId ≠ x
  some : ∀ x st, m.get? x = some st → ExecutionFacts rn l x st

section executions
variable {rn rn' : Text → Option Text} {m : JsMap Text ExecutionState} {l : Log} {e : AnyEvent}

/-- Only the runners of the sessions of the log matter. -/
theorem TracksExecutions.congr (h : TracksExecutions rn m l)
    (hrn : ∀ s ∈ l.sessions, rn s = rn' s) : TracksExecutions rn' m l where
  none := h.none
  some := by
    intro x st hx
    obtain ⟨hn, ⟨y, hy, p, hp, hpx, hid, hst, hr⟩, hk⟩ := h.some x st hx
    exact ⟨hn, ⟨y, hy, p, hp, hpx, hid, hst, by rw [hr, hrn _ (Log.session_mem hy)]⟩, hk⟩

theorem TracksExecutions.inert (h : TracksExecutions rn m l) (he : e.startsAttempt = .none) :
    TracksExecutions rn m (l ++ [e]) := by
  have hne : ∀ p, e.payload? ≠ .some (.attemptStarted p) := by
    intro p hp
    simp [AnyEvent.startsAttempt, hp] at he
  have hmem : ∀ (y : AnyEvent) p, y.payload? = .some (.attemptStarted p) →
      (y ∈ l ++ [e] ↔ y ∈ l) := by
    intro y p hp
    rw [List.mem_append, List.mem_singleton]
    exact ⟨fun hy => hy.resolve_right (fun h' => hne p (h' ▸ hp)), Or.inl⟩
  constructor
  · intro x
    rw [h.none]
    exact ⟨fun h' y hy p hp => h' y ((hmem y p hp).mp hy) p hp,
      fun h' y hy p hp => h' y ((hmem y p hp).mpr hy) p hp⟩
  · intro x st hx
    obtain ⟨hn, ⟨y, hy, p, hp, hr⟩, hk⟩ := h.some x st hx
    refine ⟨fun n => ?_, ⟨y, (hmem y p hp).mpr hy, p, hp, hr⟩, hk⟩
    rw [hn]
    constructor
    · rintro ⟨y, hy, p, hp, hr⟩
      exact ⟨y, (hmem y p hp).mpr hy, p, hp, hr⟩
    · rintro ⟨y, hy, p, hp, hr⟩
      exact ⟨y, (hmem y p hp).mp hy, p, hp, hr⟩

/-- An attempt of an execution: its state afterwards holds the number of the attempt, and the
states of the other executions are as they were. -/
theorem TracksExecutions.started (h : TracksExecutions rn m l) {p : AttemptStartedPayload}
    (hp : e.payload? = .some (.attemptStarted p)) {st : ExecutionState}
    (hst : ExecutionFacts rn (l ++ [e]) p.test.executionId st) :
    TracksExecutions rn (m.set p.test.executionId st) (l ++ [e]) := by
  constructor
  · intro x
    rw [JsMap.get?_set]
    split_ifs with hx
    · refine ⟨fun h' => by simp at h', fun h' => ?_⟩
      exact absurd hx.symm (h' e (by simp) p hp)
    · rw [h.none]
      constructor
      · intro h' y hy q hq
        rcases List.mem_append.mp hy with hy | hy
        · exact h' y hy q hq
        · rw [List.mem_singleton.mp hy, hp] at hq
          cases hq
          exact Ne.symm hx
      · intro h' y hy
        exact h' y (List.mem_append_left _ hy)
  · intro x st' hx
    rw [JsMap.get?_set] at hx
    split_ifs at hx with hxe
    · obtain rfl := Option.some.inj hx
      subst hxe
      exact hst
    · obtain ⟨hn, ⟨y, hy, q, hq, hr⟩, hk⟩ := h.some x st' hx
      refine ⟨fun n => ?_, ⟨y, List.mem_append_left _ hy, q, hq, hr⟩, hk⟩
      rw [hn]
      constructor
      · rintro ⟨y, hy, q, hq, hr⟩
        exact ⟨y, List.mem_append_left _ hy, q, hq, hr⟩
      · rintro ⟨y, hy, q, hq, hr⟩
        rcases List.mem_append.mp hy with hy | hy
        · exact ⟨y, hy, q, hq, hr⟩
        · rw [List.mem_singleton.mp hy, hp] at hq
          cases hq
          exact absurd hr.1.symm hxe

theorem executionFacts_first {x : Text} (h : ∀ y ∈ l, ∀ q, y.payload? = some (.attemptStarted q) →
      q.test.executionId ≠ x) {p : AttemptStartedPayload}
    (hp : e.payload? = some (.attemptStarted p)) (hx : p.test.executionId = x) {st : ExecutionState}
    (hnum : ∀ n, st.attemptNumbers.has n = true ↔ n = p.attemptNumber)
    (hid : st.historicalId = p.test.historicalId)
    (hstab : st.historicalIdStability = p.test.historicalIdStability)
    (hrun : st.runnerName = rn e.session) (hk : st.runnerKnown = true) :
    ExecutionFacts rn (l ++ [e]) x st where
  numbers := by
    intro n
    rw [hnum]
    constructor
    · rintro rfl
      exact ⟨e, by simp, p, hp, hx, rfl⟩
    · rintro ⟨y, hy, q, hq, hqx, rfl⟩
      rcases List.mem_append.mp hy with hy | hy
      · exact absurd hqx (h y hy q hq)
      · rw [List.mem_singleton.mp hy, hp] at hq
        cases hq
        rfl
  reference := ⟨e, by simp, p, hp, hx, hid, hstab, hrun⟩
  known := hk

theorem ExecutionFacts.next {x : Text} {st st' : ExecutionState} (h : ExecutionFacts rn l x st)
    {p : AttemptStartedPayload} (hp : e.payload? = some (.attemptStarted p))
    (hx : p.test.executionId = x) {at_ : AttemptPlace}
    (hst' : st' = { st with attemptNumbers := st.attemptNumbers.set p.attemptNumber at_ }) :
    ExecutionFacts rn (l ++ [e]) x st' where
  numbers := by
    intro n
    have hn := h.numbers n
    rw [JsMap.has] at hn ⊢
    rw [hst', JsMap.get?_set]
    split_ifs with heq
    · simp only [Option.isSome_some, true_iff]
      exact ⟨e, by simp, p, hp, hx, heq.symm⟩
    · rw [hn]
      constructor
      · rintro ⟨y, hy, q, hq, hr⟩
        exact ⟨y, List.mem_append_left _ hy, q, hq, hr⟩
      · rintro ⟨y, hy, q, hq, hr⟩
        rcases List.mem_append.mp hy with hy | hy
        · exact ⟨y, hy, q, hq, hr⟩
        · rw [List.mem_singleton.mp hy, hp] at hq
          cases hq
          exact absurd hr.2.symm heq
  reference := by
    obtain ⟨y, hy, q, hq, hr⟩ := h.reference
    rw [hst']
    exact ⟨y, List.mem_append_left _ hy, q, hq, hr⟩
  known := by rw [hst', h.known]

end executions

/-! ### Counters -/

namespace AnyEvent

def isScopeFailed (e : AnyEvent) : Bool :=
  match e.payload? with
  | some (.scopeFailed _) => true
  | _ => false

/-- An attempt.finished event with status `failed`. -/
def failsAttempt (e : AnyEvent) : Bool :=
  match e.payload? with
  | some (.attemptFinished p) => p.status = .failed
  | _ => false

/-- The status of a session.finished event. -/
def sessionStatus (e : AnyEvent) : Option SessionStatus :=
  match e.payload? with
  | some (.sessionFinished p) => p.status
  | _ => none

/-- The failures that a session.finished event carries. -/
def sessionFailures (e : AnyEvent) : ℕ :=
  match e.payload? with
  | some (.sessionFinished p) => (p.failures.getD []).length
  | _ => 0

/-- Hash and size of an attachment.added event. -/
def attachment (e : AnyEvent) : Option (Text × ℤ) :=
  match e.payload? with
  | some (.attachmentAdded p) => some (p.sha256, p.sizeBytes)
  | _ => none

end AnyEvent

structure TracksCounts (b : Books) (l : Log) : Prop where
  steps : b.steps = l.steps.length
  scopeFailures : b.scopeFailures = l.countP AnyEvent.isScopeFailed
  failedAttempts : b.failedAttempts = l.countP AnyEvent.failsAttempt
  failedSessions : b.failedSessions = l.countP (fun e => e.sessionStatus = some .failed)
  inconclusiveSessions :
    b.inconclusiveSessions = l.countP (fun e => e.sessionStatus = some .inconclusive)
  sessionFailures : b.sessionFailures = (l.map AnyEvent.sessionFailures).sum
  attachments : b.attachments.map (fun a => (a.sha256, a.sizeBytes)) =
    l.filterMap AnyEvent.attachment
  runFinished : b.runFinished.isSome = l.any AnyEvent.isRunFinished

/-- What an event adds to the counters. -/
structure Adds (e : AnyEvent) (b b' : Books) : Prop where
  steps : b'.steps = b.steps + e.startsStep.toList.length
  scopeFailures : b'.scopeFailures = b.scopeFailures + if e.isScopeFailed then 1 else 0
  failedAttempts : b'.failedAttempts = b.failedAttempts + if e.failsAttempt then 1 else 0
  failedSessions :
    b'.failedSessions = b.failedSessions + if e.sessionStatus = some .failed then 1 else 0
  inconclusiveSessions : b'.inconclusiveSessions =
    b.inconclusiveSessions + if e.sessionStatus = some .inconclusive then 1 else 0
  sessionFailures : b'.sessionFailures = b.sessionFailures + e.sessionFailures
  attachments : b'.attachments.map (fun a => (a.sha256, a.sizeBytes)) =
    b.attachments.map (fun a => (a.sha256, a.sizeBytes)) ++ e.attachment.toList
  runFinished : b'.runFinished.isSome = (b.runFinished.isSome || e.isRunFinished)

theorem TracksCounts.concat {b b' : Books} {l : Log} {e : AnyEvent} (h : TracksCounts b l)
    (ha : Adds e b b') : TracksCounts b' (l ++ [e]) where
  steps := by
    rw [ha.steps, h.steps, Log.steps, Log.steps, List.filterMap_append, List.length_append]
    cases he : e.startsStep <;> simp [he]
  scopeFailures := by
    rw [ha.scopeFailures, h.scopeFailures, List.countP_append, List.countP_singleton]
  failedAttempts := by
    rw [ha.failedAttempts, h.failedAttempts, List.countP_append, List.countP_singleton]
  failedSessions := by
    rw [ha.failedSessions, h.failedSessions, List.countP_append, List.countP_singleton]
    simp only [decide_eq_true_eq]
  inconclusiveSessions := by
    rw [ha.inconclusiveSessions, h.inconclusiveSessions, List.countP_append,
      List.countP_singleton]
    simp only [decide_eq_true_eq]
  sessionFailures := by
    rw [ha.sessionFailures, h.sessionFailures, List.map_append, List.sum_append]
    simp
  attachments := by
    rw [ha.attachments, h.attachments, List.filterMap_append]
    cases he : e.attachment <;> simp [he]
  runFinished := by
    rw [ha.runFinished, h.runFinished, List.any_append]
    simp

end QeReport

import Mathlib.Data.Set.Card
import Mathlib.Algebra.BigOperators.Group.Finset.Basic
import QeReport.Validator.Validity

/-! # The verdict of a run

The protocol derives the facts of a run, its verdict among them, from the set of its events;
`derive` states the derivation over a finite set of events, with no order and no bookkeeping.
`summary_derived` says that a valid run is summarised by it: what the validator accumulates
event by event depends on the set of accepted events only. -/

namespace QeReport

open GuardedLog

/-! ### The derivation -/

namespace Derivation

variable (E : Finset Event)

def SessionStarted (s : Text) : Prop :=
  ∃ e ∈ E, (∃ p, e.payload = .sessionStarted p) ∧ e.sessionId = s

def SessionFinished (s : Text) : Prop :=
  ∃ e ∈ E, (∃ p, e.payload = .sessionFinished p) ∧ e.sessionId = s

def AttemptStarted (a : Text) : Prop :=
  ∃ e ∈ E, ∃ p, e.payload = .attemptStarted p ∧ p.attemptId = a

def AttemptFinished (a : Text) : Prop :=
  ∃ e ∈ E, ∃ p, e.payload = .attemptFinished p ∧ p.attemptId = a

def StepStarted (s : Text × Text) : Prop :=
  ∃ e ∈ E, ∃ p, e.payload = .stepStarted p ∧ (p.attemptId, p.stepId) = s

def StepFinished (s : Text × Text) : Prop :=
  ∃ e ∈ E, ∃ p, e.payload = .stepFinished p ∧ (p.attemptId, p.stepId) = s

/-- No session, attempt or step is still open. -/
def NothingOpen : Prop :=
  (∀ s, SessionStarted E s → SessionFinished E s) ∧
  (∀ a, AttemptStarted E a → AttemptFinished E a) ∧ ∀ s, StepStarted E s → StepFinished E s

/-- The final attempt of an execution: the one with the highest number. -/
def FinalAttempt (p : AttemptStartedPayload) : Prop :=
  (∃ e ∈ E, e.payload = .attemptStarted p) ∧
    ∀ e ∈ E, ∀ q, e.payload = .attemptStarted q →
      q.test.executionId = p.test.executionId → q.attemptNumber ≤ p.attemptNumber

/-- How an attempt ended. -/
def EndsWith (a : Text) (q : AttemptFinishedPayload) : Prop :=
  ∃ e ∈ E, e.payload = .attemptFinished q ∧ q.attemptId = a

/-- An unexpected outcome: a failure that is no expected failure (`failed`/`failed`), or a pass
where failure was expected (`passed`/`failed`). -/
def Unexpected (q : AttemptFinishedPayload) : Prop :=
  (q.status = .failed ∧ q.expectedStatus.getD .passed ≠ .failed) ∨
    (q.status = .passed ∧ q.expectedStatus.getD .passed = .failed)

def SessionStatusIs (status : SessionStatus) (e : Event) : Prop :=
  ∃ p, e.payload = .sessionFinished p ∧ p.status = some status

def Failed : Prop :=
  (∃ p q, FinalAttempt E p ∧ EndsWith E p.attemptId q ∧ Unexpected q) ∨
  (∃ e ∈ E, ∃ p, e.payload = .scopeFailed p) ∨ ∃ e ∈ E, SessionStatusIs .failed e

def Inconclusive : Prop :=
  (∃ p q, FinalAttempt E p ∧ EndsWith E p.attemptId q ∧ q.status = .inconclusive) ∨
  ∃ e ∈ E, SessionStatusIs .inconclusive e

/-- The failures that a session.finished event carries. -/
def failuresOf (e : Event) : ℕ :=
  match e.payload with
  | .sessionFinished p => (p.failures.getD []).length
  | _ => 0

end Derivation

/-- The facts of a run that the protocol derives from its events. -/
structure RunFacts where
  sessions : ℕ
  attempts : ℕ
  steps : ℕ
  attachments : ℕ
  failedAttempts : ℕ
  scopeFailures : ℕ
  failedSessions : ℕ
  inconclusiveSessions : ℕ
  sessionFailures : ℕ
  complete : Bool
  closed : Bool
  verdict : Verdict

/-- The derived facts among the fields of a summary. -/
def Summary.facts (s : Summary) : RunFacts :=
  ⟨s.sessions, s.attempts, s.steps, s.attachments, s.failedAttempts, s.scopeFailures,
    s.failedSessions, s.inconclusiveSessions, s.sessionFailures, s.complete, s.closed, s.verdict⟩

open QeReport.Derivation in
open Classical in
/-- The derivation of the facts of a run from the set of its events. -/
noncomputable def derive (E : Finset Event) : RunFacts where
  sessions := {s | SessionStarted E s}.ncard
  attempts := {a | AttemptStarted E a}.ncard
  steps := {s | StepStarted E s}.ncard
  attachments := (E.filter (fun e => ∃ p, e.payload = .attachmentAdded p)).card
  failedAttempts :=
    (E.filter (fun e => ∃ p, e.payload = .attemptFinished p ∧ p.status = .failed)).card
  scopeFailures := (E.filter (fun e => ∃ p, e.payload = .scopeFailed p)).card
  failedSessions := (E.filter (SessionStatusIs .failed)).card
  inconclusiveSessions := (E.filter (SessionStatusIs .inconclusive)).card
  sessionFailures := ∑ e ∈ E, failuresOf e
  complete := decide (NothingOpen E)
  closed := decide (∃ e ∈ E, e.payload = .runFinished)
  verdict :=
    if ¬ NothingOpen E then .incomplete
    else if Failed E then .failed
    else if Inconclusive E then .inconclusive
    else .passed

/-- The accepted known events of a sequence of `feed` calls. -/
def acceptedEvents (rt : Runtime) (options : ValidateOptions) (calls : List FeedCall) : List Event :=
  (feedAll rt { options with retainEvents := true } calls).books.accepted

/-! ### Final attempts -/

/-- `m` holds the final attempt of every execution among `vs`. -/
structure HoldsFinals (m : JsMap Text AttemptState) (vs : List AttemptState) : Prop where
  none : ∀ x, m.get? x = none → ∀ a ∈ vs, a.executionId ≠ x
  some : ∀ x st, m.get? x = some st → st ∈ vs ∧ st.executionId = x ∧
    ∀ a ∈ vs, a.executionId = x → a.attemptNumber ≤ st.attemptNumber

theorem HoldsFinals.keepFinal {m : JsMap Text AttemptState} {vs : List AttemptState}
    (h : HoldsFinals m vs) (a : AttemptState) : HoldsFinals (keepFinal m a) (vs ++ [a]) := by
  have hother : ∀ x, a.executionId ≠ x → (QeReport.keepFinal m a).get? x = m.get? x := by
    intro x hx
    unfold QeReport.keepFinal
    split
    · exact JsMap.get?_set_ne _ _ (Ne.symm hx)
    · split_ifs
      · exact JsMap.get?_set_ne _ _ (Ne.symm hx)
      · rfl
  have hown : (∃ st, (QeReport.keepFinal m a).get? a.executionId = .some st ∧ st ∈ vs ++ [a] ∧
      st.executionId = a.executionId ∧
      ∀ c ∈ vs ++ [a], c.executionId = a.executionId → c.attemptNumber ≤ st.attemptNumber) := by
    unfold QeReport.keepFinal
    cases hcur : m.get? a.executionId with
    | none =>
        refine ⟨a, JsMap.get?_set_self _ _ _, by simp, rfl, fun c hc hce => ?_⟩
        rcases List.mem_append.mp hc with hc | hc
        · exact absurd hce (h.none _ hcur c hc)
        · rw [List.mem_singleton.mp hc]
    | some current =>
        obtain ⟨h1, h2, h3⟩ := h.some _ current hcur
        dsimp only
        split_ifs with hgt
        · refine ⟨a, JsMap.get?_set_self _ _ _, by simp, rfl, fun c hc hce => ?_⟩
          rcases List.mem_append.mp hc with hc | hc
          · exact (h3 c hc hce).trans (le_of_lt hgt)
          · rw [List.mem_singleton.mp hc]
        · refine ⟨current, hcur, List.mem_append_left _ h1, h2, fun c hc hce => ?_⟩
          rcases List.mem_append.mp hc with hc | hc
          · exact h3 c hc hce
          · rw [List.mem_singleton.mp hc]
            exact not_lt.mp hgt
  obtain ⟨st, hst, hown⟩ := hown
  constructor
  · intro x hx c hc
    by_cases hax : a.executionId = x
    · rw [← hax, hst] at hx
      cases hx
    · rw [hother x hax] at hx
      rcases List.mem_append.mp hc with hc | hc
      · exact h.none x hx c hc
      · rwa [List.mem_singleton.mp hc]
  · intro x st' hx
    by_cases hax : a.executionId = x
    · subst hax
      rw [hst] at hx
      obtain rfl := Option.some.inj hx
      exact hown
    · rw [hother x hax] at hx
      obtain ⟨h1, h2, h3⟩ := h.some x st' hx
      refine ⟨List.mem_append_left _ h1, h2, fun c hc hce => ?_⟩
      rcases List.mem_append.mp hc with hc | hc
      · exact h3 c hc hce
      · rw [List.mem_singleton.mp hc] at hce
        exact absurd hce hax

theorem finalAttempts_holds (b : Books) : HoldsFinals (finalAttempts b) b.attempts.values := by
  unfold finalAttempts
  induction b.attempts.values using List.reverseRecOn with
  | nil => exact ⟨by simp, by simp⟩
  | append_singleton vs a ih =>
      rw [List.foldl_append]
      exact ih.keepFinal a

/-! ### The log and the set of its known events -/

section events
variable {options : ValidateOptions} {b : Books} {l : Log} {E : Finset Event}
  (hE : ∀ e, e ∈ E ↔ AnyEvent.known e ∈ l)
include hE

/-- A list that only known events add to. -/
theorem mem_filterMap_known {β : Type} {f : AnyEvent → Option β} (hf : ∀ u, f (.unknown u) = none)
    {c : β} : c ∈ l.filterMap f ↔ ∃ e ∈ E, f (.known e) = some c := by
  rw [List.mem_filterMap]
  constructor
  · rintro ⟨x, hx, hc⟩
    cases x with
    | known e => exact ⟨e, (hE e).mpr hx, hc⟩
    | unknown u =>
        rw [hf] at hc
        cases hc
  · rintro ⟨e, he, hc⟩
    exact ⟨.known e, (hE e).mp he, hc⟩

theorem mem_attempts_iff {a : Text} : a ∈ l.attempts ↔ Derivation.AttemptStarted E a := by
  rw [Log.attempts, mem_filterMap_known hE (fun _ => rfl)]
  simp [Derivation.AttemptStarted, AnyEvent.startsAttempt_eq_some, AnyEvent.payload?]

theorem mem_finishedAttempts_iff {a : Text} :
    a ∈ l.finishedAttempts ↔ Derivation.AttemptFinished E a := by
  rw [Log.finishedAttempts, mem_filterMap_known hE (fun _ => rfl)]
  simp [Derivation.AttemptFinished, AnyEvent.endsAttempt_eq_some, AnyEvent.payload?]

theorem mem_steps_iff {s : Text × Text} : s ∈ l.steps ↔ Derivation.StepStarted E s := by
  rw [Log.steps, mem_filterMap_known hE (fun _ => rfl)]
  simp [Derivation.StepStarted, AnyEvent.startsStep_eq_some, AnyEvent.payload?]

theorem mem_finishedSteps_iff {s : Text × Text} :
    s ∈ l.finishedSteps ↔ Derivation.StepFinished E s := by
  rw [Log.finishedSteps, mem_filterMap_known hE (fun _ => rfl)]
  simp [Derivation.StepFinished, AnyEvent.endsStep_eq_some, AnyEvent.payload?]

theorem mem_finishedSessions_iff {s : Text} :
    s ∈ l.finishedSessions ↔ Derivation.SessionFinished E s := by
  rw [Log.finishedSessions, mem_filterMap_known hE (fun _ => rfl)]
  simp [Derivation.SessionFinished, AnyEvent.endsSession_eq_some, AnyEvent.payload?,
    AnyEvent.session, AnyEvent.envelope]

/-- Every session of a log that kept the rules was started. -/
theorem mem_sessions_iff (hl : Lifecycle l) {s : Text} :
    s ∈ l.sessions ↔ Derivation.SessionStarted E s := by
  constructor
  · intro hs
    obtain ⟨x, hx, hst, rfl⟩ := session_started hl hs
    obtain ⟨p, hp⟩ := AnyEvent.isSessionStarted_iff.mp hst
    obtain ⟨e, rfl, he⟩ := AnyEvent.payload?_eq_some.mp hp
    exact ⟨e, (hE e).mpr hx, ⟨p, he⟩, rfl⟩
  · rintro ⟨e, he, -, rfl⟩
    exact Log.session_mem ((hE e).mp he)

theorem complete_iff (hl : Lifecycle l) : Complete l ↔ Derivation.NothingOpen E := by
  simp only [Derivation.NothingOpen, ← mem_attempts_iff hE, ← mem_finishedAttempts_iff hE,
    ← mem_steps_iff hE, ← mem_finishedSteps_iff hE, ← mem_finishedSessions_iff hE,
    ← mem_sessions_iff hE hl]
  exact ⟨fun h => ⟨h.sessions, h.attempts, h.steps⟩, fun h => ⟨h.1, h.2.1, h.2.2⟩⟩

/-- A property of the outcome of the final attempts. -/
theorem any_final_iff (h : Follows options b l) {f : AttemptState → Bool}
    {g : AttemptFinishedPayload → Prop}
    (hend : ∀ a st, AttemptFacts l a st → ∀ x ∈ l, ∀ q, x.payload? = some (.attemptFinished q) →
      q.attemptId = a → (f st = true ↔ g q))
    (hopen : ∀ a st, AttemptFacts l a st → a ∉ l.finishedAttempts → f st = false) :
    (finalAttempts b).values.any f = true ↔
      ∃ p q, Derivation.FinalAttempt E p ∧ Derivation.EndsWith E p.attemptId q ∧ g q := by
  have hfinals := finalAttempts_holds b
  have hvalues : ∀ {st}, st ∈ b.attempts.values ↔ ∃ a, b.attempts.get? a = some st :=
    JsMap.mem_values
  rw [List.any_eq_true]
  constructor
  · rintro ⟨st, hst, hf⟩
    obtain ⟨x, hx⟩ := JsMap.mem_values.mp hst
    obtain ⟨hv, hexec, hmax⟩ := hfinals.some x st hx
    obtain ⟨a, ha⟩ := hvalues.mp hv
    have facts := h.tracks.attempts.some a st ha
    obtain ⟨y, hy, p, hp, hpa, -, hpe, hpn⟩ := facts.started
    obtain ⟨e, rfl, he⟩ := AnyEvent.payload?_eq_some.mp hp
    have hdone : a ∈ l.finishedAttempts := by
      by_contra hno
      rw [hopen a st facts hno] at hf
      cases hf
    obtain ⟨z, hz, hza⟩ := List.mem_filterMap.mp hdone
    obtain ⟨q, hq, hqa⟩ := AnyEvent.endsAttempt_eq_some.mp hza
    obtain ⟨k, rfl, hk⟩ := AnyEvent.payload?_eq_some.mp hq
    refine ⟨p, q, ⟨⟨e, (hE e).mpr hy, he⟩, fun e' he' p' hp' hpx => ?_⟩,
      ⟨k, (hE k).mpr hz, hk, hqa.trans hpa.symm⟩, (hend a st facts _ hz q hq hqa).mp hf⟩
    obtain ⟨st', hst', -, -, hse', hsn'⟩ := h.tracks.attempts.of_started h.lifecycle
      ((hE e').mp he') (AnyEvent.payload?_eq_some.mpr ⟨e', rfl, hp'⟩)
    rw [← hsn', ← hpn]
    exact hmax st' (hvalues.mpr ⟨_, hst'⟩) (by rw [hse', hpx, ← hpe, hexec])
  · rintro ⟨p, q, ⟨⟨e, he, hp⟩, hmax⟩, ⟨k, hk, hq, hqa⟩, hg⟩
    have hpay : (AnyEvent.known e).payload? = some (.attemptStarted p) :=
      AnyEvent.payload?_eq_some.mpr ⟨e, rfl, hp⟩
    obtain ⟨st, hst, facts, -, hse, hsn⟩ :=
      h.tracks.attempts.of_started h.lifecycle ((hE e).mp he) hpay
    have hv := hvalues.mpr ⟨_, hst⟩
    cases hfin : (finalAttempts b).get? p.test.executionId with
    | none => exact absurd hse (hfinals.none _ hfin st hv)
    | some st' =>
        obtain ⟨hv', hexec', hmax'⟩ := hfinals.some _ st' hfin
        obtain ⟨a', ha'⟩ := hvalues.mp hv'
        obtain ⟨y, hy, p', hp', hpa', -, hpe', hpn'⟩ :=
          (h.tracks.attempts.some a' st' ha').started
        obtain ⟨e', rfl, he'⟩ := AnyEvent.payload?_eq_some.mp hp'
        have hle := hmax e' ((hE e').mpr hy) p' he' (hpe'.symm.trans hexec')
        have hge := hmax' st hv hse
        have hnum : p'.attemptNumber = p.attemptNumber := by omega
        have hsame : AnyEvent.known e' = AnyEvent.known e := by
          refine attemptNumber_unique h.lifecycle hy ((hE e).mp he)
            (AnyEvent.attemptNumber_eq_some.mpr ⟨p', hp', rfl⟩)
            (AnyEvent.attemptNumber_eq_some.mpr ⟨p, hpay, ?_⟩)
          rw [hnum, ← hpe', hexec']
        rw [hsame, hpay] at hp'
        cases hp'
        rw [← hpa', hst] at ha'
        obtain rfl := Option.some.inj ha'
        refine ⟨st, JsMap.mem_values.mpr ⟨_, hfin⟩, ?_⟩
        exact (hend _ st facts _ ((hE k).mp hk) q
          (AnyEvent.payload?_eq_some.mpr ⟨k, rfl, hq⟩) hqa).mpr hg

end events

/-! ### Counting -/

section counting
variable {l : Log} {E : Finset Event} (hE : ∀ e, e ∈ E ↔ AnyEvent.known e ∈ l) (hl : l.Nodup)
include hE hl

theorem known_toFinset : (l.filterMap AnyEvent.known?).Nodup ∧
    (l.filterMap AnyEvent.known?).toFinset = E := by
  constructor
  · refine hl.filterMap (fun x y e hx hy => ?_)
    cases x <;> cases y <;> simp_all [AnyEvent.known?]
  · ext e
    rw [List.mem_toFinset, mem_filterMap_known hE (fun _ => rfl)]
    simp [AnyEvent.known?]

theorem countP_known {f : AnyEvent → Bool} (hf : ∀ u, f (.unknown u) = false) {P : Event → Prop}
    [DecidablePred P] (hP : ∀ e, f (.known e) = true ↔ P e) : l.countP f = (E.filter P).card := by
  obtain ⟨hnd, hset⟩ := known_toFinset hE hl
  have hfilter : E.filter P = ((l.filterMap AnyEvent.known?).filter (P ·)).toFinset := by
    rw [← hset, List.toFinset_filter]
    simp
  rw [hfilter, List.toFinset_card_of_nodup (hnd.filter _), ← List.countP_eq_length_filter,
    List.countP_filterMap]
  refine List.countP_congr (fun x _ => ?_)
  cases x with
  | known e => simp [AnyEvent.known?, hP]
  | unknown u => simp [AnyEvent.known?, hf]

theorem sum_known {f : AnyEvent → ℕ} (hf : ∀ u, f (.unknown u) = 0) {g : Event → ℕ}
    (hg : ∀ e, f (.known e) = g e) : (l.map f).sum = ∑ e ∈ E, g e := by
  obtain ⟨hnd, hset⟩ := known_toFinset hE hl
  rw [← hset, List.sum_toFinset _ hnd]
  clear hE hl hnd hset
  induction l with
  | nil => rfl
  | cons x l ih =>
      cases x with
      | known e => simp [AnyEvent.known?, hg, ih]
      | unknown u =>
          rw [List.filterMap_cons_none (by rfl), List.map_cons, List.sum_cons, hf, Nat.zero_add, ih]

end counting

theorem ncard_of_list {α : Type} {xs : List α} (hxs : xs.Nodup) {P : α → Prop}
    (hP : ∀ a, a ∈ xs ↔ P a) : {a | P a}.ncard = xs.length := by
  classical
  have hset : {a | P a} = (xs.toFinset : Set α) := by
    ext a
    simp [hP]
  rw [hset, Set.ncard_coe_finset, List.toFinset_card_of_nodup hxs]

/-! ### The summary -/

section summary
variable {options : ValidateOptions} {b : Books} {l : Log} {E : Finset Event}
  (h : Follows options b l) (hE : ∀ e, e ∈ E ↔ AnyEvent.known e ∈ l) (hl : l.Nodup)
include h hE hl

theorem scopeFailures_eq [DecidablePred (fun e : Event => ∃ p, e.payload = .scopeFailed p)] :
    b.scopeFailures = (E.filter (fun e => ∃ p, e.payload = .scopeFailed p)).card := by
  rw [h.tracks.counts.scopeFailures]
  refine countP_known hE hl (fun _ => rfl) (fun e => ?_)
  cases hp : e.payload <;> simp [AnyEvent.isScopeFailed, AnyEvent.payload?, hp]

omit h in
theorem sessionStatus_eq {status : SessionStatus}
    [DecidablePred (Derivation.SessionStatusIs status)] :
    l.countP (fun e => e.sessionStatus = some status) =
      (E.filter (Derivation.SessionStatusIs status)).card := by
  refine countP_known hE hl (fun _ => rfl) (fun e => ?_)
  cases hp : e.payload <;>
    simp [AnyEvent.sessionStatus, AnyEvent.payload?, Derivation.SessionStatusIs, hp]

theorem failed_iff :
    ((finalAttempts b).values.any (fun a => a.unexpected) || decide (b.scopeFailures > 0) ||
      decide (b.failedSessions > 0)) = true ↔ Derivation.Failed E := by
  classical
  have hfinal := any_final_iff hE h (f := fun a => a.unexpected) (g := Derivation.Unexpected)
    (fun a st facts x hx q hq hqa => by
      rw [(facts.outcome x hx q hq hqa).1]
      simp [unexpectedOutcome, Derivation.Unexpected])
    (fun a st facts ha => (facts.unfinished ha).1)
  rw [Bool.or_eq_true, Bool.or_eq_true, hfinal, decide_eq_true_eq, decide_eq_true_eq,
    scopeFailures_eq h hE hl, h.tracks.counts.failedSessions, sessionStatus_eq hE hl, gt_iff_lt,
    gt_iff_lt, Finset.card_pos, Finset.card_pos, Finset.filter_nonempty_iff,
    Finset.filter_nonempty_iff, or_assoc]
  rfl

theorem inconclusive_iff :
    ((finalAttempts b).values.any (fun a => a.inconclusive) ||
      decide (b.inconclusiveSessions > 0)) = true ↔ Derivation.Inconclusive E := by
  classical
  have hfinal := any_final_iff hE h (f := fun a => a.inconclusive)
    (g := fun q => q.status = .inconclusive)
    (fun a st facts x hx q hq hqa => by
      rw [(facts.outcome x hx q hq hqa).2]
      simp)
    (fun a st facts ha => (facts.unfinished ha).2)
  rw [Bool.or_eq_true, hfinal, decide_eq_true_eq, h.tracks.counts.inconclusiveSessions,
    sessionStatus_eq hE hl, gt_iff_lt, Finset.card_pos, Finset.filter_nonempty_iff]
  rfl

/-- The bookkeeping of a log sums up to the facts derived from the set of its known events. -/
theorem facts_eq_derive : (summaryOf b).facts = derive E := by
  classical
  have hstart : ∀ s, s ∈ (l.filter AnyEvent.isSessionStarted).map AnyEvent.session ↔
      Derivation.SessionStarted E s := by
    intro s
    rw [← mem_sessions_iff hE h.lifecycle]
    constructor
    · intro hs
      obtain ⟨x, hx, rfl⟩ := List.mem_map.mp hs
      exact Log.session_mem (List.mem_of_mem_filter hx)
    · intro hs
      obtain ⟨x, hx, hst, rfl⟩ := session_started h.lifecycle hs
      exact List.mem_map_of_mem (List.mem_filter.mpr ⟨hx, hst⟩)
  have hcomplete : isComplete b = true ↔ Derivation.NothingOpen E :=
    (isComplete_iff h).trans (complete_iff hE h.lifecycle)
  have counts := h.tracks.counts
  rw [Summary.facts, derive, RunFacts.mk.injEq]
  refine ⟨?_, ?_, ?_, ?_, ?_, ?_, ?_, ?_, ?_, ?_, ?_, ?_⟩
  · rw [ncard_of_list (startedSessions_nodup h.lifecycle) hstart, List.length_map, ← h.sessions.size]
    rfl
  · rw [ncard_of_list (attempts_nodup h.lifecycle) (fun a => mem_attempts_iff hE),
      ← h.tracks.attempts.size]
    rfl
  · rw [ncard_of_list (steps_nodup h.lifecycle) (fun a => mem_steps_iff hE), ← counts.steps]
    rfl
  · have hlength : b.attachments.length = l.countP (fun e => e.attachment.isSome) := by
      rw [← List.length_filterMap_eq_countP, ← counts.attachments, List.length_map]
    refine hlength.trans (countP_known hE hl (fun _ => rfl) (fun e => ?_))
    cases hp : e.payload <;> simp [AnyEvent.attachment, AnyEvent.payload?, hp]
  · refine counts.failedAttempts.trans (countP_known hE hl (fun _ => rfl) (fun e => ?_))
    cases hp : e.payload <;> simp [AnyEvent.failsAttempt, AnyEvent.payload?, hp]
  · exact scopeFailures_eq h hE hl
  · exact counts.failedSessions.trans (sessionStatus_eq hE hl)
  · exact counts.inconclusiveSessions.trans (sessionStatus_eq hE hl)
  · refine counts.sessionFailures.trans (sum_known hE hl (fun _ => rfl) (fun e => ?_))
    cases hp : e.payload <;>
      simp [AnyEvent.sessionFailures, AnyEvent.payload?, Derivation.failuresOf, hp]
  · rw [Bool.eq_iff_iff, decide_eq_true_eq]
    exact hcomplete
  · rw [Bool.eq_iff_iff, decide_eq_true_eq, summaryOf, counts.runFinished, List.any_eq_true]
    constructor
    · rintro ⟨x, hx, hrun⟩
      obtain ⟨e, rfl, he⟩ := AnyEvent.payload?_eq_some.mp (AnyEvent.isRunFinished_iff.mp hrun)
      exact ⟨e, (hE e).mpr hx, he⟩
    · rintro ⟨e, he, hp⟩
      refine ⟨.known e, (hE e).mp he, AnyEvent.isRunFinished_iff.mpr ?_⟩
      exact AnyEvent.payload?_eq_some.mpr ⟨e, rfl, hp⟩
  · rw [summaryOf, verdictOf]
    refine if_congr ?_ rfl (if_congr (failed_iff h hE hl) rfl
      (if_congr (inconclusive_iff h hE hl) rfl rfl))
    rw [Bool.not_eq_true', ← Bool.not_eq_true, hcomplete]

end summary

/-- Two logs of the same events are summed up alike. -/
theorem summaryOf_perm {options options' : ValidateOptions} {b b' : Books} {l l' : Log}
    (h : Follows options b l) (h' : Follows options' b' l') (hl : l.Nodup) (hp : l.Perm l')
    (hdup : b'.duplicates = b.duplicates) :
    summaryOf b' = { summaryOf b with files := b'.files } := by
  have hE : ∀ e, e ∈ (l.filterMap AnyEvent.known?).toFinset ↔ AnyEvent.known e ∈ l := by
    intro e
    rw [List.mem_toFinset, List.mem_filterMap]
    constructor
    · rintro ⟨x, hx, hxe⟩
      cases x with
      | known k =>
          obtain rfl := Option.some.inj hxe
          exact hx
      | unknown u => cases hxe
    · exact fun he => ⟨_, he, rfl⟩
  have hfacts : (summaryOf b').facts = (summaryOf b).facts := by
    rw [facts_eq_derive h hE hl,
      facts_eq_derive h' (fun e => (hE e).trans hp.mem_iff) (hp.nodup_iff.mp hl)]
  have hevents : b'.events = b.events := by rw [h.events, h'.events, hp.length_eq]
  have hignored : b'.ignored = b.ignored := by rw [h.ignored, h'.ignored, hp.countP_eq]
  simp only [Summary.facts, RunFacts.mk.injEq] at hfacts
  obtain ⟨f1, f2, f3, f4, f5, f6, f7, f8, f9, f10, f11, f12⟩ := hfacts
  rw [Summary.mk.injEq]
  exact ⟨rfl, hevents, f1, f2, f3, f4, f5, f6, f7, f8, f9, hignored, hdup, f10, f11, f12⟩

/-! ### Valid runs -/

section runs
variable {rt : Runtime} {fs : FileSystem} {options : ValidateOptions} {calls : List FeedCall}

/-- The accepted events of a valid run are the known events of its log. -/
theorem acceptedEvents_eq (h : ValidRun rt fs options calls) :
    acceptedEvents rt options calls = (runLog rt options calls).filterMap AnyEvent.known? := by
  obtain ⟨h1, h2, h3, h4, h5, h6, h7⟩ := h
  have hv : ValidRun rt fs { options with retainEvents := true } calls := ⟨h1, h2, h3, h4, h5, h6, h7⟩
  exact hv.ends.follows.accepted

theorem mem_acceptedEvents (h : ValidRun rt fs options calls) {e : Event} :
    e ∈ acceptedEvents rt options calls ↔ .known e ∈ runLog rt options calls := by
  rw [acceptedEvents_eq h, List.mem_filterMap]
  constructor
  · rintro ⟨x, hx, hxe⟩
    cases x with
    | known k =>
        obtain rfl := Option.some.inj hxe
        exact hx
    | unknown u => cases hxe
  · exact fun he => ⟨_, he, rfl⟩

theorem summary_facts (h : ValidRun rt fs options calls) :
    (reportOf rt fs options calls).summary.facts =
      derive (acceptedEvents rt options calls).toFinset := by
  refine facts_eq_derive h.ends.follows (fun e => ?_) (logOf_nodup _)
  rw [List.mem_toFinset]
  exact mem_acceptedEvents h

end runs

/-- The summary of a valid run is the protocol's derivation from the set of its accepted events,
so every order of feeding them that is valid gives the same facts. -/
theorem summary_derived (rt : Runtime) (fs : FileSystem) (options : ValidateOptions)
    (calls : List FeedCall) (h : (reportOf rt fs options calls).valid = true) :
    (reportOf rt fs options calls).summary.facts =
      derive (acceptedEvents rt options calls).toFinset ∧
    ∀ calls', (reportOf rt fs options calls').valid = true →
      (∀ e, e ∈ acceptedEvents rt options calls' ↔ e ∈ acceptedEvents rt options calls) →
      (reportOf rt fs options calls').summary.facts =
        (reportOf rt fs options calls).summary.facts := by
  have hv := (valid_iff rt fs options calls).mp h
  refine ⟨summary_facts hv, fun calls' h' hsame => ?_⟩
  rw [summary_facts hv, summary_facts ((valid_iff rt fs options calls').mp h')]
  congr 1
  ext e
  rw [List.mem_toFinset, List.mem_toFinset]
  exact hsame e

theorem summary_derived_retried :
    (reportOf Sample.runtime Sample.noFiles Sample.options [Sample.retried]).valid = true ∧
    (derive (acceptedEvents Sample.runtime Sample.options [Sample.retried]).toFinset).verdict =
      .passed := by
  have hvalid : (reportOf Sample.runtime Sample.noFiles Sample.options [Sample.retried]).valid =
      true := by
    decide +kernel
  refine ⟨hvalid, ?_⟩
  rw [← (summary_derived _ _ _ _ hvalid).1]
  decide +kernel

end QeReport

import QeReport.Validator.Tracking

/-! # The event switch meets the guard

`Handles` is the contract of the event switch: it complains about an event exactly when
`PayloadGuard` fails, and otherwise the bookkeeping follows the longer log.  `handle_handles`
collects the lemmas of the single handlers. -/

namespace QeReport

open GuardedLog

/-! ### The handlers -/

/-- The fields no handler touches. -/
structure SameLedger (b b' : Books) : Prop where
  seen : b'.seen = b.seen
  accepted : b'.accepted = b.accepted
  source : b'.source = b.source
  runId : b'.runId = b.runId
  files : b'.files = b.files
  events : b'.events = b.events
  ignored : b'.ignored = b.ignored
  duplicates : b'.duplicates = b.duplicates

/-- The parts of the bookkeeping that the handlers keep. -/
structure Tracks (rn : Text → Option Text) (b : Books) (l : Log) : Prop where
  attempts : TracksAttempts b.attempts l
  executions : TracksExecutions rn b.executions l
  counts : TracksCounts b l

/-- A handler is right about an event: it complains exactly when the guard fails, and otherwise
the bookkeeping follows. -/
structure Handles (rn : Text → Option Text) (l : Log) (e : AnyEvent) (b : Books)
    (out : List Diagnostic × Books) : Prop where
  errorFree : ErrorFree out.1 ↔ PayloadGuard rn l e
  tracks : PayloadGuard rn l e → Tracks rn out.2 (l ++ [e])
  ledger : SameLedger b out.2

theorem Handles.rejected {rn : Text → Option Text} {l : Log} {e : AnyEvent} {b : Books}
    {ds : List Diagnostic} (hd : ¬ ErrorFree ds) (hg : ¬ PayloadGuard rn l e) :
    Handles rn l e b (ds, b) :=
  ⟨iff_of_false hd hg, fun h => absurd h hg, ⟨rfl, rfl, rfl, rfl, rfl, rfl, rfl, rfl⟩⟩

theorem errorFree_check {c : Bool} {d : Diagnostic} (hd : d.severity = .error) :
    ErrorFree (check c d) ↔ c = false := by
  cases c <;> simp [check, ErrorFree, hd]

theorem errorFree_check_lifecycle {c : Bool} {at_ : Place} {detail : LifecycleDetail}
    {message : Text} : ErrorFree (check c (lifecycle at_ detail message)) ↔ c = false :=
  errorFree_check rfl

theorem errorFree_flatMap {α : Type} {xs : List α} {f : α → List Diagnostic} :
    ErrorFree (xs.flatMap f) ↔ ∀ x ∈ xs, ErrorFree (f x) := by
  simp only [ErrorFree, List.mem_flatMap, forall_exists_index, and_imp]
  exact ⟨fun h x hx d hd => h d x hx hd, fun h d x hx hd => h x hx d hd⟩

theorem not_errorFree_lifecycle {at_ : Place} {detail : LifecycleDetail} {message : Text} :
    ¬ ErrorFree [lifecycle at_ detail message] := by
  simp [ErrorFree, lifecycle]

section handlers
variable {rn : Text → Option Text} {l : Log} {e : Event} {b : Books} {at_ : Place}
  {session : SessionState}

theorem sessionFinished_handles (h : Tracks rn b l) (hl : Admissible (Guard rn) l)
    {p : SessionFinishedPayload} (hp : e.payload = .sessionFinished p) :
    Handles rn l (.known e) b (sessionFinished at_ e.toEnvelope session p b) := by
  have hpay : (AnyEvent.known e).payload? = some (.sessionFinished p) := by
    simp [AnyEvent.payload?, hp]
  refine ⟨?_, fun _ => ⟨?_, ?_, ?_⟩, ⟨rfl, rfl, rfl, rfl, rfl, rfl, rfl, rfl⟩⟩
  · rw [PayloadGuard, hpay]
    simp only [sessionFinished, errorFree_flatMap]
    constructor
    · intro hfree x hx hs a ha
      obtain ⟨st, hst, hf⟩ := h.attempts.get_of_mem (List.mem_filterMap.mpr ⟨x, hx, ha⟩)
      obtain ⟨y, hy, q, hq, hqa, hys, -⟩ := hf.started
      obtain rfl := attempt_unique hl hx hy ha (AnyEvent.startsAttempt_eq_some.mpr ⟨q, hq, hqa⟩)
      have hc := errorFree_check_lifecycle.mp (hfree (a, st) (JsMap.mem_entries.mpr hst))
      rw [← hf.finished]
      simpa [hys.trans hs, AnyEvent.session, AnyEvent.envelope] using hc
    · rintro hg ⟨a, st⟩ hx
      have hf := h.attempts.some a st (JsMap.mem_entries.mp hx)
      obtain ⟨y, hy, q, hq, hqa, hys, -⟩ := hf.started
      refine errorFree_check_lifecycle.mpr ?_
      by_cases hs : y.session = e.sessionId
      · have := hf.finished.mpr (hg y hy hs a (AnyEvent.startsAttempt_eq_some.mpr ⟨q, hq, hqa⟩))
        simp [this]
      · simp [hys, hs]
  · exact h.attempts.inert (by simp [AnyEvent.startsAttempt, hpay])
      (by simp [AnyEvent.endsAttempt, hpay]) (by simp [AnyEvent.startsStep, hpay])
      (by simp [AnyEvent.endsStep, hpay])
  · exact h.executions.inert (by simp [AnyEvent.startsAttempt, hpay])
  · refine h.counts.concat ?_
    constructor <;> simp [sessionFinished, AnyEvent.startsStep, AnyEvent.isScopeFailed,
      AnyEvent.failsAttempt, AnyEvent.sessionStatus, AnyEvent.sessionFailures, AnyEvent.attachment,
      AnyEvent.isRunFinished, hpay] <;> split_ifs <;> rfl

theorem runFinished_handles (h : Tracks rn b l) (hp : e.payload = .runFinished) :
    Handles rn l (.known e) b (runFinished at_ b) := by
  have hpay : (AnyEvent.known e).payload? = some .runFinished := by
    simp [AnyEvent.payload?, hp]
  have hrun := h.counts.runFinished
  have hguard : PayloadGuard rn l (.known e) ↔ b.runFinished.isSome = false := by
    rw [PayloadGuard, hpay, hrun]
    simp
  unfold runFinished
  split
  · rename_i first hfirst
    refine .rejected not_errorFree_lifecycle ?_
    simp [hguard, hfirst]
  · rename_i hnone
    refine ⟨?_, fun _ => ⟨?_, ?_, ?_⟩, ⟨rfl, rfl, rfl, rfl, rfl, rfl, rfl, rfl⟩⟩
    · simp [hguard, hnone, errorFree_nil]
    · exact h.attempts.inert (by simp [AnyEvent.startsAttempt, hpay])
        (by simp [AnyEvent.endsAttempt, hpay]) (by simp [AnyEvent.startsStep, hpay])
        (by simp [AnyEvent.endsStep, hpay])
    · exact h.executions.inert (by simp [AnyEvent.startsAttempt, hpay])
    · refine h.counts.concat ?_
      constructor <;> simp [AnyEvent.startsStep, AnyEvent.isScopeFailed, AnyEvent.failsAttempt,
        AnyEvent.sessionStatus, AnyEvent.sessionFailures, AnyEvent.attachment,
        AnyEvent.isRunFinished, hpay]

theorem attemptFinished_handles (h : Tracks rn b l) {p : AttemptFinishedPayload}
    (hp : e.payload = .attemptFinished p) :
    Handles rn l (.known e) b (attemptFinished at_ p b) := by
  have hpay : (AnyEvent.known e).payload? = some (.attemptFinished p) := by
    simp [AnyEvent.payload?, hp]
  unfold attemptFinished
  split
  · rename_i hnone
    have hmem := (h.attempts.none _).mp hnone
    refine .rejected not_errorFree_lifecycle ?_
    simp [PayloadGuard, hpay, hmem]
  · rename_i st hst
    have hf := h.attempts.some _ _ hst
    have hmem := h.attempts.mem_of_get hst
    by_cases hfin : st.finished = true
    · rw [if_pos hfin]
      have hfin' := hf.finished.mp hfin
      refine .rejected not_errorFree_lifecycle ?_
      simp [PayloadGuard, hpay, hfin']
    · rw [if_neg hfin]
      have hfin' : p.attemptId ∉ l.finishedAttempts := fun h' => hfin (hf.finished.mpr h')
      refine ⟨?_, fun _ => ⟨?_, ?_, ?_⟩, ⟨rfl, rfl, rfl, rfl, rfl, rfl, rfl, rfl⟩⟩
      · rw [PayloadGuard, hpay]
        simp only [errorFree_flatMap, hmem, hfin', not_false_eq_true, true_and]
        constructor
        · intro hfree s hs
          have hget := hf.steps s
          rw [if_pos hs] at hget
          have hc := errorFree_check_lifecycle.mp (hfree _ (JsMap.mem_entries.mpr hget))
          simpa using hc
        · rintro hg ⟨s, done⟩ hs
          have hget := hf.steps s
          rw [JsMap.mem_entries.mp hs] at hget
          split_ifs at hget with hss
          refine errorFree_check_lifecycle.mpr ?_
          rw [Option.some.inj hget]
          simp [hg s hss]
      · exact h.attempts.finished hpay hfin' hst rfl
      · exact h.executions.inert (by simp [AnyEvent.startsAttempt, hpay])
      · refine h.counts.concat ?_
        constructor <;> simp [AnyEvent.startsStep, AnyEvent.isScopeFailed, AnyEvent.failsAttempt,
          AnyEvent.sessionStatus, AnyEvent.sessionFailures, AnyEvent.attachment,
          AnyEvent.isRunFinished, hpay]
        split_ifs
        · rfl
        · rfl

theorem stepStarted_handles (h : Tracks rn b l) (hl : Admissible (Guard rn) l)
    {p : StepStartedPayload} (hp : e.payload = .stepStarted p) :
    Handles rn l (.known e) b (stepStarted at_ p b) := by
  have hpay : (AnyEvent.known e).payload? = some (.stepStarted p) := by
    simp [AnyEvent.payload?, hp]
  unfold stepStarted
  simp only
  split
  · rename_i hnone
    have hmem := (h.attempts.none _).mp hnone
    refine .rejected not_errorFree_lifecycle ?_
    simp [PayloadGuard, hpay, hmem]
  · rename_i st hst
    have hf := h.attempts.some _ _ hst
    have hmem := h.attempts.mem_of_get hst
    split_ifs with hfin
    · have hfin' := hf.finished.mp hfin
      refine .rejected not_errorFree_lifecycle ?_
      simp [PayloadGuard, hpay, hfin']
    · have hfin' : p.attemptId ∉ l.finishedAttempts := fun h' => hfin (hf.finished.mpr h')
      refine ⟨?_, fun hg => ⟨?_, ?_, ?_⟩, ⟨rfl, rfl, rfl, rfl, rfl, rfl, rfl, rfl⟩⟩
      · rw [PayloadGuard, hpay, errorFree_append, errorFree_check_lifecycle, ← Bool.not_eq_true,
          hf.has_step]
        simp only [hmem, hfin', not_false_eq_true, true_and]
        refine and_congr_right (fun _ => ?_)
        cases hpar : p.parentStepId with
        | none => simp [errorFree_nil]
        | some parent =>
            simp only [errorFree_check_lifecycle, Bool.not_eq_false', hf.has_step, Option.some.injEq,
              forall_eq']
      · rw [PayloadGuard, hpay] at hg
        exact h.attempts.stepStarted hl hpay hg.2.2.1 hst rfl
      · exact h.executions.inert (by simp [AnyEvent.startsAttempt, hpay])
      · refine h.counts.concat ?_
        constructor <;> simp [AnyEvent.startsStep, AnyEvent.isScopeFailed, AnyEvent.failsAttempt,
          AnyEvent.sessionStatus, AnyEvent.sessionFailures, AnyEvent.attachment,
          AnyEvent.isRunFinished, hpay]

theorem stepFinished_handles (h : Tracks rn b l) (hl : Admissible (Guard rn) l)
    {p : StepFinishedPayload} (hp : e.payload = .stepFinished p) :
    Handles rn l (.known e) b (stepFinished at_ p b) := by
  have hpay : (AnyEvent.known e).payload? = some (.stepFinished p) := by
    simp [AnyEvent.payload?, hp]
  unfold stepFinished
  simp only
  split
  · rename_i hnone
    have hmem : (p.attemptId, p.stepId) ∉ l.steps :=
      fun h' => (h.attempts.none _).mp hnone (steps_subset hl _ h')
    refine .rejected not_errorFree_lifecycle ?_
    simp [PayloadGuard, hpay, hmem]
  · rename_i st hst
    have hget := (h.attempts.some _ _ hst).steps p.stepId
    split
    · rename_i hnone
      have hmem : (p.attemptId, p.stepId) ∉ l.steps := by
        intro h'
        rw [if_pos h', hnone] at hget
        cases hget
      refine .rejected not_errorFree_lifecycle ?_
      simp [PayloadGuard, hpay, hmem]
    · rename_i hdone
      rw [hdone] at hget
      split_ifs at hget with hmem
      have hd : (p.attemptId, p.stepId) ∈ l.finishedSteps := by simpa using hget
      refine .rejected not_errorFree_lifecycle ?_
      simp [PayloadGuard, hpay, hd]
    · rename_i hopen
      rw [hopen] at hget
      split_ifs at hget with hmem
      have hd : (p.attemptId, p.stepId) ∉ l.finishedSteps := by simpa using hget
      refine ⟨?_, fun _ => ⟨?_, ?_, ?_⟩, ⟨rfl, rfl, rfl, rfl, rfl, rfl, rfl, rfl⟩⟩
      · simp [PayloadGuard, hpay, hmem, hd, errorFree_nil]
      · exact h.attempts.stepFinished hpay hmem hst rfl
      · exact h.executions.inert (by simp [AnyEvent.startsAttempt, hpay])
      · refine h.counts.concat ?_
        constructor <;> simp [AnyEvent.startsStep, AnyEvent.isScopeFailed, AnyEvent.failsAttempt,
          AnyEvent.sessionStatus, AnyEvent.sessionFailures, AnyEvent.attachment,
          AnyEvent.isRunFinished, hpay]

theorem attachmentAdded_handles (h : Tracks rn b l) {p : AttachmentAddedPayload}
    (hp : e.payload = .attachmentAdded p) :
    Handles rn l (.known e) b (attachmentAdded at_ p b) := by
  have hpay : (AnyEvent.known e).payload? = some (.attachmentAdded p) := by
    simp [AnyEvent.payload?, hp]
  refine ⟨?_, fun _ => ⟨?_, ?_, ?_⟩, ⟨rfl, rfl, rfl, rfl, rfl, rfl, rfl, rfl⟩⟩
  · rw [PayloadGuard, hpay]
    simp only [attachmentAdded]
    cases hst : b.attempts.get? p.attemptId with
    | none =>
        have hmem := (h.attempts.none _).mp hst
        simp [hmem, not_errorFree_lifecycle]
    | some st =>
        have hf := h.attempts.some _ _ hst
        have hmem := h.attempts.mem_of_get hst
        by_cases hfin : st.finished = true
        · have hfin' := hf.finished.mp hfin
          simp [hfin, hfin', not_errorFree_lifecycle]
        · have hfin' : p.attemptId ∉ l.finishedAttempts := fun h' => hfin (hf.finished.mpr h')
          cases hstep : p.stepId with
          | none => simp [hfin, hmem, hfin', errorFree_nil]
          | some s => simp [hfin, hmem, hfin', errorFree_check_lifecycle, hf.has_step]
  · exact h.attempts.inert (by simp [AnyEvent.startsAttempt, hpay])
      (by simp [AnyEvent.endsAttempt, hpay]) (by simp [AnyEvent.startsStep, hpay])
      (by simp [AnyEvent.endsStep, hpay])
  · exact h.executions.inert (by simp [AnyEvent.startsAttempt, hpay])
  · refine h.counts.concat ?_
    constructor <;> simp [attachmentAdded, AnyEvent.startsStep, AnyEvent.isScopeFailed,
      AnyEvent.failsAttempt, AnyEvent.sessionStatus, AnyEvent.sessionFailures, AnyEvent.attachment,
      AnyEvent.isRunFinished, hpay]

/-- The execution rules against the attempts of the log. -/
theorem checkExecution_spec (at_ : Place) {session : SessionState} {b : Books}
    (hE : TracksExecutions rn b.executions l) (hl : Admissible (Guard rn) l)
    {p : AttemptStartedPayload} (hp : (AnyEvent.known e).payload? = some (.attemptStarted p))
    (hrun : session.runnerName = rn e.sessionId) (hsyn : session.synthesized = false) :
    (ErrorFree (checkExecution at_ p session b).1 ↔
      ∀ x ∈ l, ∀ q, x.payload? = some (.attemptStarted q) →
        q.test.executionId = p.test.executionId → Compatible rn x.session e.sessionId q p) ∧
    (ErrorFree (checkExecution at_ p session b).1 →
      TracksExecutions rn (checkExecution at_ p session b).2.executions (l ++ [.known e])) ∧
    (∃ m, (checkExecution at_ p session b).2 = { b with executions := m }) := by
  unfold checkExecution
  cases hst : b.executions.get? p.test.executionId with
  | none =>
      have hnone := (hE.none _).mp hst
      simp only [hst]
      refine ⟨iff_of_true errorFree_nil ?_, fun _ => ?_, _, rfl⟩
      · intro x hx q hq hqe
        exact absurd hqe (hnone x hx q hq)
      · refine hE.started hp (executionFacts_first hnone hp rfl (fun n => ?_) rfl rfl hrun ?_)
        · rw [JsMap.has, JsMap.get?_set]
          split_ifs with hn <;> simp [hn]
        · simp [hsyn]
  | some known =>
      obtain ⟨hnum, ⟨y, hy, r, hr, hre, hid, hstab, hrunner⟩, hknown⟩ := hE.some _ _ hst
      have hrules : (∀ x ∈ l, ∀ q, x.payload? = some (.attemptStarted q) →
          q.test.executionId = p.test.executionId → Compatible rn x.session e.sessionId q p) ↔
          known.attemptNumbers.has p.attemptNumber = false ∧
          (known.historicalId = p.test.historicalId ∧
            known.historicalIdStability = p.test.historicalIdStability) ∧
          known.runnerName = session.runnerName := by
        rw [hid, hstab, hrunner, hrun, ← Bool.not_eq_true, hnum]
        constructor
        · intro hall
          obtain ⟨-, h1, h2, h3⟩ := hall y hy r hr hre
          refine ⟨?_, ⟨h1, h2⟩, h3⟩
          rintro ⟨x, hx, q, hq, hqe, hqn⟩
          exact (hall x hx q hq hqe).number hqn
        · rintro ⟨h0, ⟨h1, h2⟩, h3⟩ x hx q hq hqe
          obtain ⟨a1, a2, a3⟩ := executions_agree hl hx hy hq hr (hqe.trans hre.symm)
          exact ⟨fun hn => h0 ⟨x, hx, q, hq, hqe, hn⟩, a1.trans h1, a2.trans h2, a3.trans h3⟩
      rw [hrules]
      simp only [hst]
      cases hn : known.attemptNumbers.get? p.attemptNumber with
      | some other =>
          simp only [List.cons_append, List.nil_append]
          have hhas : known.attemptNumbers.has p.attemptNumber = true := by simp [JsMap.has, hn]
          have hbad : ∀ ds, ¬ ErrorFree (lifecycle at_ .duplicateAttemptNumber
              (txt "execution " ++ p.test.executionId ++ txt " has attempts " ++ other.attemptId ++
                txt " (" ++ «where» other.toPlace ++ txt ") and " ++ p.attemptId ++
                txt " both numbered " ++ natText p.attemptNumber) :: ds) := by
            intro ds hfree
            exact hfree _ List.mem_cons_self rfl
          refine ⟨iff_of_false (hbad _) (by simp [hhas]), fun hfree => absurd hfree (hbad _), _, rfl⟩
      | none =>
          have hhas : known.attemptNumbers.has p.attemptNumber = false := by simp [JsMap.has, hn]
          simp only
          refine ⟨?_, fun _ => ?_, _, rfl⟩
          · simp only [List.nil_append, errorFree_append, errorFree_check_lifecycle, hknown, hsyn,
              hhas, true_and]
            simp
          · exact hE.started hp ((hE.some _ _ hst).next hp rfl rfl)

theorem attemptStarted_handles (h : Tracks rn b l) (hl : Admissible (Guard rn) l)
    {p : AttemptStartedPayload} (hp : e.payload = .attemptStarted p)
    (hrun : session.runnerName = rn e.sessionId) (hsyn : session.synthesized = false) :
    Handles rn l (.known e) b (attemptStarted at_ e.toEnvelope session p b) := by
  have hpay : (AnyEvent.known e).payload? = some (.attemptStarted p) := by
    simp [AnyEvent.payload?, hp]
  unfold attemptStarted
  by_cases hhas : b.attempts.has p.attemptId = true
  · simp only [hhas, if_true]
    have hmem := h.attempts.has_iff.mp hhas
    refine .rejected (fun hfree => not_errorFree_lifecycle (errorFree_append.mp hfree).2) ?_
    simp [PayloadGuard, hpay, hmem]
  · rw [if_neg hhas]
    have hmem : p.attemptId ∉ l.attempts := fun h' => hhas (h.attempts.has_iff.mpr h')
    let b₁ : Books := { b with
      attempts := b.attempts.set p.attemptId
        ⟨e.sessionId, p.test.executionId, p.attemptNumber, false, false, false, .empty⟩ }
    have hE : TracksExecutions rn b₁.executions l := h.executions
    obtain ⟨hfree, htracks, m, hm⟩ := checkExecution_spec at_ hE hl hpay hrun hsyn
    have hguard : PayloadGuard rn l (.known e) ↔
        (p.test.historicalId.isSome && session.runnerName.isNone) = false ∧
          ErrorFree (checkExecution at_ p session b₁).1 := by
      rw [hfree, PayloadGuard, hpay, hrun]
      have hand : (p.test.historicalId.isSome && (rn e.sessionId).isNone) = false ↔
          (p.test.historicalId.isSome → (rn e.sessionId).isSome) := by
        cases p.test.historicalId <;> cases rn e.sessionId <;> simp
      rw [hand]
      exact and_congr_right (fun _ => ⟨fun h' => h'.2, fun h' => ⟨hmem, h'⟩⟩)
    refine ⟨?_, fun hg => ⟨?_, htracks (hguard.mp hg).2, ?_⟩, ?_⟩
    · rw [hguard, errorFree_append, errorFree_check_lifecycle]
    · change TracksAttempts (checkExecution at_ p session b₁).2.attempts _
      rw [hm]
      exact h.attempts.started hl hpay hmem rfl
    · change TracksCounts (checkExecution at_ p session b₁).2 _
      rw [hm]
      refine h.counts.concat ?_
      constructor <;> simp [b₁, AnyEvent.startsStep, AnyEvent.isScopeFailed, AnyEvent.failsAttempt,
        AnyEvent.sessionStatus, AnyEvent.sessionFailures, AnyEvent.attachment,
        AnyEvent.isRunFinished, hpay]
    · change SameLedger b (checkExecution at_ p session b₁).2
      rw [hm]
      exact ⟨rfl, rfl, rfl, rfl, rfl, rfl, rfl, rfl⟩

theorem sessionStarted_handles (h : Tracks rn b l) {p : SessionStartedPayload}
    (hp : e.payload = .sessionStarted p) : Handles rn l (.known e) b ([], b) := by
  have hpay : (AnyEvent.known e).payload? = some (.sessionStarted p) := by
    simp [AnyEvent.payload?, hp]
  refine ⟨iff_of_true errorFree_nil (by simp [PayloadGuard, hpay]), fun _ => ⟨?_, ?_, ?_⟩,
    ⟨rfl, rfl, rfl, rfl, rfl, rfl, rfl, rfl⟩⟩
  · exact h.attempts.inert (by simp [AnyEvent.startsAttempt, hpay])
      (by simp [AnyEvent.endsAttempt, hpay]) (by simp [AnyEvent.startsStep, hpay])
      (by simp [AnyEvent.endsStep, hpay])
  · exact h.executions.inert (by simp [AnyEvent.startsAttempt, hpay])
  · refine h.counts.concat ?_
    constructor <;> simp [AnyEvent.startsStep, AnyEvent.isScopeFailed, AnyEvent.failsAttempt,
      AnyEvent.sessionStatus, AnyEvent.sessionFailures, AnyEvent.attachment,
      AnyEvent.isRunFinished, hpay]

theorem scopeFailed_handles (h : Tracks rn b l) {p : ScopeFailedPayload}
    (hp : e.payload = .scopeFailed p) :
    Handles rn l (.known e) b ([], { b with scopeFailures := b.scopeFailures + 1 }) := by
  have hpay : (AnyEvent.known e).payload? = some (.scopeFailed p) := by
    simp [AnyEvent.payload?, hp]
  refine ⟨iff_of_true errorFree_nil (by simp [PayloadGuard, hpay]), fun _ => ⟨?_, ?_, ?_⟩,
    ⟨rfl, rfl, rfl, rfl, rfl, rfl, rfl, rfl⟩⟩
  · exact h.attempts.inert (by simp [AnyEvent.startsAttempt, hpay])
      (by simp [AnyEvent.endsAttempt, hpay]) (by simp [AnyEvent.startsStep, hpay])
      (by simp [AnyEvent.endsStep, hpay])
  · exact h.executions.inert (by simp [AnyEvent.startsAttempt, hpay])
  · refine h.counts.concat ?_
    constructor <;> simp [AnyEvent.startsStep, AnyEvent.isScopeFailed, AnyEvent.failsAttempt,
      AnyEvent.sessionStatus, AnyEvent.sessionFailures, AnyEvent.attachment,
      AnyEvent.isRunFinished, hpay]

/-- An unknown event is no fact. -/
theorem unknown_tracks (h : Tracks rn b l) (u : UnknownEvent) :
    PayloadGuard rn l (.unknown u) ∧ Tracks rn b (l ++ [.unknown u]) := by
  refine ⟨trivial, ⟨?_, ?_, ?_⟩⟩
  · exact h.attempts.inert rfl rfl rfl rfl
  · exact h.executions.inert rfl
  · refine h.counts.concat ?_
    constructor <;> simp [AnyEvent.startsStep, AnyEvent.isScopeFailed, AnyEvent.failsAttempt,
      AnyEvent.sessionStatus, AnyEvent.sessionFailures, AnyEvent.attachment,
      AnyEvent.isRunFinished, AnyEvent.payload?]

/-- The event switch meets the guard. -/
theorem handle_handles (at_ : Place) (h : Tracks rn b l) (hl : Admissible (Guard rn) l)
    (hrun : session.runnerName = rn e.sessionId) (hsyn : session.synthesized = false) :
    Handles rn l (.known e) b (handle at_ e session b) := by
  unfold handle
  split
  · exact sessionStarted_handles h ‹_›
  · exact sessionFinished_handles h hl ‹_›
  · exact runFinished_handles h ‹_›
  · exact attemptStarted_handles h hl ‹_› hrun hsyn
  · exact attemptFinished_handles h ‹_›
  · exact stepStarted_handles h hl ‹_›
  · exact stepFinished_handles h hl ‹_›
  · exact attachmentAdded_handles h ‹_›
  · exact scopeFailed_handles h ‹_›

end handlers

end QeReport

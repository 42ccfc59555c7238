import QeReport.Sdk.Steps

/-! # A supplied outcome is never erased

`finish` writes an outcome as it is, or without its failures, or as its status alone, each
smaller form only because the larger one exceeded the size limit (`Reduced`).  When none could
be written the session has lost its outcome, and a session that has lost its outcome writes
nothing any more (`lost_writes_nothing`). -/

namespace QeReport.Sdk

/-- The payload of a `session.finished` event. -/
def outcomeOf : AnyEvent → Option SessionFinishedPayload
  | .known ⟨_, .sessionFinished p⟩ => some p
  | _ => none

section outcome
variable (host : Host)

/-- The event `e` is the outcome as `finish` writes it from the state `s` on: every reduction was
made because the larger form exceeded the size limit, the failures before the raw status, and the
smaller form is written from the state that the rejected write left, with its problem told. -/
inductive Reduced : ReportSession → SessionFinishedPayload → AnyEvent → Prop
  | whole {s : ReportSession} {o : SessionFinishedPayload} {e : AnyEvent}
      (h : redactEvent host.redactText (.known (candidate host s (.sessionFinished o))) = .ok e)
      (hsize : host.size e ≤ host.maxEventBytes) : Reduced s o e
  | withoutFailures {s s' : ReportSession} {o : SessionFinishedPayload} {larger e : AnyEvent}
      {message : Text} (hfailures : hasFailures o = true)
      (h : redactEvent host.redactText (.known (candidate host s (.sessionFinished o))) =
        .ok larger)
      (hsize : host.maxEventBytes < host.size larger)
      (hafter : s' = s.build.drop.problem .eventTooLarge message)
      (hrest : Reduced s' ⟨o.status, o.rawStatus, none⟩ e) : Reduced s o e
  | withoutRawStatus {s s' : ReportSession} {o : SessionFinishedPayload} {larger e : AnyEvent}
      {message : Text} (hfailures : hasFailures o = false) (hraw : o.rawStatus.isSome = true)
      (h : redactEvent host.redactText (.known (candidate host s (.sessionFinished o))) =
        .ok larger)
      (hsize : host.maxEventBytes < host.size larger)
      (hafter : s' = s.build.drop.problem .eventTooLarge message)
      (hrest : Reduced s' ⟨o.status, none, none⟩ e) : Reduced s o e

variable {host} {s t : ReportSession}

/-- The outcome as it was written carries the status that was supplied. -/
theorem Reduced.status {o : SessionFinishedPayload} {e : AnyEvent} (h : Reduced host s o e) :
    ∃ p, outcomeOf e = some p ∧ p.status = o.status := by
  induction h with
  | whole h hsize =>
      refine ⟨_, congrArg outcomeOf (redactEvent_eq_ok.mp h).2.2, rfl⟩
  | withoutFailures hfailures h hsize hafter hrest ih => exact ih
  | withoutRawStatus hfailures hraw h hsize hafter hrest ih => exact ih

/-- An outcome without failures that has a status is read back by the codec. -/
theorem readPayload_reduced (f : Text → Text) (status : SessionStatus) (rawStatus : Option Text) :
    readPayload .sessionFinished
      (writePayload (redactPayload f (.sessionFinished ⟨some status, rawStatus, none⟩))) =
        .ok (redactPayload f (.sessionFinished ⟨some status, rawStatus, none⟩)).normal := by
  cases rawStatus <;> cases status <;> rfl

/-- The codec accepts the reduced form of an outcome it accepts, in any later event. -/
theorem redactEvent_reduced {payload : Payload} {e : AnyEvent}
    (h : redactEvent host.redactText (.known (candidate host s payload)) = .ok e)
    (hsequence : t.sequence = s.sequence) (status : SessionStatus) (rawStatus : Option Text) :
    ∃ e', redactEvent host.redactText
      (.known (candidate host t (.sessionFinished ⟨some status, rawStatus, none⟩))) = .ok e' := by
  obtain ⟨hreadable, -, -⟩ := redactEvent_eq_ok.mp h
  refine ⟨_, redactEvent_eq_ok.mpr ⟨⟨hreadable.version, host.ids_identifier _, hreadable.runId,
    hreadable.sessionId, ?_, ?_, host.clock_timestamp _⟩, readPayload_reduced _ _ _, rfl⟩⟩
  · exact Nat.le_add_left _ _
  · have hsafe : isSafe ((s.sequence + 1 : ℕ) : ℤ) := hreadable.safe
    rw [← hsequence] at hsafe
    exact hsafe

/-- What `finish` comes to: one event, the outcome in some form, or a lost outcome. -/
structure Settled (host : Host) (o : SessionFinishedPayload) (s t : ReportSession) : Prop where
  written : (t.sunk = s.sunk ∧ t.terminalOutcomeLost = true) ∨
    ∃ e, t.sunk = s.sunk ++ [e] ∧ Reduced host s o e ∧ t.lifecycle = .sessionFinished
  built : t.built ≤ s.built + reductions o + 1

/-- A reduction comes before what is settled for the smaller form. -/
theorem Settled.reduced {u : ReportSession} {o o' : SessionFinishedPayload}
    (h : Settled host o' u t) (hsunk : u.sunk = s.sunk) (hbuilt : u.built = s.built + 1)
    (hless : reductions o' < reductions o)
    (hreduced : ∀ e, Reduced host u o' e → Reduced host s o e) : Settled host o s t := by
  refine ⟨?_, ?_⟩
  · rw [← hsunk]
    rcases h.written with hlost | ⟨e, he, hred, hstate⟩
    · exact .inl hlost
    · exact .inr ⟨e, he, hreduced e hred, hstate⟩
  · have := h.built
    omega

/-- What an unreported write over the limit leaves. -/
theorem write_tooLarge {payload : Payload} {bytes : ℕ}
    (h : write host s payload false = (.ok ⟨.tooLarge, bytes⟩, t)) : t = s.build.drop := by
  unfold write at h
  cases hr : redactEvent host.redactText (.known (candidate host s payload)) with
  | error err =>
      rw [hr] at h
      cases h
  | ok e =>
      rw [hr] at h
      dsimp only at h
      rw [if_neg Bool.false_ne_true] at h
      split_ifs at h
      · cases h
        rfl
      · cases h
      · cases h

theorem finishLoop_settled {status : SessionStatus} {outcome : SessionFinishedPayload}
    (hstatus : outcome.status = some status) {e : AnyEvent}
    (hcodec : redactEvent host.redactText
      (.known (candidate host s (.sessionFinished outcome))) = .ok e) :
    Settled host outcome s (finishLoop host status outcome s).2 := by
  induction hn : reductions outcome using Nat.strong_induction_on generalizing outcome s e with
  | _ n ih =>
      have hcase : WriteCase host s (.sessionFinished outcome)
          (write host s (.sessionFinished outcome) false) := write_case _ _
      rw [finishLoop]
      generalize hw : write host s (.sessionFinished outcome) false = w at hcase ⊢
      cases hcase with
      | threw h =>
          rw [h] at hcodec
          cases hcodec
      | written h =>
          refine ⟨.inr ⟨_, h.sunk, .whole h.redacted h.size, rfl⟩, ?_⟩
          change s.built + 1 ≤ _
          omega
      | sinkFailure h hquiet hbuilt =>
          refine ⟨.inl ⟨hquiet.sunk, rfl⟩, ?_⟩
          have hb : ∀ (u : ReportSession) kind message,
              (u.lose.problem kind message).built = u.built := fun _ _ _ => rfl
          rw [hb, hbuilt]
          omega
      | tooLarge h hsize hquiet hbuilt =>
          have hstate := write_tooLarge hw
          dsimp only
          split_ifs with hf hr
          · obtain ⟨e', he'⟩ := redactEvent_reduced h (hquiet.sequence) status outcome.rawStatus
            have hless : reductions ⟨some status, outcome.rawStatus, none⟩ < reductions outcome := by
              simp [reductions, hf]
            refine Settled.reduced (ih _ (hn ▸ hless) rfl he' rfl) hquiet.sunk hbuilt hless ?_
            intro e hred
            exact .withoutFailures hf h hsize (by rw [hstate]) (hstatus ▸ hred)
          · obtain ⟨e', he'⟩ := redactEvent_reduced h (hquiet.sequence) status none
            have hless : reductions ⟨some status, none, none⟩ < reductions outcome := by
              simp [reductions, hr]
            refine Settled.reduced (ih _ (hn ▸ hless) rfl he' rfl) hquiet.sunk hbuilt hless ?_
            intro e hred
            exact .withoutRawStatus (by simpa using hf) hr h hsize (by rw [hstate]) (hstatus ▸ hred)
          · refine ⟨.inl ⟨hquiet.sunk, rfl⟩, ?_⟩
            have hb : ∀ (u : ReportSession) kind message,
                (u.lose.problem kind message).built = u.built := fun _ _ _ => rfl
            rw [hb, hbuilt]
            omega

theorem reductions_le (o : SessionFinishedPayload) : reductions o ≤ 2 := by
  unfold reductions
  split_ifs <;> omega

/-! ### After the outcome -/

/-- A property of sessions every step keeps holds after any calls. -/
theorem run_invariant {P : ReportSession → Prop}
    (hstep : ∀ may t t', Step host may t t' → P t → P t') (hs : P s) (calls : List Call) :
    P (run host s calls) := by
  induction calls generalizing s with
  | nil => exact hs
  | cons c calls ih => exact ih ((call_steps c).invariant (hstep _) hs)

/-- A session that has lost its outcome writes nothing any more. -/
theorem lost_writes_nothing (hlost : s.terminalOutcomeLost = true) (calls : List Call) :
    (run host s calls).sunk = s.sunk := by
  have h : (run host s calls).terminalOutcomeLost = true ∧ (run host s calls).sunk = s.sunk := by
    refine run_invariant (P := fun u => u.terminalOutcomeLost = true ∧ u.sunk = s.sunk)
      (fun may t t' hstep ht => ?_) ⟨hlost, rfl⟩ calls
    cases hstep with
    | quiet h => exact ⟨h.lost.trans ht.1, h.sunk.trans ht.2⟩
    | lost hactive hsunk hsequence hbuilt hlifecycle hlost' => exact ⟨hlost', hsunk.trans ht.2⟩
    | event hmay hactive hlost' hordinary h hlifecycle =>
        rw [hlost'] at ht
        cases ht.1
    | sessionFinished hmay hactive hlost' h hlifecycle =>
        rw [hlost'] at ht
        cases ht.1
    | runFinished hmay hfinished hlost' h hlifecycle =>
        rw [hlost'] at ht
        cases ht.1
    | closed hsunk hsequence hbuilt hlost' hlifecycle =>
        exact ⟨hlost'.trans ht.1, hsunk.trans ht.2⟩
  exact h.2

/-- A session that is not active any more never writes another `session.finished`. -/
theorem inactive_writes_no_outcome (hs : s.lifecycle ≠ .active) (calls : List Call) :
    ∃ later, (run host s calls).sunk = s.sunk ++ later ∧ ∀ e ∈ later, outcomeOf e = none := by
  have h : (run host s calls).lifecycle ≠ .active ∧
      ∃ later, (run host s calls).sunk = s.sunk ++ later ∧ ∀ e ∈ later, outcomeOf e = none := by
    refine run_invariant (P := fun u => u.lifecycle ≠ .active ∧
        ∃ later, u.sunk = s.sunk ++ later ∧ ∀ e ∈ later, outcomeOf e = none)
      (fun may t t' hstep ht => ?_) ⟨hs, [], (List.append_nil _).symm, by simp⟩ calls
    obtain ⟨hinactive, later, hlater, hnone⟩ := ht
    cases hstep with
    | quiet h => exact ⟨h.lifecycle ▸ hinactive, later, h.sunk.trans hlater, hnone⟩
    | lost hactive hsunk hsequence hbuilt hlifecycle hlost => exact absurd hactive hinactive
    | event hmay hactive hlost hordinary h hlifecycle => exact absurd hactive hinactive
    | sessionFinished hmay hactive hlost h hlifecycle => exact absurd hactive hinactive
    | @runFinished e hmay hfinished hlost h hlifecycle =>
        refine ⟨by rw [hlifecycle]; decide, later ++ [e], ?_, ?_⟩
        · rw [h.sunk, hlater, List.append_assoc]
        · intro e' he'
          rcases List.mem_append.mp he' with he' | he'
          · exact hnone e' he'
          · rw [List.mem_singleton.mp he', (redactEvent_eq_ok.mp h.redacted).2.2]
            rfl
    | closed hsunk hsequence hbuilt hlost hlifecycle =>
        exact ⟨by rw [hlifecycle]; decide, later, hsunk.trans hlater, hnone⟩
  exact h.2

/-- `finish` with a valid outcome, called while the session is active. -/
theorem finish_settled {outcome : SessionFinishedPayload} {status : SessionStatus}
    (hactive : s.lifecycle = .active) (hstatus : outcome.status = some status)
    (hrules : outcomeViolation outcome = none) {e : AnyEvent}
    (hcodec : redactEvent host.redactText
      (.known (candidate host s (.sessionFinished outcome))) = .ok e) :
    Settled host outcome s (finish host s outcome).2 := by
  unfold finish
  rw [hrules]
  dsimp only
  rcases acceptsSessionEvents_case s (txt "event session.finished") with
    ⟨haccept, -, -⟩ | ⟨s', haccept, hquiet, hlost⟩
  · rw [haccept]
    simp only [hstatus]
    exact finishLoop_settled hstatus hcodec
  · have hs' : s' = s.drop.problem .terminalOutcomeNotWritten
        (txt "event session.finished" ++
          txt " after a session outcome that could not be written; dropped") := by
      rw [acceptsSessionEvents, if_pos (hlost hactive)] at haccept
      exact (Prod.mk.inj haccept).2.symm
    rw [haccept, hs']
    refine ⟨.inl ⟨rfl, hlost hactive⟩, ?_⟩
    change s.built ≤ _
    omega

/-- A supplied outcome is never erased: it is written in at most three attempts, in the largest
form that fits, or nothing is ever written again; and no other `session.finished` follows it. -/
theorem outcome_never_erased (host : Host) (payload : SessionStartedPayload)
    (before after : List Call) (c : Call) (outcome : SessionFinishedPayload)
    (status : SessionStatus) (e : AnyEvent)
    (hcall : c = .finish outcome ∨ c = .emit (.sessionFinished outcome))
    (hactive : (run host (start host payload).2 before).lifecycle = .active)
    (hstatus : outcome.status = some status) (hrules : outcomeViolation outcome = none)
    (hcodec : redactEvent host.redactText (.known (candidate host
      (run host (start host payload).2 before) (.sessionFinished outcome))) = .ok e) :
    let s := run host (start host payload).2 before
    let t := (call host s c).2
    let u := run host t after
    t.built ≤ s.built + 3 ∧
      ((t.sunk = s.sunk ∧ u.sunk = s.sunk) ∨
        ∃ own later, t.sunk = s.sunk ++ [own] ∧ u.sunk = t.sunk ++ later ∧
          Reduced host s outcome own ∧ (∃ p, outcomeOf own = some p ∧ p.status = some status) ∧
          ∀ e' ∈ later, outcomeOf e' = none) := by
  intro s t u
  have ht : t = (finish host s outcome).2 := by
    rcases hcall with rfl | rfl
    · rfl
    · rfl
  have hsettled : Settled host outcome s t := by
    rw [ht]
    exact finish_settled hactive hstatus hrules hcodec
  refine ⟨?_, ?_⟩
  · have hbuilt := hsettled.built
    have hreductions := reductions_le outcome
    omega
  · rcases hsettled.written with ⟨hsunk, hlost⟩ | ⟨own, hown, hreduced, hstate⟩
    · exact .inl ⟨hsunk, (lost_writes_nothing hlost after).trans hsunk⟩
    · obtain ⟨later, hlater, hnone⟩ :=
        inactive_writes_no_outcome (s := t) (by rw [hstate]; decide) after
      obtain ⟨p, hp, hpstatus⟩ := hreduced.status
      exact .inr ⟨own, later, hown, hlater, hreduced, ⟨p, hp, hpstatus.trans hstatus⟩, hnone⟩

end outcome

/-! ### A plain host -/

/-- The ids `e0`, `e1`, ... -/
def countedId (n : ℕ) : Text := unit 'e' :: natText n

theorem countedId_identifier (n : ℕ) : isIdentifier (countedId n) = true := by
  have hdigit : ∀ u : CodeUnit, isDigit u = true → (0x21 ≤ u && u ≤ 0x7E) = true := by
    intro u hu
    rw [isDigit, Bool.and_eq_true, decide_eq_true_eq, decide_eq_true_eq] at hu
    rw [Bool.and_eq_true, decide_eq_true_eq, decide_eq_true_eq]
    exact ⟨le_trans (by decide : (0x21 : CodeUnit) ≤ unit '0') hu.1,
      le_trans hu.2 (by decide : unit '9' ≤ (0x7E : CodeUnit))⟩
  obtain ⟨u, t, ht, hu, hall, -⟩ := natText_cons n
  rw [countedId, ht, isIdentifier, List.all_cons, List.all_cons, hdigit u hu]
  have : t.all (fun u => 0x21 ≤ u && u ≤ 0x7E) = true :=
    List.all_eq_true.mpr (fun v hv => hdigit v (List.all_eq_true.mp hall v hv))
  rw [this]
  rfl

theorem countedId_injective : Function.Injective countedId := by
  intro m n h
  have htail : natText m = natText n := (List.cons.inj h).2
  rw [← readDigits_natText m, htail, readDigits_natText]

/-- A host that counts its ids, has one time, redacts nothing and stores every attachment; what
fits and what the sink takes is open. -/
def plainHost (limit : ℕ) (hlimit : limit ≤ maxEventBytes) (write : ℕ → Bool) : Host where
  runId := txt "r"
  sessionId := txt "s"
  maxEventBytes := limit
  maxEventBytes_le := hlimit
  ids := countedId
  ids_identifier := countedId_identifier
  ids_injective := countedId_injective
  clock := fun _ => txt "2026-01-01T00:00:00Z"
  clock_timestamp := fun _ => by decide
  redactText := id
  decode := fun bytes => bytes.map (Fin.ofNat 65536)
  size := eventBytes
  write := write
  storeAttachment := fun _ bytes => .ok ⟨List.replicate 64 (unit '0'), bytes.length⟩
  close := true

def samplePayload : SessionStartedPayload := ⟨⟨txt "p", none⟩, none, none, none, none, none⟩

/-- An outcome that fits only without its failures. -/
def sampleOutcome : SessionFinishedPayload :=
  ⟨some .failed, some (txt "FAILED"),
    some [⟨txt "a message that is too long for the limit", none, none, none, none⟩]⟩

theorem small_limit_le : 260 ≤ maxEventBytes := by decide

theorem thousand_le : 1000 ≤ maxEventBytes := by decide

def sampleHost : Host := plainHost 260 small_limit_le (fun _ => true)

theorem candidate_readable {host : Host} {s : ReportSession} (payload : Payload)
    (hrun : isIdentifier host.runId = true) (hsession : isIdentifier host.sessionId = true)
    (hsafe : isSafe ((s.sequence + 1 : ℕ) : ℤ)) :
    (candidate host s payload).toEnvelope.Readable :=
  ⟨rfl, host.ids_identifier _, hrun, hsession, Nat.le_add_left _ _, hsafe, host.clock_timestamp _⟩

theorem start_sampleHost : (run sampleHost (start sampleHost samplePayload).2 []).sequence = 1 ∧
    (run sampleHost (start sampleHost samplePayload).2 []).lifecycle = .active := by
  decide +kernel

theorem sampleOutcome_accepted : readPayload .sessionFinished
    (writePayload (redactPayload id (.sessionFinished sampleOutcome))) =
      .ok (redactPayload id (.sessionFinished sampleOutcome)).normal := by
  rfl

theorem sampleOutcome_codec : ∃ e, redactEvent sampleHost.redactText
    (.known (candidate sampleHost (run sampleHost (start sampleHost samplePayload).2 [])
      (.sessionFinished sampleOutcome))) = .ok e := by
  refine ⟨_, redactEvent_eq_ok.mpr
    ⟨candidate_readable _ (by decide) (by decide) ?_, sampleOutcome_accepted, rfl⟩⟩
  rw [start_sampleHost.1]
  decide

theorem outcome_never_erased_sample :
    let s := run sampleHost (start sampleHost samplePayload).2 []
    let t := (call sampleHost s (.finish sampleOutcome)).2
    let u := run sampleHost t [.finishRun, .close]
    s.lifecycle = .active ∧ t.built ≤ s.built + 3 ∧
      ((t.sunk = s.sunk ∧ u.sunk = s.sunk) ∨
        ∃ own later, t.sunk = s.sunk ++ [own] ∧ u.sunk = t.sunk ++ later ∧
          Reduced sampleHost s sampleOutcome own ∧
          (∃ p, outcomeOf own = some p ∧ p.status = some .failed) ∧
          ∀ e' ∈ later, outcomeOf e' = none) := by
  obtain ⟨e, he⟩ := sampleOutcome_codec
  exact ⟨start_sampleHost.2, outcome_never_erased sampleHost samplePayload [] [.finishRun, .close]
    (.finish sampleOutcome) sampleOutcome .failed e (.inl rfl) start_sampleHost.2 rfl rfl he⟩

end QeReport.Sdk

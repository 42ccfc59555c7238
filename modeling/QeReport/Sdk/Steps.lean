import QeReport.Sdk.Session

/-! # What a call can do

Every call on a session comes to a few kinds of steps (`Step`): a step that writes nothing, the
loss of an outcome, the writing of an event of the active session, `session.finished`,
`run.finished`, and the end.  `call_steps` says so for each call, with the payloads the call may
write; what holds of every run is then shown step by step (`Steps.invariant`). -/

namespace QeReport.Sdk

/-- Nothing was written and no state entered. -/
structure Quiet (s s' : ReportSession) : Prop where
  sunk : s'.sunk = s.sunk
  sequence : s'.sequence = s.sequence
  built : s.built ≤ s'.built
  lifecycle : s'.lifecycle = s.lifecycle
  lost : s'.terminalOutcomeLost = s.terminalOutcomeLost

theorem Quiet.refl (s : ReportSession) : Quiet s s := ⟨rfl, rfl, le_rfl, rfl, rfl⟩

theorem Quiet.trans {s t u : ReportSession} (h : Quiet s t) (k : Quiet t u) : Quiet s u :=
  ⟨k.sunk.trans h.sunk, k.sequence.trans h.sequence, h.built.trans k.built,
    k.lifecycle.trans h.lifecycle, k.lost.trans h.lost⟩

theorem quiet_problem (s : ReportSession) (kind : ReportProblemKind) (message : Text) :
    Quiet s (s.problem kind message) := ⟨rfl, rfl, le_rfl, rfl, rfl⟩

theorem quiet_drop (s : ReportSession) : Quiet s s.drop := ⟨rfl, rfl, le_rfl, rfl, rfl⟩

theorem quiet_build (s : ReportSession) : Quiet s s.build := ⟨rfl, rfl, Nat.le_succ _, rfl, rfl⟩

theorem quiet_drop_problem (s : ReportSession) (kind : ReportProblemKind) (message : Text) :
    Quiet s (s.drop.problem kind message) := ⟨rfl, rfl, le_rfl, rfl, rfl⟩

section steps
variable (host : Outside)

/-- The event of a payload was built, redacted, found small enough and taken by the sink. -/
structure Wrote (payload : Payload) (s s' : ReportSession) (e : AnyEvent) : Prop where
  redacted : redactEvent host.redactText (.known (candidate host s payload)) = .ok e
  size : host.size e ≤ host.maxEventBytes
  sink : host.write s.tried = true
  sunk : s'.sunk = s.sunk ++ [e]
  sequence : s'.sequence = s.sequence + 1
  built : s'.built = s.built + 1
  lost : s'.terminalOutcomeLost = s.terminalOutcomeLost

/-- An event of the active session, neither `session.finished` nor `run.finished`. -/
def isOrdinary : Payload → Bool
  | .sessionFinished _ => false
  | .runFinished => false
  | _ => true

/-- What can happen to a session; `may` are the payloads that may be written. -/
inductive Step (may : Payload → Prop) : ReportSession → ReportSession → Prop
  | quiet {s s' : ReportSession} (h : Quiet s s') : Step may s s'
  | lost {s s' : ReportSession} (hactive : s.lifecycle = .active) (hsunk : s'.sunk = s.sunk)
      (hsequence : s'.sequence = s.sequence) (hbuilt : s.built ≤ s'.built)
      (hlifecycle : s'.lifecycle = s.lifecycle) (hlost : s'.terminalOutcomeLost = true) :
      Step may s s'
  | event {s s' : ReportSession} {payload : Payload} {e : AnyEvent} (hmay : may payload)
      (hactive : s.lifecycle = .active) (hlost : s.terminalOutcomeLost = false)
      (hordinary : isOrdinary payload = true) (h : Wrote host payload s s' e)
      (hlifecycle : s'.lifecycle = .active) : Step may s s'
  | sessionFinished {s s' : ReportSession} {outcome : SessionFinishedPayload} {e : AnyEvent}
      (hmay : may (.sessionFinished outcome)) (hactive : s.lifecycle = .active)
      (hlost : s.terminalOutcomeLost = false) (h : Wrote host (.sessionFinished outcome) s s' e)
      (hlifecycle : s'.lifecycle = .sessionFinished) : Step may s s'
  | runFinished {s s' : ReportSession} {e : AnyEvent} (hmay : may .runFinished)
      (hfinished : s.lifecycle = .sessionFinished) (hlost : s.terminalOutcomeLost = false)
      (h : Wrote host .runFinished s s' e) (hlifecycle : s'.lifecycle = .runFinished) :
      Step may s s'
  | closed {s s' : ReportSession} (hsunk : s'.sunk = s.sunk) (hsequence : s'.sequence = s.sequence)
      (hbuilt : s.built ≤ s'.built) (hlost : s'.terminalOutcomeLost = s.terminalOutcomeLost)
      (hlifecycle : s'.lifecycle = .closed) : Step may s s'

/-- A sequence of steps. -/
abbrev Steps (may : Payload → Prop) : ReportSession → ReportSession → Prop :=
  Relation.ReflTransGen (Step host may)

variable {host} {may : Payload → Prop} {s s' : ReportSession}

/-- A property every step keeps holds after any number of steps. -/
theorem Steps.invariant {P : ReportSession → Prop} (h : Steps host may s s')
    (hstep : ∀ t t', Step host may t t' → P t → P t') (hs : P s) : P s' := by
  induction h with
  | refl => exact hs
  | tail _ hlast ih => exact hstep _ _ hlast ih

theorem Steps.quiet (h : Quiet s s') : Steps host may s s' := .single (.quiet h)

/-! ### Writing -/

/-- What a write can give. -/
inductive WriteCase (host : Outside) (s : ReportSession) (payload : Payload) :
    Answer WriteAttempt → Prop
  | threw {err : ProtocolError}
      (h : redactEvent host.redactText (.known (candidate host s payload)) = .error err) :
      WriteCase host s payload (.error err, s.build)
  | tooLarge {e : AnyEvent} {bytes : ℕ} {s' : ReportSession}
      (h : redactEvent host.redactText (.known (candidate host s payload)) = .ok e)
      (hsize : host.maxEventBytes < host.size e) (hquiet : Quiet s s')
      (hbuilt : s'.built = s.built + 1) :
      WriteCase host s payload (.ok ⟨.tooLarge, bytes⟩, s')
  | written {e : AnyEvent} {bytes : ℕ} (h : Wrote host payload s (s.build.took e) e) :
      WriteCase host s payload (.ok ⟨.written, bytes⟩, s.build.took e)
  | sinkFailure {e : AnyEvent} {bytes : ℕ} {s' : ReportSession}
      (h : redactEvent host.redactText (.known (candidate host s payload)) = .ok e)
      (hquiet : Quiet s s') (hbuilt : s'.built = s.built + 1) :
      WriteCase host s payload (.ok ⟨.sinkFailure, bytes⟩, s')

theorem write_case (payload : Payload) (reportSize : Bool) :
    WriteCase host s payload (write host s payload reportSize) := by
  unfold write
  cases h : redactEvent host.redactText (.known (candidate host s payload)) with
  | error err => exact .threw h
  | ok e =>
      dsimp only
      split_ifs with hsize hreport hsink
      · exact .tooLarge h hsize ((quiet_build s).trans (quiet_drop_problem _ _ _)) rfl
      · exact .tooLarge h hsize ((quiet_build s).trans (quiet_drop _)) rfl
      · exact .written ⟨h, Nat.le_of_not_lt hsize, hsink, rfl, rfl, rfl, rfl⟩
      · exact .sinkFailure h ⟨rfl, rfl, Nat.le_succ _, rfl, rfl⟩ rfl

/-- What one reported write can give. -/
inductive WriteOneCase (host : Outside) (s : ReportSession) (payload : Payload) :
    Answer Bool → Prop
  | written {e : AnyEvent} (h : Wrote host payload s (s.build.took e) e) :
      WriteOneCase host s payload (.ok true, s.build.took e)
  | dropped {answer : Read Bool} {s' : ReportSession} (hanswer : answer ≠ .ok true)
      (hquiet : Quiet s s') : WriteOneCase host s payload (answer, s')

theorem writeOne_case (payload : Payload) : WriteOneCase host s payload (writeOne host s payload) := by
  have hcase : WriteCase host s payload (write host s payload true) := write_case payload true
  unfold writeOne
  generalize write host s payload true = w at hcase ⊢
  cases hcase with
  | threw h => exact .dropped (by simp) (quiet_build s)
  | tooLarge h hsize hquiet hbuilt => exact .dropped (by simp) hquiet
  | written h => exact .written h
  | sinkFailure h hquiet hbuilt => exact .dropped (by simp) hquiet

/-! ### The guards -/

theorem acceptsSessionEvents_case (s : ReportSession) (what : Text) :
    (acceptsSessionEvents s what = (true, s) ∧ s.lifecycle = .active ∧
      s.terminalOutcomeLost = false) ∨
    ∃ s', acceptsSessionEvents s what = (false, s') ∧ Quiet s s' ∧
      (s.lifecycle = .active → s.terminalOutcomeLost = true) := by
  unfold acceptsSessionEvents
  split_ifs with hlost hactive hrun
  · exact .inr ⟨_, rfl, quiet_drop_problem _ _ _, fun _ => hlost⟩
  · exact .inl ⟨rfl, hactive, by simpa using hlost⟩
  · exact .inr ⟨_, rfl, quiet_drop_problem _ _ _, fun h => absurd h hactive⟩
  · exact .inr ⟨_, rfl, quiet_drop_problem _ _ _, fun h => absurd h hactive⟩

/-! ### Finishing -/

/-- The forms in which an outcome may be written. -/
def forms (o : SessionFinishedPayload) : List SessionFinishedPayload :=
  [o, ⟨o.status, o.rawStatus, none⟩, ⟨o.status, none, none⟩]

theorem finishLoop_steps {status : SessionStatus} {outcome : SessionFinishedPayload}
    (hstatus : outcome.status = some status) (hmay : ∀ o ∈ forms outcome, may (.sessionFinished o))
    (hactive : s.lifecycle = .active) (hlost : s.terminalOutcomeLost = false) :
    Steps host may s (finishLoop host status outcome s).2 := by
  induction hn : reductions outcome using Nat.strong_induction_on generalizing outcome s with
  | _ n ih =>
      have hcase : WriteCase host s (.sessionFinished outcome)
          (write host s (.sessionFinished outcome) false) := write_case _ _
      rw [finishLoop]
      generalize write host s (.sessionFinished outcome) false = w at hcase ⊢
      cases hcase with
      | threw h => exact .quiet (quiet_build s)
      | written h =>
          exact .single (.sessionFinished (hmay _ (by simp [forms])) hactive hlost
            ⟨h.redacted, h.size, h.sink, h.sunk, h.sequence, h.built, h.lost⟩ rfl)
      | sinkFailure h hquiet hbuilt =>
          refine .single (.lost hactive hquiet.sunk hquiet.sequence hquiet.built hquiet.lifecycle rfl)
      | tooLarge h hsize hquiet hbuilt =>
          dsimp only
          split_ifs with hf hr
          · refine .trans (Steps.quiet (hquiet.trans (quiet_problem _ _ _))) (ih _ ?_ rfl ?_ ?_ ?_ rfl)
            · rw [← hn]
              simp [reductions, hf]
            · intro o ho
              refine hmay o ?_
              rw [← hstatus] at ho
              simp only [forms, List.mem_cons, List.not_mem_nil, or_false] at ho ⊢
              tauto
            · exact hquiet.lifecycle.trans hactive
            · exact hquiet.lost.trans hlost
          · refine .trans (Steps.quiet (hquiet.trans (quiet_problem _ _ _))) (ih _ ?_ rfl ?_ ?_ ?_ rfl)
            · rw [← hn]
              simp [reductions, hr]
            · intro o ho
              refine hmay o ?_
              rw [← hstatus] at ho
              simp only [forms, List.mem_cons, List.not_mem_nil, or_false, or_self] at ho
              simp [forms, ho]
            · exact hquiet.lifecycle.trans hactive
            · exact hquiet.lost.trans hlost
          · exact .single (.lost hactive hquiet.sunk hquiet.sequence hquiet.built hquiet.lifecycle
              rfl)

theorem finish_steps {outcome : SessionFinishedPayload}
    (hmay : ∀ o ∈ forms outcome, may (.sessionFinished o)) :
    Steps host may s (finish host s outcome).2 := by
  unfold finish
  cases outcomeViolation outcome with
  | some violation => exact .single (.quiet (quiet_drop_problem _ _ _))
  | none =>
      dsimp only
      rcases acceptsSessionEvents_case s (txt "event session.finished") with
        ⟨haccept, hactive, hlost⟩ | ⟨s', haccept, hquiet, -⟩
      · rw [haccept]
        dsimp only
        cases hstatus : outcome.status with
        | none =>
            have hcase : WriteOneCase host s (.sessionFinished outcome)
                (writeOne host s (.sessionFinished outcome)) := writeOne_case _
            dsimp only
            generalize writeOne host s (.sessionFinished outcome) = w at hcase ⊢
            cases hcase with
            | written h =>
                exact .single (.sessionFinished (hmay _ (by simp [forms])) hactive hlost
                  ⟨h.redacted, h.size, h.sink, h.sunk, h.sequence, h.built, h.lost⟩ rfl)
            | dropped hanswer hquiet =>
                split
                · rename_i heq
                  cases heq
                  exact absurd rfl hanswer
                · exact .single (.quiet hquiet)
        | some status => exact finishLoop_steps hstatus hmay hactive hlost
      · rw [haccept]
        exact .single (.quiet hquiet)

theorem writeRunFinished_steps (hmay : may .runFinished) (hlost : s.terminalOutcomeLost = false) :
    Steps host may s (writeRunFinished host s).2 := by
  unfold writeRunFinished
  split_ifs with hstate
  · exact .single (.quiet (quiet_drop_problem _ _ _))
  · have hcase : WriteOneCase host s .runFinished (writeOne host s .runFinished) := writeOne_case _
    generalize writeOne host s .runFinished = w at hcase ⊢
    cases hcase with
    | written h =>
        exact .single (.runFinished hmay (by simpa using hstate) hlost
          ⟨h.redacted, h.size, h.sink, h.sunk, h.sequence, h.built, h.lost⟩ rfl)
    | dropped hanswer hquiet =>
        split
        · rename_i heq
          cases heq
          exact absurd rfl hanswer
        · exact .single (.quiet hquiet)

/-- An outcome is lost only where one with a status was given. -/
theorem finish_empty_lost (hlost : s.terminalOutcomeLost = false) :
    (finish host s emptyOutcome).2.terminalOutcomeLost = false := by
  have hv : outcomeViolation emptyOutcome = none := rfl
  unfold finish
  rw [hv]
  dsimp only
  rcases acceptsSessionEvents_case s (txt "event session.finished") with
    ⟨haccept, -, -⟩ | ⟨s', haccept, hquiet, -⟩
  · have hcase : WriteOneCase host s (.sessionFinished emptyOutcome)
        (writeOne host s (.sessionFinished emptyOutcome)) := writeOne_case _
    rw [haccept]
    dsimp only [emptyOutcome] at hcase ⊢
    generalize writeOne host s (.sessionFinished ⟨none, none, none⟩) = w at hcase ⊢
    cases hcase with
    | written h => exact h.lost.trans hlost
    | dropped hanswer hquiet =>
        split
        · rename_i heq
          cases heq
          exact absurd rfl hanswer
        · exact hquiet.lost.trans hlost
  · rw [haccept]
    exact hquiet.lost.trans hlost

theorem finishRun_steps (hmay : may .runFinished) (hempty : may (.sessionFinished emptyOutcome)) :
    Steps host may s (finishRun host s).2 := by
  have hforms : ∀ o ∈ forms emptyOutcome, may (.sessionFinished o) := by
    intro o ho
    have : o = emptyOutcome := by simpa [forms, emptyOutcome] using ho
    exact this ▸ hempty
  unfold finishRun
  split_ifs with hlost hactive
  · exact .single (.quiet (quiet_drop_problem _ _ _))
  · have hsteps : Steps host may s (finish host s emptyOutcome).2 := finish_steps hforms
    have hkept : (finish host s emptyOutcome).2.terminalOutcomeLost = false :=
      finish_empty_lost (by simpa using hlost)
    generalize finish host s emptyOutcome = w at hsteps hkept ⊢
    obtain ⟨_ | _ | _, t⟩ := w
    · exact hsteps
    · exact hsteps
    · exact hsteps.trans (writeRunFinished_steps hmay hkept)
  · exact writeRunFinished_steps hmay (by simpa using hlost)

theorem closeSink_step (s : ReportSession) : Step host may s (closeSink host s) := by
  unfold closeSink
  split_ifs
  · exact .closed rfl rfl le_rfl rfl rfl
  · exact .closed rfl rfl le_rfl rfl rfl

theorem close_steps (hempty : may (.sessionFinished emptyOutcome)) :
    Steps host may s (close host s).2 := by
  have hforms : ∀ o ∈ forms emptyOutcome, may (.sessionFinished o) := by
    intro o ho
    have : o = emptyOutcome := by simpa [forms, emptyOutcome] using ho
    exact this ▸ hempty
  unfold close
  split_ifs
  · exact .refl
  · have hsteps : Steps host may s (finish host s emptyOutcome).2 := finish_steps hforms
    generalize finish host s emptyOutcome = w at hsteps ⊢
    obtain ⟨_ | _, t⟩ := w
    · exact hsteps
    · exact hsteps.tail (closeSink_step t)
  · exact .single (closeSink_step s)

/-! ### Calls -/

theorem emit_ordinary {payload : Payload} (hordinary : isOrdinary payload = true) :
    emit host s payload =
      match acceptsSessionEvents s (txt "event " ++ payload.eventType.text) with
      | (false, s) => (.ok false, s)
      | (true, s) => writeOne host s payload := by
  cases payload with
  | sessionFinished p => cases hordinary
  | runFinished => cases hordinary
  | sessionStarted p => rfl
  | attemptStarted p => rfl
  | attemptFinished p => rfl
  | stepStarted p => rfl
  | stepFinished p => rfl
  | attachmentAdded p => rfl
  | scopeFailed p => rfl

/-- An event of the active session is written in one step, or nothing happens. -/
theorem emit_ordinary_case (host : Outside) (s : ReportSession) {payload : Payload}
    (hordinary : isOrdinary payload = true) :
    Quiet s (emit host s payload).2 ∨
      s.lifecycle = .active ∧ s.terminalOutcomeLost = false ∧
        ∃ e, Wrote host payload s (emit host s payload).2 e ∧
          (emit host s payload).2.lifecycle = .active := by
  rw [emit_ordinary hordinary]
  rcases acceptsSessionEvents_case s (txt "event " ++ payload.eventType.text) with
    ⟨haccept, hactive, hlost⟩ | ⟨s', haccept, hquiet, -⟩
  · have hcase : WriteOneCase host s payload (writeOne host s payload) := writeOne_case _
    rw [haccept]
    dsimp only
    generalize writeOne host s payload = w at hcase ⊢
    cases hcase with
    | written h => exact .inr ⟨hactive, hlost, _, h, hactive⟩
    | dropped hanswer hquiet => exact .inl hquiet
  · rw [haccept]
    exact .inl hquiet

theorem emit_ordinary_steps {payload : Payload} (hordinary : isOrdinary payload = true)
    (hmay : may payload) : Steps host may s (emit host s payload).2 := by
  rcases emit_ordinary_case host s hordinary with
    hquiet | ⟨hactive, hlost, e, hw, hlifecycle⟩
  · exact .single (.quiet hquiet)
  · exact .single (.event hmay hactive hlost hordinary hw hlifecycle)

/-- The payloads a call may write. -/
def Call.MayWrite : Call → Payload → Prop
  | .emit (.sessionFinished outcome), p => ∃ o ∈ forms outcome, p = .sessionFinished o
  | .emit .runFinished, p => p = .runFinished ∨ p = .sessionFinished emptyOutcome
  | .emit input, p => p = input
  | .attach input _, p => ∃ stored, p = attachmentPayload input stored
  | .finish outcome, p => ∃ o ∈ forms outcome, p = .sessionFinished o
  | .finishRun, p => p = .runFinished ∨ p = .sessionFinished emptyOutcome
  | .close, p => p = .sessionFinished emptyOutcome

theorem call_steps (c : Call) : Steps host c.MayWrite s (call host s c).2 := by
  cases c with
  | emit input =>
      cases input with
      | sessionFinished p => exact finish_steps (fun o ho => ⟨o, ho, rfl⟩)
      | runFinished => exact finishRun_steps (.inl rfl) (.inr rfl)
      | sessionStarted p => exact emit_ordinary_steps rfl rfl
      | attemptStarted p => exact emit_ordinary_steps rfl rfl
      | attemptFinished p => exact emit_ordinary_steps rfl rfl
      | stepStarted p => exact emit_ordinary_steps rfl rfl
      | stepFinished p => exact emit_ordinary_steps rfl rfl
      | attachmentAdded p => exact emit_ordinary_steps rfl rfl
      | scopeFailed p => exact emit_ordinary_steps rfl rfl
  | attach input bytes =>
      rw [call]
      unfold attach
      rcases acceptsSessionEvents_case s (txt "attachment " ++ input.name) with
        ⟨haccept, -, -⟩ | ⟨s', haccept, hquiet, -⟩
      · rw [haccept]
        dsimp only
        have hstored : Quiet s { s with stored := s.stored + 1 } := ⟨rfl, rfl, le_rfl, rfl, rfl⟩
        cases host.storeAttachment s.stored (contentOf host input bytes) with
        | error e =>
            refine .single (.quiet (hstored.trans ?_))
            cases e with
            | tooLarge => exact quiet_problem _ _ _
            | other => exact quiet_problem _ _ _
        | ok stored =>
            exact .trans (Steps.quiet hstored) (emit_ordinary_steps rfl ⟨stored, rfl⟩)
      · rw [haccept]
        exact .single (.quiet hquiet)
  | finish outcome => exact finish_steps (fun o ho => ⟨o, ho, rfl⟩)
  | finishRun => exact finishRun_steps (.inl rfl) (.inr rfl)
  | close => exact close_steps rfl

end steps

end QeReport.Sdk

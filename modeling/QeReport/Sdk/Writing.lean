import QeReport.Sdk.Graceful
import QeReport.Sdk.Outcome
import QeReport.Validator.OneSession

/-! # A session that writes all it is handed

A request is written when it returns and drops no event (`Writes`).  In a session that writes
every request the sink holds the handed payloads, redacted, each with the next number, id and
time (`stream`); a request hands on one payload, or none when an attachment could not be stored
(`Yields`). -/

namespace QeReport.Sdk

/-- The event of the `n`-th payload, counted from zero. -/
def writtenEvent (host : Outside) (n : ℕ) (payload : Payload) : Event where
  protocolVersion := txt "0.3.0"
  eventId := host.ids n
  runId := host.runId
  sessionId := host.sessionId
  sequence := n + 1
  occurredAt := host.clock n
  ignorable := none
  payload := (redactPayload host.redactText payload).normal

/-- The events of the payloads. -/
def stream (host : Outside) (payloads : List Payload) : Log :=
  payloads.zipIdx.map (fun x => .known (writtenEvent host x.2 x.1))

theorem stream_concat (host : Outside) (ps : List Payload) (p : Payload) :
    stream host (ps ++ [p]) = stream host ps ++ [.known (writtenEvent host ps.length p)] := by
  rw [stream, List.zipIdx_append, List.map_append, List.zipIdx_singleton, List.map_singleton,
    Nat.zero_add]
  rfl

section writing
variable (host : Outside)

/-- The sink holds the events of these payloads, and no outcome was lost. -/
structure Streamed (s : ReportSession) (ps : List Payload) : Prop where
  sunk : s.sunk = stream host ps
  sequence : s.sequence = ps.length
  built : s.built = ps.length
  lost : s.terminalOutcomeLost = false
  taken : ∀ e ∈ s.sunk, host.size e ≤ host.maxEventBytes ∧ eventFromObject (eventToObject e) = .ok e

/-- The answer comes, and no event was dropped on the way. -/
structure Kept {α : Type} (s : ReportSession) (a : Answer α) : Prop where
  returns : a.Returns
  dropped : a.2.dropped = s.dropped

theorem returns_iff {α : Type} {a : Answer α} : a.Returns ↔ a.1.toOption.isSome = true := by
  obtain ⟨_ | x, t⟩ := a
  · simp [Answer.Returns, Except.toOption]
  · simp [Answer.Returns, Except.toOption]

/-- The session writes what the request hands it. -/
def Writes (s : ReportSession) (r : Request) : Prop := Kept s (request host s r)

/-- Every request of the list is written. -/
def WritesAll : ReportSession → List Request → Prop
  | _, [] => True
  | s, r :: rs => Writes host s r ∧ WritesAll (request host s r).2 rs

instance decidableKept {α : Type} (s : ReportSession) (a : Answer α) : Decidable (Kept s a) :=
  decidable_of_iff (a.1.toOption.isSome = true ∧ a.2.dropped = s.dropped)
    ⟨fun h => ⟨returns_iff.mpr h.1, h.2⟩, fun h => ⟨returns_iff.mp h.returns, h.dropped⟩⟩

instance decidableWrites (s : ReportSession) (r : Request) : Decidable (Writes host s r) :=
  inferInstanceAs (Decidable (Kept s (request host s r)))

instance decidableWritesAll : (s : ReportSession) → (rs : List Request) →
    Decidable (WritesAll host s rs)
  | _, [] => .isTrue trivial
  | s, r :: rs => @instDecidableAnd _ _ (decidableWrites host s r)
      (decidableWritesAll (request host s r).2 rs)

variable {host} {s : ReportSession} {ps : List Payload} {p : Payload}

theorem streamed_new : Streamed host .new [] :=
  ⟨rfl, rfl, rfl, rfl, fun _ he => absurd he List.not_mem_nil⟩

/-- A write that drops nothing and returns was taken. -/
theorem write_kept {reportSize : Bool} (h : Streamed host s ps)
    (hk : Kept s (write host s p reportSize)) :
    ∃ bytes e, write host s p reportSize = (.ok ⟨.written, bytes⟩, s.build.took e) ∧
      Streamed host (s.build.took e) (ps ++ [p]) := by
  have hreturns := hk.returns
  have hdropped := hk.dropped
  revert hreturns hdropped
  unfold write
  cases hr : redactEvent host.redactText (.known (candidate host s p)) with
  | error err =>
      intro hreturns
      simp at hreturns
  | ok e =>
      dsimp only
      split_ifs with hsize hreport hsink
      · intro _ hdropped
        simp [ReportSession.drop, ReportSession.problem, ReportSession.build] at hdropped
      · intro _ hdropped
        simp [ReportSession.drop, ReportSession.build] at hdropped
      · intro _ _
        have hback := redactEvent_written hr
        refine ⟨_, e, rfl, ?_, ?_, ?_, h.lost, ?_⟩
        · obtain rfl := (redactEvent_eq_ok.mp hr).2.2
          rw [stream_concat, ← h.sunk]
          have hcandidate : (redacted host.redactText (candidate host s p)).normal =
              writtenEvent host ps.length p := by
            rw [← h.sequence, candidate, h.built, ← h.sequence]
            rfl
          rw [← hcandidate]
          rfl
        · rw [List.length_append, List.length_singleton, ← h.sequence]
          rfl
        · rw [List.length_append, List.length_singleton, ← h.built]
          rfl
        · intro x hx
          rcases List.mem_append.mp hx with hx | hx
          · exact h.taken x hx
          · rw [List.mem_singleton.mp hx]
            exact ⟨Nat.le_of_not_lt hsize, hback⟩
      · intro _ hdropped
        simp [ReportSession.refused, ReportSession.drop, ReportSession.problem,
          ReportSession.build] at hdropped

theorem writeOne_kept (h : Streamed host s ps) (hk : Kept s (writeOne host s p)) :
    ∃ e, writeOne host s p = (.ok true, s.build.took e) ∧
      Streamed host (s.build.took e) (ps ++ [p]) := by
  have hw : Kept s (write host s p true) := by
    obtain ⟨⟨answer, hanswer⟩, hdropped⟩ := hk
    unfold writeOne at hanswer hdropped
    cases hwrite : write host s p true with
    | mk a t =>
        rw [hwrite] at hanswer hdropped
        cases a with
        | error err => cases hanswer
        | ok attempt => exact ⟨⟨attempt, rfl⟩, hdropped⟩
  obtain ⟨bytes, e, heq, hs⟩ := write_kept h hw
  refine ⟨e, ?_, hs⟩
  rw [writeOne, heq]
  rfl

/-- An active session accepts events. -/
theorem acceptsSessionEvents_active (h : Streamed host s ps) (hactive : s.lifecycle = .active)
    (what : Text) : acceptsSessionEvents s what = (true, s) := by
  rw [acceptsSessionEvents, h.lost, if_neg Bool.false_ne_true, if_pos hactive]

theorem emit_kept (h : Streamed host s ps) (hactive : s.lifecycle = .active)
    (hordinary : isOrdinary p = true) (hk : Kept s (emit host s p)) :
    (emit host s p).1 = .ok true ∧ (emit host s p).2.lifecycle = .active ∧
      Streamed host (emit host s p).2 (ps ++ [p]) := by
  have heq : emit host s p = writeOne host s p := by
    rw [emit_ordinary hordinary, acceptsSessionEvents_active h hactive]
  rw [heq] at hk ⊢
  obtain ⟨e, hw, hs⟩ := writeOne_kept h hk
  rw [hw]
  exact ⟨rfl, hactive, hs⟩

/-! ### Requests -/

/-- The payloads a request hands to a session that accepts it. -/
inductive Yields (host : Outside) : Request → List Payload → Prop
  | emit {p : Payload} (h : isOrdinary p = true) : Yields host (.call (.emit p)) [p]
  | attached {input : AttachmentInput} {bytes content : List ℕ} {n : ℕ} {stored : StoredAttachment}
      (h : host.storeAttachment n content = .ok stored) :
      Yields host (.call (.attach input bytes)) [attachmentPayload input stored]
  | attachedFile {input : AttachmentInput} {file : SourceFile} {content : List ℕ} {n : ℕ}
      {stored : StoredAttachment} (h : host.storeAttachment n content = .ok stored) :
      Yields host (.attachFileSync input file) [attachmentPayload input stored]
  | notAttached {input : AttachmentInput} {bytes : List ℕ} :
      Yields host (.call (.attach input bytes)) []
  | notAttachedFile {input : AttachmentInput} {file : SourceFile} :
      Yields host (.attachFileSync input file) []

/-- The payloads of a list of requests. -/
inductive YieldsAll (host : Outside) : List Request → List Payload → Prop
  | nil : YieldsAll host [] []
  | cons {r : Request} {rs : List Request} {qs ps : List Payload} (h : Yields host r qs)
      (hs : YieldsAll host rs ps) : YieldsAll host (r :: rs) (qs ++ ps)

theorem yieldsAll_append {rs rs' : List Request} {ps : List Payload}
    (h : YieldsAll host (rs ++ rs') ps) :
    ∃ qs qs', ps = qs ++ qs' ∧ YieldsAll host rs qs ∧ YieldsAll host rs' qs' := by
  induction rs generalizing ps with
  | nil => exact ⟨[], ps, rfl, .nil, h⟩
  | cons r rs ih =>
      cases h with
      | cons hr hs =>
          obtain ⟨qs, qs', rfl, hqs, hqs'⟩ := ih hs
          exact ⟨_, qs', (List.append_assoc _ _ _).symm, .cons hr hqs, hqs'⟩

/-- Events are handed on as they are. -/
theorem yieldsAll_emits {l ps : List Payload}
    (h : YieldsAll host (l.map (fun p => .call (.emit p))) ps) : ps = l := by
  induction l generalizing ps with
  | nil =>
      cases h with
      | nil => rfl
  | cons p l ih =>
      cases h with
      | cons hp hs =>
          cases hp with
          | emit _ => rw [ih hs, List.singleton_append]

theorem yieldsAll_emit {p : Payload} {ps : List Payload}
    (h : YieldsAll host [.call (.emit p)] ps) : ps = [p] :=
  yieldsAll_emits (l := [p]) h

/-- A request for an active session: an event or an attachment. -/
def Request.isOrdinary : Request → Bool
  | .call (.emit p) => Sdk.isOrdinary p
  | .call (.attach _ _) => true
  | .attachFileSync _ _ => true
  | _ => false

theorem Streamed.stored (h : Streamed host s ps) (n : ℕ) : Streamed host { s with stored := n } ps :=
  ⟨h.sunk, h.sequence, h.built, h.lost, h.taken⟩

theorem Streamed.problem (h : Streamed host s ps) (kind : ReportProblemKind) (message : Text) :
    Streamed host (s.problem kind message) ps := ⟨h.sunk, h.sequence, h.built, h.lost, h.taken⟩

theorem storeFailed_streamed (h : Streamed host s ps) (input : AttachmentInput) (e : StoreFailure) :
    Streamed host (storeFailed s input e) ps ∧
      (storeFailed s input e).lifecycle = s.lifecycle := by
  cases e with
  | tooLarge => exact ⟨h.problem _ _, rfl⟩
  | other => exact ⟨h.problem _ _, rfl⟩

theorem attach_kept (h : Streamed host s ps) (hactive : s.lifecycle = .active)
    {input : AttachmentInput} {bytes : List ℕ} (hk : Kept s (attach host s input bytes)) :
    (attach host s input bytes).2.lifecycle = .active ∧
      (Streamed host (attach host s input bytes).2 ps ∨
        ∃ stored n content, host.storeAttachment n content = .ok stored ∧
          Streamed host (attach host s input bytes).2 (ps ++ [attachmentPayload input stored])) := by
  revert hk
  unfold attach
  rw [acceptsSessionEvents_active h hactive]
  dsimp only
  intro hk
  cases hstore : host.storeAttachment s.stored (contentOf host input bytes) with
  | error e =>
      obtain ⟨hs, hlifecycle⟩ := storeFailed_streamed (h.stored (s.stored + 1)) input e
      exact ⟨hlifecycle.trans hactive, .inl hs⟩
  | ok stored =>
      rw [hstore] at hk
      dsimp only at hk ⊢
      have hkept : Kept { s with stored := s.stored + 1 }
          (emit host { s with stored := s.stored + 1 } (attachmentPayload input stored)) :=
        ⟨hk.returns, hk.dropped⟩
      obtain ⟨-, hlifecycle, hs⟩ := emit_kept (h.stored (s.stored + 1)) hactive rfl hkept
      exact ⟨hlifecycle, .inr ⟨stored, _, _, hstore, hs⟩⟩

theorem attachFileSync_eq (h : Streamed host s ps) (hactive : s.lifecycle = .active)
    (input : AttachmentInput) (file : SourceFile) :
    request host s (.attachFileSync input file) =
      match readBounded host.maxAttachmentBytes file with
      | none => (.ok false, storeFailed s input .other)
      | some none => (.ok false, storeFailed s input .tooLarge)
      | some (some bytes) => attach host s input bytes := by
  have haccepts := acceptsSessionEvents_active h hactive (txt "attachment " ++ input.name)
  rw [request, attachFileSync]
  generalize acceptsSessionEvents s (txt "attachment " ++ input.name) = a at haccepts ⊢
  subst haccepts
  rfl

/-- A written request hands on its payloads. -/
theorem request_yields (h : Streamed host s ps) (hactive : s.lifecycle = .active) {r : Request}
    (hr : r.isOrdinary = true) (hw : Writes host s r) :
    (request host s r).2.lifecycle = .active ∧
      ∃ qs, Yields host r qs ∧ Streamed host (request host s r).2 (ps ++ qs) := by
  unfold Writes at hw
  cases r with
  | call c =>
      cases c with
      | emit p =>
          obtain ⟨-, hlifecycle, hs⟩ := emit_kept h hactive hr hw
          exact ⟨hlifecycle, [p], .emit hr, hs⟩
      | attach input bytes =>
          obtain ⟨hlifecycle, hs | ⟨stored, n, content, hstore, hs⟩⟩ := attach_kept h hactive hw
          · exact ⟨hlifecycle, [], .notAttached, by rwa [List.append_nil]⟩
          · exact ⟨hlifecycle, _, .attached hstore, hs⟩
      | finish outcome => cases hr
      | finishRun => cases hr
      | close => cases hr
  | attachFileSync input file =>
      rw [attachFileSync_eq h hactive] at hw ⊢
      rcases hread : readBounded host.maxAttachmentBytes file with _ | _ | bytes
      · obtain ⟨hs, hlifecycle⟩ := storeFailed_streamed h input .other
        exact ⟨hlifecycle.trans hactive, [], .notAttachedFile, by rwa [List.append_nil]⟩
      · obtain ⟨hs, hlifecycle⟩ := storeFailed_streamed h input .tooLarge
        exact ⟨hlifecycle.trans hactive, [], .notAttachedFile, by rwa [List.append_nil]⟩
      · rw [hread] at hw
        obtain ⟨hlifecycle, hs | ⟨stored, n, content, hstore, hs⟩⟩ := attach_kept h hactive hw
        · exact ⟨hlifecycle, [], .notAttachedFile, by rwa [List.append_nil]⟩
        · exact ⟨hlifecycle, _, .attachedFile hstore, hs⟩

/-- The session after a list of requests. -/
def serve (host : Outside) (s : ReportSession) (rs : List Request) : ReportSession :=
  rs.foldl (fun s r => (request host s r).2) s

theorem writesAll_append {rs rs' : List Request} :
    WritesAll host s (rs ++ rs') ↔ WritesAll host s rs ∧ WritesAll host (serve host s rs) rs' := by
  induction rs generalizing s with
  | nil => exact (iff_of_eq (true_and _)).symm
  | cons r rs ih =>
      rw [List.cons_append, WritesAll, WritesAll, ih, and_assoc]
      rfl

theorem serve_append (rs rs' : List Request) :
    serve host s (rs ++ rs') = serve host (serve host s rs) rs' := List.foldl_append

/-- A session that writes its requests holds what they hand on. -/
theorem serve_yields (h : Streamed host s ps) (hactive : s.lifecycle = .active) {rs : List Request}
    (hrs : ∀ r ∈ rs, r.isOrdinary = true) (hw : WritesAll host s rs) :
    (serve host s rs).lifecycle = .active ∧
      ∃ qs, YieldsAll host rs qs ∧ Streamed host (serve host s rs) (ps ++ qs) := by
  induction rs generalizing s ps with
  | nil => exact ⟨hactive, [], .nil, by rwa [List.append_nil]⟩
  | cons r rs ih =>
      obtain ⟨hlifecycle, qs, hqs, hs⟩ :=
        request_yields h hactive (hrs r List.mem_cons_self) hw.1
      obtain ⟨hfinal, qs', hqs', hs'⟩ :=
        ih hs hlifecycle (fun r hr => hrs r (List.mem_cons_of_mem _ hr)) hw.2
      exact ⟨hfinal, qs ++ qs', .cons hqs hqs', by rwa [List.append_assoc] at hs'⟩

/-! ### The end -/

theorem write_dropped (s : ReportSession) (p : Payload) (reportSize : Bool) :
    s.dropped ≤ (write host s p reportSize).2.dropped := by
  unfold write
  cases redactEvent host.redactText (.known (candidate host s p)) with
  | error err => exact le_rfl
  | ok e =>
      dsimp only
      split_ifs
      · exact Nat.le_succ _
      · exact Nat.le_succ _
      · exact le_rfl
      · exact Nat.le_succ _

/-- An outcome is never written with fewer events dropped. -/
theorem finishLoop_dropped (status : SessionStatus) (outcome : SessionFinishedPayload)
    (s : ReportSession) : s.dropped ≤ (finishLoop host status outcome s).2.dropped := by
  induction hn : reductions outcome using Nat.strong_induction_on generalizing outcome s with
  | _ n ih =>
      have hw := @write_dropped host s (.sessionFinished outcome) false
      rw [finishLoop]
      generalize write host s (.sessionFinished outcome) false = w at hw ⊢
      obtain ⟨_ | ⟨_ | _ | _, bytes⟩, t⟩ := w
      · exact hw
      · exact hw
      · dsimp only
        split_ifs with hf hr
        · have hfewer : reductions ⟨some status, outcome.rawStatus, none⟩ < n := by
            rw [← hn]
            simp [reductions, hf]
          exact Nat.le_trans hw (ih _ hfewer _ (ReportSession.problem t _ _) rfl)
        · have hfewer : reductions ⟨some status, none, none⟩ < n := by
            rw [← hn]
            simp [reductions, hr]
          exact Nat.le_trans hw (ih _ hfewer _ (ReportSession.problem t _ _) rfl)
        · exact hw
      · exact hw

/-- A write that was not taken drops its event or throws. -/
theorem write_lost {s : ReportSession} {p : Payload} {reportSize : Bool}
    {attempt : WriteAttempt} {t : ReportSession}
    (h : write host s p reportSize = (.ok attempt, t)) (hresult : attempt.result ≠ .written) :
    t.dropped = s.dropped + 1 := by
  unfold write at h
  cases hr : redactEvent host.redactText (.known (candidate host s p)) with
  | error err =>
      rw [hr] at h
      cases h
  | ok e =>
      rw [hr] at h
      dsimp only at h
      split_ifs at h
      · cases h
        rfl
      · cases h
        rfl
      · cases h
        exact absurd rfl hresult
      · cases h
        rfl

/-- A session that writes its outcome is finished. -/
theorem finish_kept (h : Streamed host s ps) (hactive : s.lifecycle = .active)
    {outcome : SessionFinishedPayload} (hk : Kept s (finish host s outcome)) :
    (finish host s outcome).1 = .ok true ∧
      (finish host s outcome).2.lifecycle = .sessionFinished ∧
      Streamed host (finish host s outcome).2 (ps ++ [.sessionFinished outcome]) := by
  unfold finish at hk ⊢
  cases hv : outcomeViolation outcome with
  | some violation =>
      rw [hv] at hk
      have hdropped := hk.dropped
      simp [ReportSession.drop, ReportSession.problem] at hdropped
  | none =>
      rw [hv] at hk
      dsimp only at hk ⊢
      rw [acceptsSessionEvents_active h hactive] at hk ⊢
      dsimp only at hk ⊢
      cases hstatus : outcome.status with
      | none =>
          rw [hstatus] at hk
          dsimp only at hk ⊢
          have hone : Kept s (writeOne host s (.sessionFinished outcome)) := by
            revert hk
            generalize writeOne host s (.sessionFinished outcome) = w
            obtain ⟨_ | _ | _, t⟩ := w <;> exact fun hk => ⟨hk.returns, hk.dropped⟩
          obtain ⟨e, heq, hs⟩ := writeOne_kept h hone
          rw [heq]
          exact ⟨rfl, rfl, hs.sunk, hs.sequence, hs.built, hs.lost, hs.taken⟩
      | some status =>
          rw [hstatus] at hk
          dsimp only at hk ⊢
          have hwritten : Kept s (write host s (.sessionFinished outcome) false) := by
            rw [finishLoop] at hk
            cases hwrite : write host s (.sessionFinished outcome) false with
            | mk a t =>
                rw [hwrite] at hk
                rcases a with err | ⟨_ | _ | _, bytes⟩
                · exact absurd hk.returns (by simp)
                · exact ⟨⟨_, rfl⟩, hk.dropped⟩
                · have hdrop := write_lost hwrite (by simp)
                  have hdropped := hk.dropped
                  dsimp only at hdropped
                  split_ifs at hdropped
                  · have hloop := @finishLoop_dropped host status
                      ⟨some status, outcome.rawStatus, none⟩
                      (t.problem .eventTooLarge (txt "session.finished with its failures is " ++
                        sizeText host bytes ++ txt "; retried without them"))
                    rw [hdropped] at hloop
                    simp only [ReportSession.problem, hdrop] at hloop
                    omega
                  · have hloop := @finishLoop_dropped host status ⟨some status, none, none⟩
                      (t.problem .eventTooLarge (txt "session.finished with its rawStatus is " ++
                        sizeText host bytes ++ txt "; retried without it"))
                    rw [hdropped] at hloop
                    simp only [ReportSession.problem, hdrop] at hloop
                    omega
                  · simp only [ReportSession.lose, ReportSession.problem, hdrop] at hdropped
                    omega
                · have hdrop := write_lost hwrite (by simp)
                  have hdropped := hk.dropped
                  simp only [ReportSession.lose, ReportSession.problem, hdrop] at hdropped
                  omega
          obtain ⟨bytes, e, heq, hs⟩ := write_kept h hwritten
          rw [finishLoop, heq]
          exact ⟨rfl, rfl, hs.sunk, hs.sequence, hs.built, hs.lost, hs.taken⟩

theorem finishRun_eq (hlost : s.terminalOutcomeLost = false) (hfinished : s.lifecycle = .sessionFinished) :
    finishRun host s =
      match writeOne host s .runFinished with
      | (.ok true, s) => (.ok true, s.enter .runFinished)
      | other => other := by
  rw [finishRun, hlost, if_neg Bool.false_ne_true, if_neg (by rw [hfinished]; decide),
    writeRunFinished]
  exact if_neg (by rw [hfinished]; decide)

/-- A finished session that writes run.finished. -/
theorem finishRun_kept (h : Streamed host s ps) (hfinished : s.lifecycle = .sessionFinished)
    (hk : Kept s (finishRun host s)) :
    (finishRun host s).2.lifecycle = .runFinished ∧
      Streamed host (finishRun host s).2 (ps ++ [.runFinished]) := by
  rw [finishRun_eq h.lost hfinished] at hk ⊢
  have hone : Kept s (writeOne host s .runFinished) := by
    revert hk
    generalize writeOne host s .runFinished = w
    obtain ⟨_ | _ | _, t⟩ := w <;> exact fun hk => ⟨hk.returns, hk.dropped⟩
  obtain ⟨e, hw, hs⟩ := writeOne_kept h hone
  rw [hw]
  exact ⟨rfl, hs.sunk, hs.sequence, hs.built, hs.lost, hs.taken⟩

/-- The end of a finished session writes nothing. -/
theorem close_sunk (h : s.lifecycle ≠ .active) : (close host s).2.sunk = s.sunk := by
  unfold close
  split_ifs with hclosed hactive
  · rfl
  · exact absurd hactive.1 h
  · unfold closeSink
    split_ifs
    · rfl
    · rfl

/-! ### Reading the stream back -/

section back
variable {rt : Runtime} {options : ValidateOptions}

/-- The payloads of a stream keep their roles. -/
theorem role_written (f : Text → Text) (p : Payload) : (redactPayload f p).normal.role = p.role := by
  cases p with
  | sessionStarted p =>
      obtain ⟨producer, runner, environment, executor, source, labels⟩ := p
      cases runner <;> rfl
  | _ => rfl

theorem stream_length (ps : List Payload) : (stream host ps).length = ps.length := by
  rw [stream, List.length_map, List.length_zipIdx]

theorem numbered_stream (ps : List Payload) :
    Numbered host.runId host.sessionId (stream host ps) (ps.map Payload.role) := by
  induction ps using List.reverseRecOn with
  | nil => exact numbered_nil
  | append_singleton ps p ih =>
      rw [stream_concat, List.map_append, List.map_singleton]
      refine numbered_concat.mpr ⟨ih, ?_, rfl, rfl, ?_⟩
      · exact AnyEvent.role?_eq_some.mpr ⟨_, rfl, role_written _ p⟩
      · rw [stream_length]
        rfl

theorem mem_stream {ps : List Payload} {e : AnyEvent} (h : e ∈ stream host ps) :
    ∃ n, ∃ p ∈ ps, e = .known (writtenEvent host n p) := by
  obtain ⟨⟨p, n⟩, hmem, rfl⟩ := List.mem_map.mp h
  exact ⟨n, p, (List.mem_zipIdx hmem).2.2 ▸ List.getElem_mem _, rfl⟩

theorem stream_ids (hids : Function.Injective host.ids) (ps : List Payload) :
    ((stream host ps).map (fun e => e.envelope.eventId)).Nodup := by
  have heq : (stream host ps).map (fun e => e.envelope.eventId) =
      (List.range ps.length).map host.ids := by
    rw [stream, List.map_map]
    have hfst : ps.zipIdx.map Prod.snd = List.range ps.length := by
      rw [List.zipIdx_map_snd, List.range_eq_range']
    rw [← hfst, List.map_map]
    rfl
  rw [heq]
  exact List.Nodup.map hids List.nodup_range

theorem Streamed.readBack (h : Streamed host s ps) (hsize : host.size = eventBytes)
    (hlimit : host.maxEventBytes ≤ eventLimit options)
    (hparse : ∀ e ∈ s.sunk, rt.parse (stringifyEvent e) = .ok (eventToObject e))
    (hvalidate : ∀ e ∈ s.sunk, rt.validate e.knownType (eventToObject e) = none) :
    ReadBack rt (eventLimit options) (stream host ps) := by
  rw [← h.sunk]
  intro e he
  obtain ⟨hbytes, hcodec⟩ := h.taken e he
  refine ⟨rfl, ⟨e, canonical (eventToObject e), stringifyEvent e⟩, ?_, rfl⟩
  have hfits : ¬ byteLength (stringifyEvent e) + 1 > eventLimit options := by
    rw [hsize, eventBytes] at hbytes
    omega
  rw [reading, readLine, if_neg hfits, hparse e he]
  dsimp only
  rw [hcodec]
  dsimp only
  rw [hvalidate e he]
  rfl

/-- A stream that the validator can read and whose roles keep to their guard is taken. -/
theorem stream_errorFree (file : Text) (h : Streamed host s ps) (hsize : host.size = eventBytes)
    (hlimit : host.maxEventBytes ≤ eventLimit options) (hids : Function.Injective host.ids)
    (hparse : ∀ e ∈ s.sunk, rt.parse (stringifyEvent e) = .ok (eventToObject e))
    (hvalidate : ∀ e ∈ s.sunk, rt.validate e.knownType (eventToObject e) = none)
    (hroles : GuardedLog.Admissible Role.RoleGuard (ps.map Payload.role)) :
    ErrorFree (feedAll rt options [⟨s.sunk.map stringifyEvent, file, true⟩]).diagnostics ∧
      runLog rt options [⟨s.sunk.map stringifyEvent, file, true⟩] = s.sunk := by
  have hread := h.readBack hsize hlimit hparse hvalidate
  rw [h.sunk]
  exact errorFree_of_roles (numbered_stream ps) hroles (stream_ids hids ps) hread

/-- A stream that is taken and ends its session leaves no attempt open. -/
theorem stream_finished (file : Text) (h : Streamed host s ps) (hsize : host.size = eventBytes)
    (hlimit : host.maxEventBytes ≤ eventLimit options) (hids : Function.Injective host.ids)
    (hparse : ∀ e ∈ s.sunk, rt.parse (stringifyEvent e) = .ok (eventToObject e))
    (hvalidate : ∀ e ∈ s.sunk, rt.validate e.knownType (eventToObject e) = none)
    (herrors : ErrorFree (feedAll rt options [⟨s.sunk.map stringifyEvent, file, true⟩]).diagnostics)
    (hend : .sessionFinished ∈ ps.map Payload.role) :
    ∀ a ∈ Role.attempts (ps.map Payload.role), a ∈ Role.finishedAttempts (ps.map Payload.role) := by
  have hnumbered : Numbered host.runId host.sessionId (stream host ps) (ps.map Payload.role) :=
    numbered_stream ps
  have hlog : runLog rt options [⟨(stream host ps).map stringifyEvent, file, true⟩] =
      stream host ps :=
    (runLog_readBack (stream_ids hids ps) (h.readBack hsize hlimit hparse hvalidate)).2
  have hlifecycle := ((feedAll_spec rt options _).1.mp herrors).2.2.1
  rw [h.sunk, hlog] at hlifecycle
  intro a ha
  rw [← hnumbered.attempts] at ha
  rw [← hnumbered.finishedAttempts]
  obtain ⟨x, hx, hstart⟩ := List.mem_filterMap.mp ha
  obtain ⟨y, hy, hrole⟩ := hnumbered.mem.mp hend
  obtain ⟨p, hp, hpr⟩ := AnyEvent.role?_eq_some.mp hrole
  refine session_closed hlifecycle x hx a hstart ?_
  rw [hnumbered.session x hx, ← hnumbered.session y hy]
  refine List.mem_filterMap.mpr ⟨y, hy, AnyEvent.endsSession_eq_some.mpr ⟨?_, rfl⟩⟩
  cases p with
  | sessionFinished q => exact ⟨q, hp⟩
  | _ => cases hpr

end back

end writing

end QeReport.Sdk

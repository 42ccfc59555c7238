import QeReport.Sdk.Twins
import QeReport.Sdk.Writing

/-! # A Java session that writes all it is handed

The session of the Java binding writes the lines that the TypeScript session writes for the same
payloads: the texts in its sink are those of `stream`, as long as the integers of the payloads and
the numbers of the events are safe in both languages. -/

namespace QeReport.Sdk.Java

/-- The events in the sink are those of the payloads, up to empty collections, and no outcome was
lost. -/
structure Streamed (host : Host) (s : ReportSession) (ps : List Payload) : Prop where
  events : s.sunk.map AnyEvent.normal = (stream host ps).map AnyEvent.normal
  sequence : s.sequence = ps.length
  built : s.built = ps.length
  lost : s.terminalOutcomeLost = false
  taken : ∀ e ∈ stream host ps,
    host.size e ≤ host.maxEventBytes ∧ eventFromObject (eventToObject e) = .ok e

variable {host : Host} {s : ReportSession} {ps : List Payload} {p : Payload}

theorem map_stringifyEvent_normal {l l' : Log}
    (h : l.map AnyEvent.normal = l'.map AnyEvent.normal) :
    l.map stringifyEvent = l'.map stringifyEvent := by
  have htexts := congrArg (List.map stringifyEvent) h
  rw [List.map_map, List.map_map] at htexts
  have hnormal : stringifyEvent ∘ AnyEvent.normal = stringifyEvent :=
    funext stringifyEvent_normal
  rwa [hnormal] at htexts

theorem eventToObject_of_normal {e e' : AnyEvent} (h : e.normal = e'.normal) :
    eventToObject e = eventToObject e' := by
  have hnormal : ∀ x : AnyEvent, eventToObject x.normal = eventToObject x := by
    intro x
    cases x with
    | known k => exact eventToObject_normal k
    | unknown u => rfl
  rw [← hnormal e, h, hnormal]

theorem knownType_of_normal {e e' : AnyEvent} (h : e.normal = e'.normal) :
    e.knownType = e'.knownType := by
  have hnormal : ∀ x : AnyEvent, x.normal.knownType = x.knownType := by
    intro x
    cases x with
    | known k => exact congrArg some (Payload.eventType_normal k.payload)
    | unknown u => rfl
  rw [← hnormal e, h, hnormal]

theorem Streamed.lines (h : Streamed host s ps) :
    s.sunk.map stringifyEvent = (stream host ps).map stringifyEvent :=
  map_stringifyEvent_normal h.events

/-- What holds of the events in the sink, up to empty collections, holds of the stream. -/
theorem Streamed.forall_stream (h : Streamed host s ps) {P : AnyEvent → Prop}
    (hP : ∀ e e' : AnyEvent, e.normal = e'.normal → P e → P e') (hs : ∀ e ∈ s.sunk, P e) :
    ∀ e ∈ stream host ps, P e := by
  intro e he
  have hmem : e.normal ∈ s.sunk.map AnyEvent.normal := by
    rw [h.events]
    exact List.mem_map_of_mem he
  obtain ⟨e', he', hnormal⟩ := List.mem_map.mp hmem
  exact hP e' e hnormal (hs e' he')

/-- A TypeScript session that holds these events is one that has written these payloads. -/
theorem Streamed.twin (h : Streamed host s ps) :
    Sdk.Streamed host { s with sunk := stream host ps } ps :=
  ⟨rfl, h.sequence, h.built, h.lost, h.taken⟩

theorem streamed_new : Streamed host .new [] :=
  ⟨rfl, rfl, rfl, rfl, fun _ he => absurd he List.not_mem_nil⟩

/-! ### Writing -/

/-- What the codec reads back of a payload is written as the event of the stream. -/
theorem redactEvent_stream (h : Streamed host s ps) (hplain : PlainPayload p)
    (hsafe : isSafe ((s.sequence + 1 : ℕ) : ℤ)) {e : AnyEvent}
    (he : redactEvent host.redactText (.known (candidate host s p)) = .ok e) :
    e.normal = AnyEvent.normal (.known (writtenEvent host ps.length p)) ∧
      eventFromObject (eventToObject (.known (writtenEvent host ps.length p))) =
        .ok (.known (writtenEvent host ps.length p)) := by
  have hagree : Agree (Sdk.redactEvent host.redactText (.known (candidate host s p)))
      (redactEvent host.redactText (.known (candidate host s p))) :=
    redactEvent_agree hplain hsafe rfl
  rw [he] at hagree
  cases hr : Sdk.redactEvent host.redactText (.known (candidate host s p)) with
  | error err =>
      rw [hr] at hagree
      cases hagree
  | ok e' =>
      rw [hr] at hagree
      have hback := redactEvent_written hr
      obtain ⟨-, -, rfl⟩ := redactEvent_eq_ok.mp hr
      have hwritten : (redacted host.redactText (candidate host s p)).normal =
          writtenEvent host ps.length p := by
        rw [← h.sequence, candidate, h.built, ← h.sequence]
        rfl
      rw [hwritten] at hback hagree
      refine ⟨?_, hback⟩
      cases e with
      | unknown u => cases hagree
      | known e =>
          obtain ⟨henvelope, hpayload⟩ := hagree
          unfold AnyEvent.normal
          dsimp only
          unfold Event.normal
          rw [← hpayload, henvelope]

/-- A write that drops nothing and returns was taken. -/
theorem write_kept (h : Streamed host s ps) (hsize : host.size = eventBytes)
    (hplain : PlainPayload p) (hsafe : isSafe ((s.sequence + 1 : ℕ) : ℤ)) {reportSize : Bool}
    (hk : Kept s (write host s p reportSize)) :
    ∃ bytes e, write host s p reportSize = (.ok ⟨.written, bytes⟩, s.build.took e) ∧
      Streamed host (s.build.took e) (ps ++ [p]) := by
  have hreturns := hk.returns
  have hdropped := hk.dropped
  revert hreturns hdropped
  unfold write
  cases hr : redactEvent host.redactText (.known (candidate host s p)) with
  | error err =>
      intro hreturns
      simp at hreturns
  | ok e =>
      dsimp only
      split_ifs with hlarge hreport hsink
      · intro _ hdropped
        simp [ReportSession.drop, ReportSession.problem, ReportSession.build] at hdropped
      · intro _ hdropped
        simp [ReportSession.drop, ReportSession.build] at hdropped
      · intro _ _
        obtain ⟨hnormal, hback⟩ := redactEvent_stream h hplain hsafe hr
        have htext : stringifyEvent e = stringifyEvent (.known (writtenEvent host ps.length p)) := by
          rw [← stringifyEvent_normal e, hnormal, stringifyEvent_normal]
        refine ⟨_, e, rfl, ?_, ?_, ?_, h.lost, ?_⟩
        · rw [stream_concat, List.map_append, ← h.events, List.map_singleton, ← hnormal]
          exact List.map_append
        · rw [List.length_append, List.length_singleton, ← h.sequence]
          rfl
        · rw [List.length_append, List.length_singleton, ← h.built]
          rfl
        · intro x hx
          rw [stream_concat] at hx
          rcases List.mem_append.mp hx with hx | hx
          · exact h.taken x hx
          · obtain rfl := List.mem_singleton.mp hx
            refine ⟨?_, hback⟩
            rw [hsize, eventBytes, ← htext]
            rw [hsize] at hlarge
            exact Nat.le_of_not_lt hlarge
      · intro _ hdropped
        simp [ReportSession.refused, ReportSession.drop, ReportSession.problem,
          ReportSession.build] at hdropped

theorem writeOne_kept (h : Streamed host s ps) (hsize : host.size = eventBytes)
    (hplain : PlainPayload p) (hsafe : isSafe ((s.sequence + 1 : ℕ) : ℤ))
    (hk : Kept s (writeOne host s p)) :
    ∃ e, writeOne host s p = (.ok true, s.build.took e) ∧
      Streamed host (s.build.took e) (ps ++ [p]) := by
  have hw : Kept s (write host s p true) := by
    obtain ⟨⟨answer, hanswer⟩, hdropped⟩ := hk
    unfold writeOne at hanswer hdropped
    cases hwrite : write host s p true with
    | mk a t =>
        rw [hwrite] at hanswer hdropped
        cases a with
        | error err => cases hanswer
        | ok attempt => exact ⟨⟨attempt, rfl⟩, hdropped⟩
  obtain ⟨bytes, e, heq, hs⟩ := write_kept h hsize hplain hsafe hw
  refine ⟨e, ?_, hs⟩
  rw [writeOne, heq]
  rfl

theorem acceptsSessionEvents_active (h : Streamed host s ps) (hactive : s.lifecycle = .active)
    (what : Text) : acceptsSessionEvents s what = (true, s) := by
  rw [acceptsSessionEvents, h.lost, if_neg Bool.false_ne_true, if_pos hactive]

theorem emit_ordinary (hordinary : isOrdinary p = true) :
    emit host s p =
      match acceptsSessionEvents s (txt "event " ++ p.eventType.text) with
      | (false, s) => (.ok false, s)
      | (true, s) => writeOne host s p := by
  cases p with
  | sessionFinished p => cases hordinary
  | runFinished => cases hordinary
  | _ => rfl

theorem emit_kept (h : Streamed host s ps) (hactive : s.lifecycle = .active)
    (hsize : host.size = eventBytes) (hordinary : isOrdinary p = true) (hplain : PlainPayload p)
    (hsafe : isSafe ((s.sequence + 1 : ℕ) : ℤ)) (hk : Kept s (emit host s p)) :
    (emit host s p).1 = .ok true ∧ (emit host s p).2.lifecycle = .active ∧
      Streamed host (emit host s p).2 (ps ++ [p]) := by
  have heq : emit host s p = writeOne host s p := by
    rw [emit_ordinary hordinary, acceptsSessionEvents_active h hactive]
  rw [heq] at hk ⊢
  obtain ⟨e, hw, hs⟩ := writeOne_kept h hsize hplain hsafe hk
  rw [hw]
  exact ⟨rfl, hactive, hs⟩

/-! ### Calls -/

/-- The size of a stored attachment is the only number of its event. -/
theorem plain_attachment (input : AttachmentInput) {stored : StoredAttachment}
    (hsafe : isSafe stored.sizeBytes) : PlainPayload (attachmentPayload input stored) := by
  have hint := (isPlainSafe_ofInt _).mpr hsafe
  unfold PlainPayload attachmentPayload
  cases hstep : input.stepId <;>
    simp [writePayload, omitUndefined, writeText, writeInt, allNumbersMembers, allNumbers, hint]

theorem Streamed.stored (h : Streamed host s ps) (n : ℕ) : Streamed host { s with stored := n } ps :=
  ⟨h.events, h.sequence, h.built, h.lost, h.taken⟩

theorem storeFailed_streamed (h : Streamed host s ps) (input : AttachmentInput) (e : StoreFailure) :
    Streamed host (storeFailed s input e) ps ∧
      (storeFailed s input e).lifecycle = s.lifecycle := by
  cases e with
  | tooLarge => exact ⟨⟨h.events, h.sequence, h.built, h.lost, h.taken⟩, rfl⟩
  | other => exact ⟨⟨h.events, h.sequence, h.built, h.lost, h.taken⟩, rfl⟩

/-- The sizes the sink answers with are safe. -/
def SafeSizes (host : Host) : Prop :=
  ∀ n content stored, host.storeAttachment n content = .ok stored → isSafe stored.sizeBytes

theorem attach_kept (h : Streamed host s ps) (hactive : s.lifecycle = .active)
    (hsize : host.size = eventBytes) (hstored : SafeSizes host)
    (hsafe : isSafe ((s.sequence + 1 : ℕ) : ℤ)) {input : AttachmentInput} {bytes : List ℕ}
    (hk : Kept s (attach host s input bytes)) :
    (attach host s input bytes).2.lifecycle = .active ∧
      (Streamed host (attach host s input bytes).2 ps ∨
        ∃ stored n content, host.storeAttachment n content = .ok stored ∧
          Streamed host (attach host s input bytes).2 (ps ++ [attachmentPayload input stored])) := by
  revert hk
  unfold attach
  rw [acceptsSessionEvents_active h hactive]
  dsimp only
  intro hk
  cases hstore : host.storeAttachment s.stored (contentOf host input bytes) with
  | error e =>
      obtain ⟨hs, hlifecycle⟩ := storeFailed_streamed (h.stored (s.stored + 1)) input e
      exact ⟨hlifecycle.trans hactive, .inl hs⟩
  | ok stored =>
      rw [hstore] at hk
      dsimp only at hk ⊢
      have hkept : Kept { s with stored := s.stored + 1 }
          (emit host { s with stored := s.stored + 1 } (attachmentPayload input stored)) :=
        ⟨hk.returns, hk.dropped⟩
      obtain ⟨-, hlifecycle, hs⟩ := emit_kept (h.stored (s.stored + 1)) hactive hsize rfl
        (plain_attachment input (hstored _ _ _ hstore)) hsafe hkept
      exact ⟨hlifecycle, .inr ⟨stored, _, _, hstore, hs⟩⟩

/-- A call that hands on an event or an attachment of safe numbers. -/
def IsPlain : Call → Prop
  | .emit p => isOrdinary p = true ∧ PlainPayload p
  | .attach _ _ => True
  | _ => False

/-- A written call hands on its payloads. -/
theorem call_yields (h : Streamed host s ps) (hactive : s.lifecycle = .active)
    (hsize : host.size = eventBytes) (hstored : SafeSizes host)
    (hsafe : isSafe ((s.sequence + 1 : ℕ) : ℤ)) {c : Call} (hc : IsPlain c)
    (hk : Kept s (call host s c)) :
    (call host s c).2.lifecycle = .active ∧
      ∃ qs, Yields host (.call c) qs ∧ Streamed host (call host s c).2 (ps ++ qs) := by
  cases c with
  | emit p =>
      obtain ⟨-, hlifecycle, hs⟩ := emit_kept h hactive hsize hc.1 hc.2 hsafe hk
      exact ⟨hlifecycle, [p], .emit hc.1, hs⟩
  | attach input bytes =>
      obtain ⟨hlifecycle, hs | ⟨stored, n, content, hstore, hs⟩⟩ :=
        attach_kept h hactive hsize hstored hsafe hk
      · exact ⟨hlifecycle, [], .notAttached, by rwa [List.append_nil]⟩
      · exact ⟨hlifecycle, _, .attached hstore, hs⟩
  | finish outcome => cases hc
  | finishRun => cases hc
  | close => cases hc

/-- Every call of the list is written. -/
def WritesAll (host : Host) : ReportSession → List Call → Prop
  | _, [] => True
  | s, c :: cs => Kept s (call host s c) ∧ WritesAll host (call host s c).2 cs

instance decidableWritesAll (host : Host) : (s : ReportSession) → (cs : List Call) →
    Decidable (WritesAll host s cs)
  | _, [] => .isTrue trivial
  | s, c :: cs => @instDecidableAnd _ _ (decidableKept s (call host s c))
      (decidableWritesAll host (call host s c).2 cs)

/-- A request hands on one payload at most. -/
theorem yields_length {r : Request} (h : Yields host r ps) : ps.length ≤ 1 := by
  cases h with
  | emit _ => exact le_rfl
  | attached _ => exact le_rfl
  | attachedFile _ => exact le_rfl
  | notAttached => exact Nat.zero_le 1
  | notAttachedFile => exact Nat.zero_le 1

theorem yieldsAll_length {rs : List Request} (h : YieldsAll host rs ps) : ps.length ≤ rs.length := by
  induction h with
  | nil => exact le_rfl
  | cons hr _ ih =>
      rw [List.length_append, List.length_cons]
      have hone := yields_length hr
      omega

/-- A session that writes its calls holds what they hand on. -/
theorem run_yields {cs : List Call} (h : Streamed host s ps) (hactive : s.lifecycle = .active)
    (hsize : host.size = eventBytes) (hstored : SafeSizes host)
    (hsafe : isSafe ((ps.length + cs.length : ℕ) : ℤ)) (hcs : ∀ c ∈ cs, IsPlain c)
    (hw : WritesAll host s cs) :
    (run host s cs).lifecycle = .active ∧
      ∃ qs, YieldsAll host (cs.map Request.call) qs ∧ Streamed host (run host s cs) (ps ++ qs) := by
  induction cs generalizing s ps with
  | nil => exact ⟨hactive, [], .nil, by rwa [List.append_nil]⟩
  | cons c cs ih =>
      have hone : isSafe ((s.sequence + 1 : ℕ) : ℤ) := by
        rw [h.sequence]
        rw [List.length_cons] at hsafe
        unfold isSafe at hsafe ⊢
        omega
      obtain ⟨hlifecycle, qs, hqs, hs⟩ :=
        call_yields h hactive hsize hstored hone (hcs c List.mem_cons_self) hw.1
      have hlength := yields_length hqs
      have hrest : isSafe (((ps ++ qs).length + cs.length : ℕ) : ℤ) := by
        rw [List.length_append]
        rw [List.length_cons] at hsafe
        unfold isSafe at hsafe ⊢
        omega
      obtain ⟨hfinal, qs', hqs', hs'⟩ :=
        ih hs hlifecycle hrest (fun c hc => hcs c (List.mem_cons_of_mem _ hc)) hw.2
      exact ⟨hfinal, qs ++ qs', .cons hqs hqs', by rwa [List.append_assoc] at hs'⟩

/-! ### The end -/

/-- Closing an active session writes its end without an outcome. -/
theorem close_kept (h : Streamed host s ps) (hactive : s.lifecycle = .active)
    (hsize : host.size = eventBytes) (hsafe : isSafe ((s.sequence + 1 : ℕ) : ℤ))
    (hk : Kept s (close host s)) :
    ∃ t, Streamed host t (ps ++ [.sessionFinished emptyOutcome]) ∧ (close host s).2.sunk = t.sunk := by
  have hplain : PlainPayload (.sessionFinished emptyOutcome) := rfl
  have hclose : ∀ r t, finish host s emptyOutcome = (.ok r, t) →
      close host s = (.ok true, closeSink host t) := by
    intro r t hfinish
    unfold close
    refine (if_neg (by rw [hactive]; decide)).trans ((if_pos ⟨hactive, h.lost⟩).trans ?_)
    rw [hfinish]
  have hcloseError : ∀ e t, finish host s emptyOutcome = (.error e, t) →
      close host s = (.error e, t) := by
    intro e t hfinish
    unfold close
    refine (if_neg (by rw [hactive]; decide)).trans ((if_pos ⟨hactive, h.lost⟩).trans ?_)
    rw [hfinish]
  have hfinish : ∀ r t, writeOne host s (.sessionFinished emptyOutcome) = (r, t) →
      finish host s emptyOutcome =
        (r, if r.toOption = some true then t.enter .sessionFinished else t) := by
    intro r t hw
    have hstatus : emptyOutcome.status = none := rfl
    rw [finish, acceptsSessionEvents_active h hactive]
    dsimp only
    rw [hstatus]
    dsimp only
    rw [hw]
    obtain _ | _ | _ := r
    · rfl
    · rfl
    · rfl
  have hsink : ∀ t : ReportSession, (closeSink host t).dropped = t.dropped ∧
      (closeSink host t).sunk = t.sunk := by
    intro t
    unfold closeSink
    split_ifs <;> exact ⟨rfl, rfl⟩
  have hone : Kept s (writeOne host s (.sessionFinished emptyOutcome)) := by
    cases hw : writeOne host s (.sessionFinished emptyOutcome) with
    | mk r t =>
        have hfinished := hfinish r t hw
        obtain _ | _ | _ := r
        · rw [hcloseError _ _ hfinished] at hk
          exact absurd hk.returns (by simp)
        · rw [hclose _ _ hfinished] at hk
          exact ⟨⟨_, rfl⟩, (hsink t).1.symm.trans hk.dropped⟩
        · rw [hclose _ _ hfinished] at hk
          exact ⟨⟨_, rfl⟩, (hsink (t.enter .sessionFinished)).1.symm.trans hk.dropped⟩
  obtain ⟨e, hw, hs⟩ := writeOne_kept h hsize hplain hsafe hone
  rw [hclose _ _ (hfinish _ _ hw)]
  exact ⟨_, hs, (hsink _).2⟩

end QeReport.Sdk.Java

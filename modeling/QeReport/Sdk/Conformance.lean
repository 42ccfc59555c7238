import QeReport.Protocol.EventSchema
import QeReport.ReadModel.DateTime
import QeReport.Sdk.Graceful
import QeReport.Validator.Duplicates
import QeReport.Validator.Finish
import QeReport.Validator.Lines

/-! # What a session writes is a session file

The events the sink took, as lines, are read by a validator as the file of one session: it starts
with `session.started`, its sequence has no gap, nothing but `run.finished` follows
`session.finished` and nothing follows `run.finished`.  `Mirrors` relates the state of the
session to the bookkeeping of the validator after these lines; each write keeps it
(`Mirrors.wrote`), so every run of calls does (`InStep.run`).

The session does not see to it by itself that `session.started` is written, that there is no second
one and that its events meet the schema: `Sound` is what a call has to meet. -/

namespace QeReport.Sdk

/-- The details of a broken stream. -/
def streamDetails : List LifecycleDetail :=
  [.sessionNotStarted, .sessionAlreadyStarted, .sequenceGap, .sessionAlreadyFinished,
    .eventAfterRunFinished, .duplicateRunFinished]

/-- The diagnostic says that the stream of the session is broken. -/
def breaksStream (d : Diagnostic) : Bool := d.detail.any (fun detail => detail ∈ streamDetails)

/-- No diagnostic says that the stream is broken. -/
def StreamKept (ds : List Diagnostic) : Prop := ∀ d ∈ ds, breaksStream d = false

instance (ds : List Diagnostic) : Decidable (StreamKept ds) := List.decidableBAll ..

theorem streamKept_nil : StreamKept [] := by simp [StreamKept]

theorem streamKept_cons {d : Diagnostic} {ds : List Diagnostic} :
    StreamKept (d :: ds) ↔ breaksStream d = false ∧ StreamKept ds := List.forall_mem_cons

theorem streamKept_append {ds es : List Diagnostic} :
    StreamKept (ds ++ es) ↔ StreamKept ds ∧ StreamKept es := List.forall_mem_append

theorem streamKept_check {d : Diagnostic} (condition : Bool) (h : breaksStream d = false) :
    StreamKept (check condition d) := by
  intro d' hd'
  unfold check at hd'
  split_ifs at hd'
  · rw [List.mem_singleton.mp hd']
    exact h
  · cases hd'

theorem streamKept_flatMap {α : Type} {l : List α} {f : α → List Diagnostic}
    (h : ∀ a, StreamKept (f a)) : StreamKept (l.flatMap f) := by
  intro d hd
  obtain ⟨a, -, ha⟩ := List.mem_flatMap.mp hd
  exact h a d ha

/-! ### What the event switch reports -/

section handlers
variable {at_ : Place} {e : Event} {session : QeReport.SessionState} {b : Books}

theorem checkExecution_kept (p : AttemptStartedPayload) :
    StreamKept (checkExecution at_ p session b).1 := by
  unfold checkExecution
  dsimp only
  split
  · exact streamKept_nil
  · refine streamKept_append.mpr ⟨streamKept_append.mpr ⟨?_, streamKept_check _ rfl⟩,
      streamKept_check _ rfl⟩
    split
    · exact streamKept_cons.mpr ⟨rfl, streamKept_nil⟩
    · exact streamKept_nil

theorem attemptStarted_kept (p : AttemptStartedPayload) :
    StreamKept (attemptStarted at_ e.toEnvelope session p b).1 := by
  unfold attemptStarted
  dsimp only
  split_ifs
  · exact streamKept_append.mpr ⟨streamKept_check _ rfl, streamKept_cons.mpr ⟨rfl, streamKept_nil⟩⟩
  · exact streamKept_append.mpr ⟨streamKept_check _ rfl, checkExecution_kept p⟩

/-- Only a second `run.finished` breaks the stream in the switch. -/
theorem handle_kept (h : b.runFinished = none) : StreamKept (handle at_ e session b).1 := by
  have hone : ∀ {d : Diagnostic}, breaksStream d = false → StreamKept [d] :=
    fun hd => streamKept_cons.mpr ⟨hd, streamKept_nil⟩
  unfold handle
  split
  · exact streamKept_nil
  · exact streamKept_flatMap (fun _ => streamKept_check _ rfl)
  · unfold runFinished
    rw [h]
    exact streamKept_nil
  · exact attemptStarted_kept _
  · unfold attemptFinished
    split
    · exact hone rfl
    · split_ifs
      · exact hone rfl
      all_goals exact streamKept_flatMap (fun _ => streamKept_check _ rfl)
  · unfold stepStarted
    dsimp only
    split
    · exact hone rfl
    · split_ifs
      · exact hone rfl
      · refine streamKept_append.mpr ⟨streamKept_check _ rfl, ?_⟩
        split
        · exact streamKept_nil
        · exact streamKept_check _ rfl
  · unfold stepFinished
    dsimp only
    split
    · exact hone rfl
    · split
      · exact hone rfl
      · exact hone rfl
      · exact streamKept_nil
  · unfold attachmentAdded
    dsimp only
    split
    · exact hone rfl
    · split_ifs
      · exact hone rfl
      · split
        · exact streamKept_nil
        · exact streamKept_check _ rfl
  · exact streamKept_nil

end handlers

/-! ### Taking one line -/

section taking
variable {rt : Runtime} {options : ValidateOptions} {file : Text} {b : Books} {here : Here}
  {session : QeReport.SessionState} {e : Event} {key raw : Text}

/-- An event was taken into its session: nothing broke the stream, and the bookkeeping moved on. -/
structure TakenIn (e : Event) (session : QeReport.SessionState) (b : Books) (here : Here)
    (out : Outcome) : Prop where
  kept : StreamKept out.diagnostics
  seen : out.books.seen = b.seen
  session : ∃ finished, out.books.sessions.get? e.sessionId =
    some { session with lastSequence := e.sequence, finished := finished } ∧
      (session.finished = false → e.payload.eventType ≠ .sessionFinished → finished = false)
  runFinished : e.payload ≠ .runFinished → out.books.runFinished = none
  here : out.here = { here with closedHere := here.closedHere || e.payload == .runFinished }

theorem inSession_taken (hsequence : e.sequence = session.lastSequence + 1)
    (hfinished : session.finished = true → e.payload = .runFinished) (hrun : b.runFinished = none) :
    TakenIn e session b here (inSession rt options file ⟨.known e, key, raw⟩ session b here) := by
  have hgap : (decide (e.sequence ≠ session.lastSequence + 1)) = false := by simp [hsequence]
  have hopen : ((session.advance e.sequence).finished &&
      decide ((AnyEvent.known e).knownType ≠ some .runFinished)) = false := by
    cases hf : session.finished with
    | false => simp [QeReport.SessionState.advance, hf]
    | true => simp [AnyEvent.knownType, hfinished hf, Payload.eventType]
  unfold inSession
  dsimp only [AnyEvent.envelope]
  rw [hgap, hopen, if_neg Bool.false_ne_true]
  unfold acceptEvent
  dsimp only
  generalize hb' : archive rt options file ⟨.known e, key, raw⟩ here.line .accepted
    (if options.retainEvents = true then
      { b.putSession e.sessionId (session.advance e.sequence) with
        accepted := (b.putSession e.sessionId (session.advance e.sequence)).accepted ++ [e] }
    else b.putSession e.sessionId (session.advance e.sequence)) = b'
  have hfacts : b'.seen = b.seen ∧ b'.runFinished = b.runFinished ∧
      b'.sessions = b.sessions.set e.sessionId (session.advance e.sequence) := by
    rw [← hb']
    unfold archive
    split_ifs <;> exact ⟨rfl, rfl, rfl⟩
  have hget : b'.sessions.get? e.sessionId = some (session.advance e.sequence) := by
    rw [hfacts.2.2, JsMap.get?_set, if_pos rfl]
  obtain ⟨hseen, hend⟩ := handle_frame ⟨file, here.line, e.eventId⟩ e (session.advance e.sequence) b'
  refine ⟨?_, hseen.trans hfacts.1, ?_, fun h => (hend h).trans (hfacts.2.1.trans hrun), rfl⟩
  · exact streamKept_append.mpr ⟨streamKept_nil, handle_kept (hfacts.2.1.trans hrun)⟩
  · obtain ⟨hsessions, -⟩ := handle_sessions ⟨file, here.line, e.eventId⟩ hget
    refine ⟨_, (hsessions e.sessionId).trans (if_pos rfl), ?_⟩
    intro hf hp
    have hends : (AnyEvent.known e).endsSession = none := by
      cases hends : (AnyEvent.known e).endsSession with
      | none => rfl
      | some t =>
          obtain ⟨⟨p, hp'⟩, -⟩ := AnyEvent.endsSession_eq_some.mp hends
          have : e.payload = .sessionFinished p := by simpa [AnyEvent.payload?] using hp'
          exact absurd (congrArg Payload.eventType this) hp
    change (session.finished || (AnyEvent.known e).endsSession.isSome) = false
    rw [hf, hends]
    rfl

/-- The event is the next one of its session, which is finished or not. -/
def Expects (b : Books) (e : Event) (finished : Bool) : Prop :=
  (b.sessions.get? e.sessionId = none ∧ e.payload.eventType = .sessionStarted ∧ e.sequence = 1 ∧
    finished = false) ∨
  ∃ session, b.sessions.get? e.sessionId = some session ∧
    e.payload.eventType ≠ .sessionStarted ∧ e.sequence = session.lastSequence + 1 ∧
    session.finished = finished

/-- An event was taken from its line. -/
structure TakenLine (e : Event) (finished : Bool) (b : Books) (here : Here) (out : Outcome) :
    Prop where
  kept : StreamKept out.diagnostics
  seen : ∀ id, out.books.seen.get? id ≠ none → b.seen.get? id ≠ none ∨ id = e.eventId
  session : ∃ session, out.books.sessions.get? e.sessionId = some session ∧
    session.lastSequence = e.sequence ∧
    (finished = false → e.payload.eventType ≠ .sessionFinished → session.finished = false)
  unfinished : e.payload ≠ .runFinished →
    out.books.runFinished = none ∧ out.here.closedHere = false
  going : out.here.abandoned = here.abandoned
  file : ∀ id, out.here.fileSession = some id → id = e.sessionId

theorem withSession_taken {finished : Bool} (hexpects : Expects b e finished)
    (hfinished : finished = true → e.payload = .runFinished) (hrun : b.runFinished = none) :
    ∃ session b', b'.seen = b.seen ∧ session.finished = finished ∧
      TakenIn e session b' here
        (withSession rt options file true ⟨.known e, key, raw⟩ b here) := by
  rcases hexpects with ⟨hnone, htype, hsequence, hopen⟩ | ⟨session, hsome, htype, hsequence, hopen⟩
  · let session : QeReport.SessionState := ⟨false, 0, runnerNameOf (.known e), false⟩
    refine ⟨session, b.putSession e.sessionId session, rfl, hopen.symm, ?_⟩
    unfold withSession
    dsimp only [AnyEvent.envelope]
    rw [hnone]
    dsimp only
    rw [if_pos (show (AnyEvent.known e).knownType = _ from congrArg some htype)]
    exact inSession_taken hsequence (fun h => by cases h) hrun
  · refine ⟨session, b, rfl, hopen, ?_⟩
    unfold withSession
    dsimp only [AnyEvent.envelope]
    rw [hsome]
    dsimp only
    rw [if_neg (show ¬ (AnyEvent.known e).knownType = _ from fun h => htype (Option.some.inj h))]
    exact inSession_taken hsequence (fun h => hfinished (hopen.symm.trans h)) hrun

theorem freshEvent_taken {finished : Bool} (hexpects : Expects b e finished)
    (hfinished : finished = true → e.payload = .runFinished) (hrun : b.runFinished = none)
    (hclosed : here.closedHere = false) (hfile : ∀ id, here.fileSession = some id → id = e.sessionId) :
    TakenLine e finished b here
      (freshEvent rt options file true ⟨.known e, key, raw⟩ b here) := by
  have hmixed : mixedWith true e.toEnvelope here = none := by
    unfold mixedWith
    cases hs : here.fileSession with
    | none => rfl
    | some id => simp [hfile id hs]
  have henter : (enterFile true e.toEnvelope here).abandoned = here.abandoned ∧
      (enterFile true e.toEnvelope here).closedHere = here.closedHere ∧
      ∀ id, (enterFile true e.toEnvelope here).fileSession = some id → id = e.sessionId := by
    unfold enterFile
    split_ifs
    · exact ⟨rfl, rfl, fun id h => (Option.some.inj h).symm⟩
    · exact ⟨rfl, rfl, hfile⟩
  generalize hn : noteRunId ⟨file, here.line, e.eventId⟩ e.toEnvelope
    (noteEvent ⟨.known e, key, raw⟩ b) = n
  have hnote : StreamKept n.1 ∧ n.2.seen = b.seen.set e.eventId key ∧
      n.2.sessions = b.sessions ∧ n.2.runFinished = b.runFinished := by
    rw [← hn]
    unfold noteRunId
    split
    · exact ⟨streamKept_nil, rfl, rfl, rfl⟩
    · exact ⟨streamKept_check _ rfl, rfl, rfl, rfl⟩
  have hexpects' : Expects n.2 e finished := by
    unfold Expects
    rw [hnote.2.2.1]
    exact hexpects
  obtain ⟨session, b', hseen, hopen, htaken⟩ : ∃ session b', b'.seen = n.2.seen ∧
      session.finished = finished ∧ TakenIn e session b' (enterFile true e.toEnvelope here)
        (withSession rt options file true ⟨.known e, key, raw⟩ n.2
          (enterFile true e.toEnvelope here)) :=
    withSession_taken hexpects' hfinished (hnote.2.2.2.trans hrun)
  unfold freshEvent
  dsimp only [AnyEvent.envelope]
  rw [hn, hmixed, hclosed]
  dsimp only
  refine ⟨?_, ?_, ?_, ?_, ?_, ?_⟩
  · exact streamKept_append.mpr
      ⟨streamKept_append.mpr ⟨hnote.1, streamKept_nil⟩, htaken.kept⟩
  · intro id hid
    dsimp only at hid
    rw [htaken.seen, hseen, hnote.2.1, JsMap.get?_set] at hid
    split_ifs at hid with h
    · exact .inr h
    · exact .inl hid
  · obtain ⟨done, hget, hdone⟩ := htaken.session
    exact ⟨_, hget, rfl, fun hf hp => hdone (hopen.trans hf) hp⟩
  · intro hp
    refine ⟨htaken.runFinished hp, ?_⟩
    have hlast : (e.payload == .runFinished) = false := by simpa using hp
    dsimp only
    rw [htaken.here, hlast]
    exact Bool.or_eq_false_iff.mpr ⟨henter.2.1.trans hclosed, rfl⟩
  · dsimp only
    rw [htaken.here]
    exact henter.1
  · intro id hid
    dsimp only at hid
    rw [htaken.here] at hid
    exact henter.2.2 id hid

theorem eq_runFinished {p : Payload} (h : p.eventType = .runFinished) : p = .runFinished := by
  cases p with
  | runFinished => rfl
  | _ => cases h

/-- The line of an event that was written is read back as this event. -/
theorem feedLine_written {finished : Bool} {e : Event} (file : Text)
    (hsize : eventBytes (.known e) ≤ eventLimit options)
    (hparse : rt.parse (stringifyEvent (.known e)) = .ok (eventToObject (.known e)))
    (hcodec : eventFromObject (eventToObject (.known e)) = .ok (.known e))
    (hschema : rt.validate (some e.payload.eventType) (eventToObject (.known e)) = none)
    (hgoing : here.abandoned = false) (hfresh : b.seen.get? e.eventId = none)
    (hexpects : Expects b e finished) (hfinished : finished = true → e.payload = .runFinished)
    (hrun : b.runFinished = none) (hclosed : here.closedHere = false)
    (hfile : ∀ id, here.fileSession = some id → id = e.sessionId) :
    TakenLine e finished b { here with line := here.line + 1 }
      (feedLine rt options file true (stringifyEvent (.known e)) b here) := by
  have hblank : blank (stringifyEvent (.known e)) = false := rfl
  have hread : readLine rt (eventLimit options) file (here.line + 1) (stringifyEvent (.known e)) =
      .ok ⟨.known e, canonical (eventToObject (.known e)), stringifyEvent (.known e)⟩ := by
    have hfits : ¬ byteLength (stringifyEvent (.known e)) + 1 > eventLimit options :=
      Nat.not_lt.mpr hsize
    unfold readLine
    rw [if_neg hfits, hparse]
    dsimp only
    rw [hcodec]
    dsimp only [AnyEvent.knownType]
    rw [hschema]
  unfold feedLine
  dsimp only
  rw [hgoing, hblank, Bool.or_self, if_neg Bool.false_ne_true, hread]
  dsimp only
  unfold feedReading
  dsimp only [AnyEvent.envelope]
  rw [hfresh]
  exact freshEvent_taken hexpects hfinished hrun hclosed hfile

end taking

/-! ### The session and its validator -/

section mirror
variable (host : Host)

/-- The bookkeeping of a validator that has read the events of the session so far. -/
structure Mirrors (s : ReportSession) (b : Books) (here : Here) : Prop where
  going : here.abandoned = false
  file : ∀ id, here.fileSession = some id → id = host.sessionId
  seen : ∀ id, b.seen.get? id ≠ none → ∃ n < s.built, host.ids n = id
  unstarted : s.sunk = [] → b.sessions.get? host.sessionId = none ∧ s.sequence = 0
  started : s.sunk ≠ [] → ∃ session, b.sessions.get? host.sessionId = some session ∧
    session.lastSequence = s.sequence ∧ (s.lifecycle = .active → session.finished = false)
  unfinished : s.lifecycle = .active ∨ s.lifecycle = .sessionFinished →
    b.runFinished = none ∧ here.closedHere = false

/-- The sink takes the event built for this payload in this state. -/
structure Accepted (s : ReportSession) (payload : Payload) (e : AnyEvent) : Prop where
  redacted : redactEvent host.redactText (.known (candidate host s payload)) = .ok e
  size : host.size e ≤ host.maxEventBytes
  sink : host.write s.tried = true

/-- What a call has to meet: it does not write a second `session.started`, and the schema accepts
every event the call hands over in this state, as it is written. -/
structure Sound (rt : Runtime) (s : ReportSession) (c : Call) : Prop where
  restart : ∀ payload e, c = .emit (.sessionStarted payload) → s.lifecycle = .active →
    s.terminalOutcomeLost = false → ¬ Accepted host s (.sessionStarted payload) e
  schema : ∀ x ∈ handed host s (.call c), ∀ e, x.WrittenAs host e →
    rt.validate (some x.payload.eventType) (eventToObject e) = none

variable {host} {s s' : ReportSession} {b : Books} {here : Here} {rt : Runtime}
  {options : ValidateOptions} {file : Text}

theorem Mirrors.still (h : Mirrors host s b here) (hsunk : s'.sunk = s.sunk)
    (hsequence : s'.sequence = s.sequence) (hbuilt : s.built ≤ s'.built)
    (hactive : s'.lifecycle = .active → s.lifecycle = .active)
    (hopen : s'.lifecycle = .active ∨ s'.lifecycle = .sessionFinished →
      s.lifecycle = .active ∨ s.lifecycle = .sessionFinished) : Mirrors host s' b here := by
  refine ⟨h.going, h.file, ?_, ?_, ?_, fun hs => h.unfinished (hopen hs)⟩
  · intro id hid
    obtain ⟨n, hn, heq⟩ := h.seen id hid
    exact ⟨n, hn.trans_le hbuilt, heq⟩
  · rw [hsunk, hsequence]
    exact h.unstarted
  · rw [hsunk, hsequence]
    intro hs
    obtain ⟨session, hget, hlast, hfinished⟩ := h.started hs
    exact ⟨session, hget, hlast, fun ha => hfinished (hactive ha)⟩

/-- A write keeps the validator in step. -/
theorem Mirrors.wrote {payload : Payload} {e : AnyEvent} (file : Text) (h : Mirrors host s b here)
    (hw : Wrote host payload s s' e) (hsize : host.size = eventBytes)
    (hlimit : host.maxEventBytes ≤ eventLimit options)
    (hparse : rt.parse (stringifyEvent e) = .ok (eventToObject e))
    (hstart : payload.eventType = .sessionStarted ↔ s.sunk = [])
    (hschema : rt.validate (some payload.eventType) (eventToObject e) = none)
    (hopen : s.lifecycle = .active ∨
      s.lifecycle = .sessionFinished ∧ payload.eventType = .runFinished)
    (hactive : s'.lifecycle = .active → s.lifecycle = .active ∧
      payload.eventType ≠ .sessionFinished)
    (hlast : s'.lifecycle = .active ∨ s'.lifecycle = .sessionFinished →
      payload.eventType ≠ .runFinished) :
    StreamKept (feedLine rt options file true (stringifyEvent e) b here).diagnostics ∧
      Mirrors host s' (feedLine rt options file true (stringifyEvent e) b here).books
        (feedLine rt options file true (stringifyEvent e) b here).here := by
  obtain ⟨-, -, he⟩ := redactEvent_eq_ok.mp hw.redacted
  have hcodec := redactEvent_written hw.redacted
  have hbytes : eventBytes e ≤ eventLimit options := by
    rw [← hsize]
    exact hw.size.trans hlimit
  obtain ⟨ev, rfl, hid, hsession, hsequence, htype⟩ : ∃ ev : Event, e = .known ev ∧
      ev.eventId = host.ids s.built ∧ ev.sessionId = host.sessionId ∧
      ev.sequence = s.sequence + 1 ∧ ev.payload.eventType = payload.eventType :=
    ⟨_, he, rfl, rfl, rfl, (Payload.eventType_normal _).trans (redactPayload_eventType _ _)⟩
  have hfresh : b.seen.get? ev.eventId = none := by
    by_contra hseen
    obtain ⟨n, hn, heq⟩ := h.seen _ hseen
    rw [hid] at heq
    exact absurd (host.ids_injective heq) hn.ne
  obtain ⟨hrun, hclosed⟩ := h.unfinished (hopen.imp_right And.left)
  obtain ⟨finished, hexpects, hfinished, hstill⟩ : ∃ finished, Expects b ev finished ∧
      (finished = true → ev.payload = .runFinished) ∧
      (s.lifecycle = .active → finished = false) := by
    by_cases hs : s.sunk = []
    · obtain ⟨hnone, hzero⟩ := h.unstarted hs
      refine ⟨false, .inl ⟨by rw [hsession, hnone], htype.trans (hstart.mpr hs), ?_, rfl⟩,
        Bool.noConfusion, fun _ => rfl⟩
      rw [hsequence, hzero]
    · obtain ⟨session, hget, hlastSequence, hdone⟩ := h.started hs
      refine ⟨session.finished, .inr ⟨session, by rw [hsession, hget], ?_, ?_, rfl⟩, ?_, hdone⟩
      · rw [htype]
        exact fun ht => hs (hstart.mp ht)
      · rw [hsequence, hlastSequence]
      · intro hf
        rcases hopen with ha | ⟨-, ht⟩
        · rw [hdone ha] at hf
          cases hf
        · exact eq_runFinished (htype.trans ht)
  have htaken := feedLine_written file hbytes hparse hcodec (htype ▸ hschema) h.going
    hfresh hexpects hfinished hrun hclosed (fun id hi => (h.file id hi).trans hsession.symm)
  refine ⟨htaken.kept, htaken.going.trans h.going, ?_, ?_, ?_, ?_, ?_⟩
  · exact fun id hi => (htaken.file id hi).trans hsession
  · intro id hi
    rcases htaken.seen id hi with hold | rfl
    · obtain ⟨n, hn, heq⟩ := h.seen id hold
      exact ⟨n, hw.built ▸ Nat.lt_succ_of_lt hn, heq⟩
    · exact ⟨s.built, hw.built ▸ Nat.lt_succ_self _, hid.symm⟩
  · intro hs
    rw [hw.sunk] at hs
    simp at hs
  · intro _
    obtain ⟨session, hget, hlastSequence, hdone⟩ := htaken.session
    refine ⟨session, by rw [← hsession, hget], by rw [hlastSequence, hsequence, hw.sequence], ?_⟩
    intro ha
    obtain ⟨hwas, hp⟩ := hactive ha
    exact hdone (hstill hwas) (htype ▸ hp)
  · intro hs
    refine htaken.unfinished (fun hp => hlast hs ?_)
    rw [← htype, hp]
    rfl

/-- The validator after the lines of the session so far. -/
def readBack (rt : Runtime) (options : ValidateOptions) (file : Text) (s : ReportSession) : Outcome :=
  feedLines rt options file true (s.sunk.map stringifyEvent)
    { Books.start with files := 1 } Here.start

/-- The lines so far did not break the stream, and the validator is in step. -/
def InStep (host : Host) (rt : Runtime) (options : ValidateOptions) (file : Text)
    (s : ReportSession) : Prop :=
  StreamKept (readBack rt options file s).diagnostics ∧
    Mirrors host s (readBack rt options file s).books (readBack rt options file s).here

theorem feedLines_concat (raws : List Text) (raw : Text) (b : Books) (here : Here) :
    feedLines rt options file true (raws ++ [raw]) b here =
      let out := feedLines rt options file true raws b here
      let out' := feedLine rt options file true raw out.books out.here
      ⟨out.diagnostics ++ out'.diagnostics, out'.books, out'.here⟩ := by
  induction raws generalizing b here with
  | nil => simp [feedLines]
  | cons first raws ih => simp [feedLines, ih]

theorem inStep_new : InStep host rt options file .new := by
  refine ⟨streamKept_nil, rfl, ?_, ?_, fun _ => ⟨rfl, rfl⟩, fun h => absurd rfl h,
    fun _ => ⟨rfl, rfl⟩⟩
  · intro id h
    cases h
  · intro id h
    exact absurd rfl h

theorem InStep.still (h : InStep host rt options file s) (hsunk : s'.sunk = s.sunk)
    (hsequence : s'.sequence = s.sequence) (hbuilt : s.built ≤ s'.built)
    (hactive : s'.lifecycle = .active → s.lifecycle = .active)
    (hopen : s'.lifecycle = .active ∨ s'.lifecycle = .sessionFinished →
      s.lifecycle = .active ∨ s.lifecycle = .sessionFinished) :
    InStep host rt options file s' := by
  have hback : readBack rt options file s' = readBack rt options file s := by
    rw [readBack, hsunk, readBack]
  rw [InStep, hback]
  exact ⟨h.1, h.2.still hsunk hsequence hbuilt hactive hopen⟩

theorem isOrdinary_eventType {p : Payload} (h : isOrdinary p = true) :
    p.eventType ≠ .sessionFinished ∧ p.eventType ≠ .runFinished := by
  cases p with
  | sessionFinished _ => cases h
  | runFinished => cases h
  | _ => exact ⟨nofun, nofun⟩

theorem Call.restarts_or (c : Call) : (∃ payload, c = .emit (.sessionStarted payload)) ∨
    ∀ p, c.MayWrite p → p.eventType ≠ .sessionStarted := by
  cases c with
  | emit input =>
      cases input with
      | sessionStarted payload => exact .inl ⟨payload, rfl⟩
      | sessionFinished outcome =>
          right
          rintro p ⟨o, -, rfl⟩
          exact nofun
      | runFinished =>
          right
          rintro p (rfl | rfl) <;> exact nofun
      | _ =>
          right
          rintro p rfl
          exact nofun
  | attach input bytes =>
      right
      rintro p ⟨stored, rfl⟩
      exact nofun
  | finish outcome =>
      right
      rintro p ⟨o, -, rfl⟩
      exact nofun
  | finishRun =>
      right
      rintro p (rfl | rfl) <;> exact nofun
  | close =>
      right
      rintro p rfl
      exact nofun

/-- What a later state of a call says of the state before it. -/
theorem Steps.guards {may : Payload → Prop} (h : Steps host may s s') :
    (s'.lifecycle = .active → s.lifecycle = .active) ∧
    (s'.lifecycle = .sessionFinished → s.lifecycle = .active ∨ s.lifecycle = .sessionFinished) ∧
    (s'.terminalOutcomeLost = false → s.terminalOutcomeLost = false) := by
  induction h with
  | refl => exact ⟨id, .inr, id⟩
  | tail _ hlast ih =>
      obtain ⟨hactive, hfinished, hkept⟩ := ih
      cases hlast with
      | quiet hq =>
          rw [hq.lifecycle, hq.lost]
          exact ⟨hactive, hfinished, hkept⟩
      | lost ha hsunk hsequence hbuilt hlifecycle hlost =>
          rw [hlifecycle, hlost]
          exact ⟨hactive, hfinished, Bool.noConfusion⟩
      | event hmay ha hlost hordinary hw hlifecycle =>
          exact ⟨fun _ => hactive ha, fun _ => .inl (hactive ha), fun _ => hkept hlost⟩
      | sessionFinished hmay ha hlost hw hlifecycle =>
          exact ⟨fun _ => hactive ha, fun _ => .inl (hactive ha), fun _ => hkept hlost⟩
      | runFinished hmay hf hlost hw hlifecycle =>
          rw [hlifecycle]
          exact ⟨nofun, nofun, fun _ => hkept hlost⟩
      | closed hsunk hsequence hbuilt hlost hlifecycle =>
          rw [hlifecycle, hlost]
          exact ⟨nofun, nofun, hkept⟩

/-- The sink only ever takes more. -/
theorem Steps.sunk_extends {may : Payload → Prop} (h : Steps host may s s') : s.sunk <+: s'.sunk := by
  induction h with
  | refl => exact List.prefix_rfl
  | tail _ hlast ih =>
      refine ih.trans ?_
      cases hlast with
      | quiet hq => exact hq.sunk ▸ List.prefix_rfl
      | lost hactive hsunk hsequence hbuilt hlifecycle hlost => exact hsunk ▸ List.prefix_rfl
      | event hmay hactive hlost hordinary hw hlifecycle => exact ⟨_, hw.sunk.symm⟩
      | sessionFinished hmay hactive hlost hw hlifecycle => exact ⟨_, hw.sunk.symm⟩
      | runFinished hmay hfinished hlost hw hlifecycle => exact ⟨_, hw.sunk.symm⟩
      | closed hsunk hsequence hbuilt hlost hlifecycle => exact hsunk ▸ List.prefix_rfl

theorem run_sunk_extends (host : Host) (s : ReportSession) (calls : List Call) :
    s.sunk <+: (run host s calls).sunk := by
  induction calls generalizing s with
  | nil => exact List.prefix_rfl
  | cons c calls ih => exact (Steps.sunk_extends (call_steps c)).trans (ih _)

/-- A written event that comes after those of the state before the call was handed over by it. -/
theorem written_given {xs : List Handed} {t u : ReportSession} {e : AnyEvent}
    (h : Given host s xs u) (hbefore : s.sunk <+: t.sunk) (hafter : t.sunk ++ [e] <+: u.sunk) :
    ∃ x ∈ xs, x.WrittenAs host e := by
  obtain ⟨es, hes, hall⟩ := h
  obtain ⟨first, hfirst⟩ := hbefore
  obtain ⟨rest, hrest⟩ := hafter
  have hsplit : s.sunk ++ (first ++ ([e] ++ rest)) = s.sunk ++ es := by
    rw [← hes, ← hrest, ← hfirst, List.append_assoc, List.append_assoc]
  refine hall e ?_
  rw [← List.append_cancel_left hsplit]
  simp

section steps
variable (hsize : host.size = eventBytes) (hlimit : host.maxEventBytes ≤ eventLimit options)

include hsize hlimit

/-- A step whose write meets the conditions keeps the validator in step. -/
theorem InStep.step {may : Payload → Prop} (h : InStep host rt options file s)
    (hstep : Step host may s s')
    (hsound : ∀ payload e, may payload → s.terminalOutcomeLost = false →
      (s.lifecycle = .active ∨ s.lifecycle = .sessionFinished ∧ payload = .runFinished) →
      Accepted host s payload e → s'.sunk = s.sunk ++ [e] →
      (payload.eventType = .sessionStarted ↔ s.sunk = []) ∧
        rt.validate (some payload.eventType) (eventToObject e) = none)
    (hparse : ∀ e ∈ s'.sunk, rt.parse (stringifyEvent e) = .ok (eventToObject e)) :
    InStep host rt options file s' := by
  have hwrite : ∀ {payload : Payload} {e : AnyEvent}, may payload → Wrote host payload s s' e →
      s.terminalOutcomeLost = false →
      (s.lifecycle = .active ∨ s.lifecycle = .sessionFinished ∧ payload = .runFinished) →
      (s'.lifecycle = .active → s.lifecycle = .active ∧ payload.eventType ≠ .sessionFinished) →
      (s'.lifecycle = .active ∨ s'.lifecycle = .sessionFinished →
        payload.eventType ≠ .runFinished) → InStep host rt options file s' := by
    intro payload e hmay hw hlost hopen hactive hlast
    obtain ⟨hstart, hschema⟩ :=
      hsound payload e hmay hlost hopen ⟨hw.redacted, hw.size, hw.sink⟩ hw.sunk
    have hmem : e ∈ s'.sunk := by simp [hw.sunk]
    obtain ⟨hkept, hmirrors⟩ := h.2.wrote file hw hsize hlimit (hparse e hmem) hstart hschema
      (hopen.imp_right (fun ho => ⟨ho.1, congrArg Payload.eventType ho.2⟩)) hactive hlast
    rw [InStep, readBack, hw.sunk, List.map_append, List.map_singleton, feedLines_concat]
    exact ⟨streamKept_append.mpr ⟨h.1, hkept⟩, hmirrors⟩
  cases hstep with
  | quiet hq =>
      exact h.still hq.sunk hq.sequence hq.built (fun ha => hq.lifecycle ▸ ha)
        (fun ha => hq.lifecycle ▸ ha)
  | lost hactive hsunk hsequence hbuilt hlifecycle hlost =>
      exact h.still hsunk hsequence hbuilt (fun _ => hactive) (fun _ => .inl hactive)
  | event hmay hactive hlost hordinary hw hlifecycle =>
      obtain ⟨hnot, hnot'⟩ := isOrdinary_eventType hordinary
      exact hwrite hmay hw hlost (.inl hactive) (fun _ => ⟨hactive, hnot⟩) (fun _ => hnot')
  | sessionFinished hmay hactive hlost hw hlifecycle =>
      refine hwrite hmay hw hlost (.inl hactive) (fun ha => ?_) (fun _ => nofun)
      rw [hlifecycle] at ha
      cases ha
  | runFinished hmay hfinished hlost hw hlifecycle =>
      refine hwrite hmay hw hlost (.inr ⟨hfinished, rfl⟩) (fun ha => ?_) (fun ha => ?_)
      · rw [hlifecycle] at ha
        cases ha
      · rw [hlifecycle] at ha
        rcases ha with ha | ha
        · cases ha
        · cases ha
  | closed hsunk hsequence hbuilt hlost hlifecycle =>
      refine h.still hsunk hsequence hbuilt (fun ha => ?_) (fun ha => ?_)
      · rw [hlifecycle] at ha
        cases ha
      · rw [hlifecycle] at ha
        rcases ha with ha | ha
        · cases ha
        · cases ha

/-- A call that meets the conditions keeps the validator in step, once something was written. -/
theorem InStep.call (hrun : isIdentifier host.runId = true)
    (hsession : isIdentifier host.sessionId = true) (h : InStep host rt options file s)
    (hbegun : s.sunk ≠ []) {c : Call}
    (hsound : Sound host rt s c)
    (hparse : ∀ e ∈ (call host s c).2.sunk, rt.parse (stringifyEvent e) = .ok (eventToObject e)) :
    InStep host rt options file (call host s c).2 := by
  rcases c.restarts_or with ⟨payload, rfl⟩ | hother
  · have hordinary : isOrdinary (.sessionStarted payload) = true := rfl
    rcases emit_ordinary_case host s hordinary with hquiet | ⟨hactive, hlost, e, hw, -⟩
    · have hstep : Step host (fun _ => False) s (emit host s (.sessionStarted payload)).2 :=
        .quiet hquiet
      exact h.step hsize hlimit hstep (fun _ _ hf => hf.elim) hparse
    · exact absurd ⟨hw.redacted, hw.size, hw.sink⟩ (hsound.restart payload e rfl hactive hlost)
  · have hall : ∀ t, Steps host c.MayWrite s t → t.sunk <+: (Sdk.call host s c).2.sunk →
        InStep host rt options file t := by
      intro t ht
      induction ht with
      | refl => exact fun _ => h
      | @tail t t' hbefore hlast ih =>
          intro hsub
          have hfirst := Steps.sunk_extends (Relation.ReflTransGen.single hlast)
          refine (ih (hfirst.trans hsub)).step hsize hlimit hlast ?_
            (fun e he => hparse e (hsub.subset he))
          intro payload e hmay hlost hopen hacc hsunk
          refine ⟨iff_of_false (hother payload hmay) (fun hnil => ?_), ?_⟩
          · exact hbegun (List.prefix_nil.mp (hnil ▸ Steps.sunk_extends hbefore))
          · obtain ⟨x, hx, hwritten⟩ := written_given (call_given hrun hsession s c)
              (Steps.sunk_extends hbefore) (hsunk ▸ hsub)
            have htype : payload.eventType = x.payload.eventType := Option.some.inj
              ((Handed.WrittenAs.knownType (x := t.next payload)
                ⟨hacc.redacted, hacc.size⟩).symm.trans hwritten.knownType)
            rw [htype]
            exact hsound.schema x hx e hwritten
    exact hall _ (call_steps c) List.prefix_rfl

theorem InStep.run (hrun : isIdentifier host.runId = true)
    (hsession : isIdentifier host.sessionId = true) (h : InStep host rt options file s) (hbegun : s.sunk ≠ []) {calls : List Call}
    (hsound : ∀ before c after, calls = before ++ c :: after → Sound host rt (run host s before) c)
    (hparse : ∀ e ∈ (run host s calls).sunk, rt.parse (stringifyEvent e) = .ok (eventToObject e)) :
    InStep host rt options file (run host s calls) := by
  induction calls generalizing s with
  | nil => exact h
  | cons c calls ih =>
      have hsub := (run_sunk_extends host (Sdk.call host s c).2 calls).subset
      have hmore : s.sunk <+: (Sdk.call host s c).2.sunk := Steps.sunk_extends (call_steps c)
      refine ih
        (h.call hsize hlimit hrun hsession hbegun (hsound [] c calls rfl) (fun e he => hparse e (hsub he)))
        (fun hnil => hbegun (List.prefix_nil.mp (hnil ▸ hmore))) (fun before c' after heq => ?_) hparse
      exact hsound (c :: before) c' after (congrArg (c :: ·) heq)

end steps

/-- `start` writes its event when the sink takes it. -/
theorem start_accepted {payload : SessionStartedPayload} {e : AnyEvent}
    (h : Accepted host .new (.sessionStarted payload) e) :
    Wrote host (.sessionStarted payload) .new (start host payload).2 e ∧
      (start host payload).2.lifecycle = .active := by
  have hfits : ¬ host.size e > host.maxEventBytes := Nat.not_lt.mpr h.size
  have hstart : start host payload = (.ok true, ReportSession.new.build.took e) := by
    have haccepts : acceptsSessionEvents .new
        (txt "event " ++ (Payload.sessionStarted payload).eventType.text) = (true, .new) := rfl
    rw [start, emit_ordinary rfl, haccepts]
    dsimp only
    rw [writeOne, write, h.redacted]
    dsimp only
    rw [if_neg hfits, if_pos (show host.write ReportSession.new.build.tried = true from h.sink)]
    rfl
  rw [hstart]
  exact ⟨⟨h.redacted, h.size, h.sink, rfl, rfl, rfl, rfl⟩, rfl⟩

end mirror

/-- A session whose `session.started` reached the sink, and whose calls write no second one and
only what the schema accepts, is read back by a validator without a broken stream. -/
theorem stream_conforms (rt : Runtime) (options : ValidateOptions) (host : Host) (file : Text)
    (payload : SessionStartedPayload) (calls : List Call) (e : AnyEvent)
    (hsize : host.size = eventBytes) (hlimit : host.maxEventBytes ≤ eventLimit options)
    (hparse : ∀ e ∈ (run host (start host payload).2 calls).sunk,
      rt.parse (stringifyEvent e) = .ok (eventToObject e))
    (hstart : Accepted host .new (.sessionStarted payload) e)
    (hschema : rt.validate (some .sessionStarted) (eventToObject e) = none)
    (hcalls : ∀ before c after, calls = before ++ c :: after →
      Sound host rt (run host (start host payload).2 before) c) :
    StreamKept (feedAll rt options
      [⟨(run host (start host payload).2 calls).sunk.map stringifyEvent, file, true⟩]).diagnostics := by
  have hsub := (run_sunk_extends host (start host payload).2 calls).subset
  obtain ⟨hw, hactive⟩ := start_accepted hstart
  have h : InStep host rt options file (start host payload).2 := by
    have hstep : Step host (fun p => p = .sessionStarted payload) .new (start host payload).2 :=
      .event rfl rfl rfl rfl hw hactive
    refine inStep_new.step hsize hlimit hstep ?_ (fun e he => hparse e (hsub he))
    rintro _ e' rfl - - hacc -
    obtain rfl : e' = e := Except.ok.inj (hacc.redacted.symm.trans hstart.redacted)
    exact ⟨iff_of_true rfl rfl, hschema⟩
  have hbegun : (start host payload).2.sunk ≠ [] := by
    rw [hw.sunk]
    exact List.cons_ne_nil _ _
  have henvelope := (redactEvent_eq_ok.mp hstart.redacted).1
  exact (h.run hsize hlimit henvelope.runId henvelope.sessionId hbegun hcalls hparse).1

/-! ### Two sessions -/

/-- A host whose sink refuses the first event. -/
def refusingHost : Host := plainHost 1000 thousand_le (fun n => n ≠ 0)

/-- When `session.started` did not reach the sink, the next event is the first line. -/
theorem stream_breaks : ¬ StreamKept (feedAll Sample.runtime Sample.options
    [⟨(run refusingHost (start refusingHost samplePayload).2 [.finishRun]).sunk.map stringifyEvent,
      txt "s", true⟩]).diagnostics := by
  decide +kernel

/-- A host whose sink takes every event. -/
def takingHost : Host := plainHost 1000 thousand_le (fun _ => true)

theorem takingHost_starts : Accepted takingHost .new (.sessionStarted samplePayload)
    (.known (redacted id (candidate takingHost .new (.sessionStarted samplePayload))).normal) := by
  refine ⟨redactEvent_eq_ok.mpr ⟨candidate_readable _ (by decide) (by decide) (by decide), rfl, rfl⟩,
    by decide +kernel, rfl⟩

theorem parse_stringifyEvent (e : AnyEvent) :
    Sample.runtime.parse (stringifyEvent e) = .ok (eventToObject e) := by
  have hparse : ∀ t, Sample.runtime.parse t = ((parseJson t).map Except.ok).getD (.error []) :=
    fun _ => rfl
  rw [hparse, stringifyEvent, parseJson_jsonText, Option.map_some, Option.getD_some]

/-! ### The conditions of a run, evaluated -/

section evaluated
variable (host : Host) (rt : Runtime)

/-- `session.started` is emitted. -/
def Call.restarts : Call → Bool
  | .emit (.sessionStarted _) => true
  | _ => false

/-- The schema accepts what is handed over and read by the codec. -/
def schemaAccepts (x : Handed) : Bool :=
  (redactEvent host.redactText (.known (x.event host))).toOption.all
    (fun e => (rt.validate (some x.payload.eventType) (eventToObject e)).isNone)

/-- Every call of the run emits no `session.started` and only what the schema accepts. -/
def soundRun : ReportSession → List Call → Bool
  | _, [] => true
  | s, c :: calls =>
      !c.restarts && (handed host s (.call c)).all (schemaAccepts host rt) &&
        soundRun (call host s c).2 calls

variable {host rt} {s : ReportSession}

theorem sound_of_accepts {c : Call} (hstart : c.restarts = false)
    (haccepts : ∀ x ∈ handed host s (.call c), schemaAccepts host rt x = true) :
    Sound host rt s c := by
  constructor
  · rintro payload e rfl
    cases hstart
  · intro x hx e hwritten
    have hx' := haccepts x hx
    rw [schemaAccepts, hwritten.redacted] at hx'
    exact Option.isNone_iff_eq_none.mp hx'

theorem sound_of_soundRun {calls : List Call} (h : soundRun host rt s calls = true) :
    ∀ before c after, calls = before ++ c :: after → Sound host rt (run host s before) c := by
  induction calls generalizing s with
  | nil =>
      intro before c after heq
      simp at heq
  | cons first calls ih =>
      rw [soundRun, Bool.and_eq_true, Bool.and_eq_true, Bool.not_eq_true', List.all_eq_true] at h
      obtain ⟨⟨hstart, haccepts⟩, hrest⟩ := h
      intro before c after heq
      cases before with
      | nil =>
          obtain ⟨rfl, rfl⟩ := List.cons.inj heq
          exact sound_of_accepts hstart haccepts
      | cons b before =>
          obtain ⟨rfl, rfl⟩ := List.cons.inj heq
          exact ih hrest before c after rfl

end evaluated

namespace Sample

/-- The runtime of a validator with the schema of the protocol. -/
def schemaRuntime : Runtime where
  parse := QeReport.Sample.runtime.parse
  validate known v := if EventSchema.validates isSchemaTimestamp known v then none else some []
  sha256 := QeReport.Sample.runtime.sha256

/-- One test with an attachment, an outcome, and calls after the end. -/
def attachingCalls : List Call := [
  .emit (.attemptStarted ⟨txt "a1", 1,
    ⟨txt "t1", some (txt "h1"), .stable, txt "pays", [⟨txt "file", txt "pay"⟩], none, none, none⟩⟩),
  .attach ⟨txt "a1", none, txt "log", txt "text/plain"⟩ [111, 107],
  .emit (.attemptFinished ⟨txt "a1", .passed, none, none, some 5, none⟩),
  .finish ⟨some .passed, some (txt "ok"), none⟩,
  .attach ⟨txt "a1", none, txt "late", txt "text/plain"⟩ [111, 107],
  .finishRun,
  .close]

end Sample

theorem Sample.parse_schemaRuntime (e : AnyEvent) :
    schemaRuntime.parse (stringifyEvent e) = .ok (eventToObject e) := by
  have hparse : schemaRuntime.parse = QeReport.Sample.runtime.parse := rfl
  rw [hparse, parse_stringifyEvent]

/-- The session of one test with an attachment, its lines read by a validator with the schema. -/
theorem stream_conforms_attaching : StreamKept (feedAll Sample.schemaRuntime
    QeReport.Sample.options
    [⟨(run takingHost (start takingHost samplePayload).2 Sample.attachingCalls).sunk.map
      stringifyEvent, txt "s", true⟩]).diagnostics := by
  have hschema : Sample.schemaRuntime.validate (some .sessionStarted) (eventToObject (.known
      (redacted id (candidate takingHost .new (.sessionStarted samplePayload))).normal)) = none := by
    decide +kernel
  have hsound : soundRun takingHost Sample.schemaRuntime (start takingHost samplePayload).2
      Sample.attachingCalls = true := by decide +kernel
  exact stream_conforms Sample.schemaRuntime QeReport.Sample.options takingHost (txt "s")
    samplePayload Sample.attachingCalls _ rfl (by decide)
    (fun e _ => Sample.parse_schemaRuntime e) takingHost_starts hschema (sound_of_soundRun hsound)

end QeReport.Sdk

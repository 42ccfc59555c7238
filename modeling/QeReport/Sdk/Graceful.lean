import QeReport.Protocol.Readable
import QeReport.Sdk.Outcome

/-! # What a session throws

A call on a session returns, or an error of the codec escapes it.  The codec is asked about every
event on its way to the sink (`handed`), and takes it exactly when its id, its time, its number
and its payload pass the checks of the protocol (`Handed.Taken`); nothing else can escape.

A number of an input that is no safe integer, whether it is too large, a fraction or no number at
all, stands here as an integer that is not safe: the codec asks no more of a number than
`Number.isSafeInteger` before it refuses it. -/

namespace QeReport

/-! ### Redaction keeps a payload readable -/

section readable
variable (f : Text → Text)

theorem redactLocation_readable (l : Option Location) :
    (∀ x ∈ l.map (Sdk.redactLocation f), x.Readable) ↔ ∀ x ∈ l, x.Readable := by
  cases l with
  | none => simp
  | some l => simp [Sdk.redactLocation, Location.Readable]

theorem redactFailure_readable (x : Failure) :
    (Sdk.redactFailure f x).Readable ↔ x.Readable := redactLocation_readable f x.location

theorem redactFailures_readable (l : Option (List Failure)) :
    FailuresReadable (l.map (List.map (Sdk.redactFailure f))) ↔ FailuresReadable l := by
  cases l with
  | none => simp [FailuresReadable]
  | some l => simp [FailuresReadable, redactFailure_readable]

theorem failures_redacted_eq_nil (l : Option (List Failure)) :
    (l.map (List.map (Sdk.redactFailure f))).getD [] = [] ↔ l.getD [] = [] := by
  cases l with
  | none => simp
  | some l => simp

theorem redactTest_readable (t : TestCase) : (Sdk.redactTest f t).Readable ↔ t.Readable := by
  constructor
  · rintro ⟨hexecution, hhistorical, hlocation⟩
    exact ⟨hexecution, hhistorical, (redactLocation_readable f _).mp hlocation⟩
  · rintro ⟨hexecution, hhistorical, hlocation⟩
    exact ⟨hexecution, hhistorical, (redactLocation_readable f _).mpr hlocation⟩

theorem redactPayload_readable (p : Payload) :
    (Sdk.redactPayload f p).Readable ↔ p.Readable := by
  cases p with
  | sessionStarted p => exact Iff.rfl
  | sessionFinished p =>
      constructor
      · rintro ⟨hraw, hnone, hfailures⟩
        exact ⟨hraw, fun h => (failures_redacted_eq_nil f _).mp (hnone h),
          (redactFailures_readable f _).mp hfailures⟩
      · rintro ⟨hraw, hnone, hfailures⟩
        exact ⟨hraw, fun h => (failures_redacted_eq_nil f _).mpr (hnone h),
          (redactFailures_readable f _).mpr hfailures⟩
  | runFinished => exact Iff.rfl
  | attemptStarted p =>
      constructor
      · rintro ⟨hid, hnumber, htest⟩
        exact ⟨hid, hnumber, (redactTest_readable f _).mp htest⟩
      · rintro ⟨hid, hnumber, htest⟩
        exact ⟨hid, hnumber, (redactTest_readable f _).mpr htest⟩
  | attemptFinished p =>
      constructor
      · rintro ⟨hid, hduration, hfailures⟩
        exact ⟨hid, hduration, (redactFailures_readable f _).mp hfailures⟩
      · rintro ⟨hid, hduration, hfailures⟩
        exact ⟨hid, hduration, (redactFailures_readable f _).mpr hfailures⟩
  | stepStarted p =>
      constructor
      · rintro ⟨hstep, hid, hparent, hlocation⟩
        exact ⟨hstep, hid, hparent, (redactLocation_readable f _).mp hlocation⟩
      · rintro ⟨hstep, hid, hparent, hlocation⟩
        exact ⟨hstep, hid, hparent, (redactLocation_readable f _).mpr hlocation⟩
  | stepFinished p =>
      constructor
      · rintro ⟨hstep, hid, hduration, hfailures⟩
        exact ⟨hstep, hid, hduration, (redactFailures_readable f _).mp hfailures⟩
      · rintro ⟨hstep, hid, hduration, hfailures⟩
        exact ⟨hstep, hid, hduration, (redactFailures_readable f _).mpr hfailures⟩
  | attachmentAdded p => exact Iff.intro (fun ⟨h, k, l⟩ => ⟨h, k, l⟩) (fun ⟨h, k, l⟩ => ⟨h, k, l⟩)
  | scopeFailed p =>
      constructor
      · rintro ⟨hpath, hlocation, hsome, hfailures⟩
        refine ⟨fun h => hpath (congrArg (Sdk.redactPath f) h),
          (redactLocation_readable f _).mp hlocation, fun h => hsome (by simp [h]),
          (redactFailures_readable f (some p.failures)).mp hfailures⟩
      · rintro ⟨hpath, hlocation, hsome, hfailures⟩
        exact ⟨by simpa [Sdk.redactPath] using hpath, (redactLocation_readable f _).mpr hlocation,
          by simpa using hsome, (redactFailures_readable f (some p.failures)).mpr hfailures⟩

end readable

theorem getD_nonEmpty {α : Type} (l : Option (List α)) : (nonEmpty l).getD [] = l.getD [] := by
  rcases l with _ | _ | ⟨a, l⟩
  · rfl
  · rfl
  · rfl

theorem Payload.readable_of_normal {p : Payload} (h : p.normal.Readable) : p.Readable := by
  have hfailures : ∀ {l : Option (List Failure)}, FailuresReadable (nonEmpty l) →
      FailuresReadable l := by
    intro l hl
    rwa [FailuresReadable, getD_nonEmpty] at hl
  cases p with
  | sessionStarted p => trivial
  | sessionFinished p =>
      refine ⟨h.rawStatus, fun hs => ?_, hfailures h.readable⟩
      rw [← getD_nonEmpty]
      exact h.failures hs
  | runFinished => trivial
  | attemptStarted p =>
      exact ⟨h.attemptId, h.attemptNumber, h.test.executionId, h.test.historicalId,
        h.test.location⟩
  | attemptFinished p => exact ⟨h.attemptId, h.durationMs, hfailures h.failures⟩
  | stepStarted p => exact h
  | stepFinished p => exact ⟨h.stepId, h.attemptId, h.durationMs, hfailures h.failures⟩
  | attachmentAdded p => exact h
  | scopeFailed p => exact h

namespace Sdk

/-! ### Reading a file -/

/-- A file as `openSync`, `readSync` and `closeSync` show it: whether it opens, what each read
gives (`none` when it throws) up to the end, and whether it closes. -/
structure SourceFile where
  opens : Bool
  chunks : List (Option (List ℕ))
  closes : Bool

/-- The reads of `readBounded`, after `total` bytes: `none` when one throws, `some none` when the
file proves larger than `limit`. -/
def readChunks (limit : ℕ) : ℕ → List (Option (List ℕ)) → Option (Option (List ℕ))
  | _, [] => some (some [])
  | _, none :: _ => none
  | total, some chunk :: chunks =>
      if chunk = [] then some (some [])
      else if total + chunk.length > limit then some none
      else (readChunks limit (total + chunk.length) chunks).map (Option.map (chunk ++ ·))

/-- `readBounded(path, limit)`. -/
def readBounded (limit : ℕ) (file : SourceFile) : Option (Option (List ℕ)) :=
  if file.opens && file.closes then readChunks limit 0 file.chunks else none

section session
variable (host : Outside)

/-- `attachFileSync(input, path)`. -/
def attachFileSync (s : ReportSession) (input : AttachmentInput) (file : SourceFile) : Answer Bool :=
  match acceptsSessionEvents s (txt "attachment " ++ input.name) with
  | (false, s) => (.ok false, s)
  | (true, s) =>
      match readBounded host.maxAttachmentBytes file with
      | none => (.ok false, storeFailed s input .other)
      | some none => (.ok false, storeFailed s input .tooLarge)
      | some (some bytes) => attach host s input bytes

/-- A call on a session, or `attachFileSync`. -/
inductive Request where
  | call (c : Call)
  | attachFileSync (input : AttachmentInput) (file : SourceFile)

def request (s : ReportSession) : Request → Answer Bool
  | .call c => call host s c
  | .attachFileSync input file => attachFileSync host s input file

/-! ### What is handed to the codec -/

/-- An event on its way to the sink: the draw of its id and time, its number and its payload. -/
structure Handed where
  draw : ℕ
  sequence : ℕ
  payload : Payload
deriving DecidableEq

/-- The codec takes the event. -/
structure Handed.Taken (x : Handed) : Prop where
  eventId : isIdentifier (host.ids x.draw) = true
  occurredAt : isTimestamp (host.clock x.draw) = true
  sequence : isSafe (x.sequence : ℤ)
  payload : x.payload.Readable

/-- The event as the session builds it. -/
def Handed.event (x : Handed) : Event where
  protocolVersion := txt "0.3.0"
  eventId := host.ids x.draw
  runId := host.runId
  sessionId := host.sessionId
  sequence := x.sequence
  occurredAt := host.clock x.draw
  ignorable := none
  payload := x.payload

/-- What the sink is given for the event: it redacted, when that is within the limit. -/
structure Handed.WrittenAs (x : Handed) (e : AnyEvent) : Prop where
  redacted : redactEvent host.redactText (.known (x.event host)) = .ok e
  size : host.size e ≤ host.maxEventBytes

/-- The event a session builds next. -/
def ReportSession.next (s : ReportSession) (payload : Payload) : Handed :=
  ⟨s.built, s.sequence + 1, payload⟩

/-- The session takes events. -/
def ReportSession.accepts (s : ReportSession) : Bool :=
  s.lifecycle = .active && !s.terminalOutcomeLost

/-- The event of a payload is over the limit. -/
def oversize (s : ReportSession) (payload : Payload) : Bool :=
  host.maxEventBytes < host.size (.known (redacted host.redactText (candidate host s payload)).normal)

/-- The forms of an outcome, each after the one before it was over the limit. -/
def handedOutcome (status : SessionStatus) (outcome : SessionFinishedPayload)
    (s : ReportSession) : List Handed :=
  s.next (.sessionFinished outcome) ::
    if oversize host s (.sessionFinished outcome) then
      if hasFailures outcome then
        handedOutcome status ⟨some status, outcome.rawStatus, none⟩ s.build
      else if outcome.rawStatus.isSome then handedOutcome status ⟨some status, none, none⟩ s.build
      else []
    else []
termination_by reductions outcome
decreasing_by
  · simp_all [reductions]
  · simp_all [reductions]

def handedFinish (s : ReportSession) (outcome : SessionFinishedPayload) : List Handed :=
  if outcomeViolation outcome = none ∧ s.accepts then
    match outcome.status with
    | none => [s.next (.sessionFinished outcome)]
    | some status => handedOutcome host status outcome s
  else []

/-- `session.finished` is sent first when the session is active, and `run.finished` when that was
written. -/
def handedFinishRun (s : ReportSession) : List Handed :=
  if s.accepts then
    s.next (.sessionFinished emptyOutcome) ::
      if !oversize host s (.sessionFinished emptyOutcome) && host.write s.tried then
        [⟨s.built + 1, s.sequence + 2, .runFinished⟩]
      else []
  else if s.lifecycle = .sessionFinished ∧ s.terminalOutcomeLost = false then [s.next .runFinished]
  else []

def handedEmit (s : ReportSession) : Payload → List Handed
  | .runFinished => handedFinishRun host s
  | .sessionFinished outcome => handedFinish host s outcome
  | payload => if s.accepts then [s.next payload] else []

/-- An attachment is told of when the sink stored it. -/
def handedAttach (s : ReportSession) (input : AttachmentInput) (bytes : List ℕ) : List Handed :=
  match host.storeAttachment s.stored (contentOf host input bytes) with
  | .error _ => []
  | .ok stored => if s.accepts then [s.next (attachmentPayload input stored)] else []

/-- The events a request has the codec look at, in their order. -/
def handed (s : ReportSession) : Request → List Handed
  | .call (.emit input) => handedEmit host s input
  | .call (.attach input bytes) => handedAttach host s input bytes
  | .call (.finish outcome) => handedFinish host s outcome
  | .call .finishRun => handedFinishRun host s
  | .call .close => if s.lifecycle = .closed then [] else handedFinish host s emptyOutcome
  | .attachFileSync input file =>
      match readBounded host.maxAttachmentBytes file with
      | some (some bytes) => handedAttach host s input bytes
      | _ => []

/-! ### Returning -/

/-- The operation gave its answer, and nothing escaped it. -/
def Answer.Returns {α : Type} (a : Answer α) : Prop := ∃ answer, a.1 = .ok answer

@[simp] theorem Answer.returns_ok {α : Type} (answer : α) (s : ReportSession) :
    Answer.Returns ((.ok answer, s) : Answer α) := ⟨answer, rfl⟩

@[simp] theorem Answer.returns_error {α : Type} (e : ProtocolError) (s : ReportSession) :
    ¬ Answer.Returns ((.error e, s) : Answer α) := nofun

variable {host} {s : ReportSession}

theorem redactEvent_taken (hrun : isIdentifier host.runId = true)
    (hsession : isIdentifier host.sessionId = true) (payload : Payload) :
    (∃ e, redactEvent host.redactText (.known (candidate host s payload)) = .ok e) ↔
      (s.next payload).Taken host := by
  constructor
  · rintro ⟨e, he⟩
    obtain ⟨henvelope, hread, -⟩ := redactEvent_eq_ok.mp he
    have hreadable := Payload.readable_of_normal (readPayload_readable hread).1
    exact ⟨henvelope.eventId, henvelope.occurredAt, henvelope.safe,
      (redactPayload_readable _ _).mp hreadable⟩
  · intro h
    have hreadable := (redactPayload_readable host.redactText payload).mpr h.payload
    refine ⟨_, redactEvent_eq_ok.mpr ⟨?_, ?_, rfl⟩⟩
    · exact ⟨rfl, h.eventId, hrun, hsession, Nat.le_add_left _ _, h.sequence, h.occurredAt⟩
    · have hback := readPayload_back hreadable
      rwa [redactPayload_eventType] at hback

theorem Handed.WrittenAs.knownType {x : Handed} {e : AnyEvent} (h : x.WrittenAs host e) :
    e.knownType = some x.payload.eventType := by
  obtain ⟨-, -, rfl⟩ := redactEvent_eq_ok.mp h.redacted
  exact congrArg some ((Payload.eventType_normal _).trans (redactPayload_eventType _ _))

theorem Handed.WrittenAs.eventType {x : Handed} {e : AnyEvent} (h : x.WrittenAs host e) :
    e.eventType = x.payload.eventType.text := by
  obtain ⟨-, -, rfl⟩ := redactEvent_eq_ok.mp h.redacted
  exact congrArg EventType.text
    ((Payload.eventType_normal _).trans (redactPayload_eventType _ _))

/-- What a write gives when the codec takes its event, and when not. -/
inductive WriteTaken (host : Outside) (s : ReportSession) (payload : Payload) (reportSize : Bool) :
    Answer WriteAttempt → Prop
  | threw {err : ProtocolError} (htaken : ¬ (s.next payload).Taken host) :
      WriteTaken host s payload reportSize (.error err, s.build)
  | tooLarge {bytes : ℕ} (htaken : (s.next payload).Taken host)
      (hsize : oversize host s payload = true) :
      WriteTaken host s payload reportSize (.ok ⟨.tooLarge, bytes⟩,
        if reportSize then s.build.drop.problem .eventTooLarge
          (txt "event " ++ payload.eventType.text ++ txt " is " ++ sizeText host bytes ++
            txt "; dropped")
        else s.build.drop)
  | written {bytes : ℕ} {e : AnyEvent} (htaken : (s.next payload).Taken host)
      (hsize : oversize host s payload = false) (hsink : host.write s.tried = true)
      (hwritten : (s.next payload).WrittenAs host e) :
      WriteTaken host s payload reportSize (.ok ⟨.written, bytes⟩, s.build.took e)
  | sinkFailure {bytes : ℕ} (htaken : (s.next payload).Taken host)
      (hsize : oversize host s payload = false) (hsink : host.write s.tried = false) :
      WriteTaken host s payload reportSize (.ok ⟨.sinkFailure, bytes⟩,
        s.build.refused.drop.problem .sinkFailure (txt "cannot write " ++ payload.eventType.text))

theorem write_taken (hrun : isIdentifier host.runId = true)
    (hsession : isIdentifier host.sessionId = true) (payload : Payload) (reportSize : Bool) :
    WriteTaken host s payload reportSize (write host s payload reportSize) := by
  have htaken := redactEvent_taken (s := s) hrun hsession payload
  unfold write
  cases h : redactEvent host.redactText (.known (candidate host s payload)) with
  | error err =>
      refine .threw (fun ht => ?_)
      obtain ⟨e, he⟩ := htaken.mpr ht
      rw [h] at he
      cases he
  | ok e =>
      have ht := htaken.mp ⟨e, h⟩
      obtain ⟨-, -, heq⟩ := redactEvent_eq_ok.mp h
      have hsize : oversize host s payload = decide (host.size e > host.maxEventBytes) := by
        rw [oversize, heq]
      dsimp only
      by_cases hbig : host.size e > host.maxEventBytes
      · rw [if_pos hbig]
        exact .tooLarge ht (by rw [hsize, decide_eq_true hbig])
      · rw [if_neg hbig]
        have hfits : oversize host s payload = false := by rw [hsize, decide_eq_false hbig]
        cases hsink : host.write s.tried with
        | true =>
            rw [if_pos (show host.write s.build.tried = true from hsink)]
            exact .written ht hfits hsink ⟨h, Nat.le_of_not_lt hbig⟩
        | false =>
            rw [if_neg (show ¬ host.write s.build.tried = true from Bool.eq_false_iff.mp hsink)]
            exact .sinkFailure ht hfits hsink

/-! ### One event -/

/-- An event was counted as dropped and told of, and nothing reached the sink. -/
structure Refused (s s' : ReportSession) : Prop where
  dropped : s.dropped < s'.dropped
  problems : ∃ told, told ≠ [] ∧ s'.problems = s.problems ++ told
  sunk : s'.sunk = s.sunk
  sequence : s'.sequence = s.sequence

theorem Refused.trans {s t u : ReportSession} (h : Refused s t) (k : Refused t u) :
    Refused s u := by
  obtain ⟨told, hne, htold⟩ := h.problems
  obtain ⟨later, -, hlater⟩ := k.problems
  refine ⟨h.dropped.trans k.dropped, ⟨told ++ later, by simp [hne], ?_⟩, k.sunk.trans h.sunk,
    k.sequence.trans h.sequence⟩
  rw [hlater, htold, List.append_assoc]

/-- Another problem may be told of. -/
theorem Refused.tell {t : ReportSession} (h : Refused s t) (kind : ReportProblemKind)
    (message : Text) : Refused s (t.problem kind message) := by
  obtain ⟨told, hne, htold⟩ := h.problems
  refine ⟨h.dropped, ⟨told ++ [⟨kind, message⟩], by simp, ?_⟩, h.sunk, h.sequence⟩
  rw [ReportSession.problem, htold, List.append_assoc]

theorem refused_drop (s : ReportSession) (kind : ReportProblemKind) (message : Text) :
    Refused s (s.drop.problem kind message) :=
  ⟨Nat.lt_succ_self _, ⟨_, by simp, rfl⟩, rfl, rfl⟩

/-- The events reached the sink, each with the next number, after `larger` forms that were told of
as over the limit. -/
structure Reached (host : Outside) (s : ReportSession) (larger : ℕ) (xs : List Handed)
    (s' : ReportSession) : Prop where
  sunk : ∃ es, s'.sunk = s.sunk ++ es ∧ List.Forall₂ (Handed.WrittenAs host) xs es
  sequence : s'.sequence = s.sequence + xs.length
  dropped : s'.dropped = s.dropped + larger
  problems : ∃ told, s'.problems = s.problems ++ told ∧ told.length = larger ∧
    ∀ p ∈ told, p.kind = .eventTooLarge

theorem reached_took {x : Handed} {e : AnyEvent} (h : x.WrittenAs host e) :
    Reached host s 0 [x] (s.build.took e) :=
  ⟨⟨[e], rfl, .cons h .nil⟩, rfl, rfl, [], (List.append_nil _).symm, rfl, by simp⟩

/-- A larger form was dropped first. -/
theorem Reached.after {larger : ℕ} {xs : List Handed} {message : Text} {t : ReportSession}
    (h : Reached host (s.build.drop.problem .eventTooLarge message) larger xs t) :
    Reached host s (larger + 1) xs t := by
  obtain ⟨told, htold, hlength, hkind⟩ := h.problems
  refine ⟨h.sunk, h.sequence, ?_, ⟨.eventTooLarge, message⟩ :: told, ?_, ?_, ?_⟩
  · rw [h.dropped]
    change s.dropped + 1 + larger = s.dropped + (larger + 1)
    omega
  · rw [htold]
    exact List.append_assoc _ _ _
  · rw [List.length_cons, hlength]
  · intro p hp
    rcases List.mem_cons.mp hp with rfl | hp
    · rfl
    · exact hkind p hp

/-- One more event was written before. -/
theorem Reached.before {x : Handed} {xs : List Handed} {e : AnyEvent} {state : SessionState}
    {t : ReportSession} (hx : x.WrittenAs host e)
    (h : Reached host ((s.build.took e).enter state) 0 xs t) : Reached host s 0 (x :: xs) t := by
  obtain ⟨es, hsunk, hwritten⟩ := h.sunk
  refine ⟨⟨e :: es, ?_, .cons hx hwritten⟩, ?_, h.dropped, h.problems⟩
  · rw [hsunk]
    exact List.append_assoc _ _ _
  · rw [h.sequence, List.length_cons, Nat.add_comm xs.length, ← Nat.add_assoc]
    rfl

/-- What was given to the sink is among the events. -/
def Given (host : Outside) (s : ReportSession) (xs : List Handed) (s' : ReportSession) : Prop :=
  ∃ es, s'.sunk = s.sunk ++ es ∧ ∀ e ∈ es, ∃ x ∈ xs, x.WrittenAs host e

theorem given_nothing {xs : List Handed} {t : ReportSession} (h : t.sunk = s.sunk) :
    Given host s xs t := ⟨[], by rw [h, List.append_nil], by simp⟩

theorem Given.congr {xs : List Handed} {t u : ReportSession} (h : Given host s xs t)
    (hu : u.sunk = t.sunk) : Given host s xs u := by
  rwa [Given, hu]

theorem given_took {x : Handed} {xs : List Handed} {e : AnyEvent} (h : x.WrittenAs host e) :
    Given host s (x :: xs) (s.build.took e) := by
  refine ⟨[e], rfl, fun e' he' => ⟨x, List.mem_cons_self, ?_⟩⟩
  rwa [List.mem_singleton.mp he']

/-- More events may be handed over before, and one of them written. -/
theorem Given.after {x : Handed} {xs : List Handed} {t u : ReportSession}
    (ht : Given host s [x] t) (h : Given host t xs u) : Given host s (x :: xs) u := by
  obtain ⟨es, hes, hfirst⟩ := ht
  obtain ⟨es', hes', hrest⟩ := h
  refine ⟨es ++ es', by rw [hes', hes, List.append_assoc], fun e he => ?_⟩
  rcases List.mem_append.mp he with he | he
  · obtain ⟨y, hy, hwritten⟩ := hfirst e he
    exact ⟨y, List.mem_cons.mpr (.inl (List.mem_singleton.mp hy)), hwritten⟩
  · obtain ⟨y, hy, hwritten⟩ := hrest e he
    exact ⟨y, List.mem_cons_of_mem _ hy, hwritten⟩

/-- An answer is given exactly when the codec takes what it is handed; a refusal is told, and
with the answer `true` what was handed last is written, each form before it being over the limit. -/
structure Answers (host : Outside) (s : ReportSession) (xs : List Handed) (a : Answer Bool) :
    Prop where
  returns : a.Returns ↔ ∀ x ∈ xs, x.Taken host
  refused : a.1 = .ok false → Refused s a.2
  reached : a.1 = .ok true → ∃ larger x, xs = larger ++ [x] ∧ Reached host s larger.length [x] a.2
  given : Given host s xs a.2

/-- Without an event for the codec there is a refusal. -/
theorem Answers.refuse {t : ReportSession} (h : Refused s t) : Answers host s [] (.ok false, t) :=
  ⟨by simp, fun _ => h, fun h => (by cases h), given_nothing h.sunk⟩

/-- The codec did not take the event, and its error escaped. -/
theorem answers_threw {x : Handed} {xs : List Handed} {err : ProtocolError}
    (h : ¬ x.Taken host) : Answers host s (x :: xs) (.error err, s.build) :=
  ⟨by simp [h], fun h => (by cases h), fun h => (by cases h), given_nothing rfl⟩

/-- The last event was dropped. -/
theorem answers_dropped {x : Handed} {t : ReportSession} (h : x.Taken host) (ht : Refused s t) :
    Answers host s [x] (.ok false, t) :=
  ⟨by simp [h], fun _ => ht, fun h => (by cases h), given_nothing ht.sunk⟩

theorem answers_took {x : Handed} {e : AnyEvent} (h : x.Taken host) (hx : x.WrittenAs host e) :
    Answers host s [x] (.ok true, s.build.took e) :=
  ⟨by simp [h], fun h => (by cases h), fun _ => ⟨[], x, rfl, reached_took hx⟩, given_took hx⟩

theorem acceptsSessionEvents_accepts (what : Text) :
    (s.accepts = true ∧ acceptsSessionEvents s what = (true, s)) ∨
      s.accepts = false ∧ ∃ t, acceptsSessionEvents s what = (false, t) ∧ Refused s t := by
  unfold acceptsSessionEvents ReportSession.accepts
  by_cases hlost : s.terminalOutcomeLost = true
  · rw [if_pos hlost]
    exact .inr ⟨by simp [hlost], _, rfl, refused_drop _ _ _⟩
  · rw [if_neg hlost]
    by_cases hactive : s.lifecycle = .active
    · rw [if_pos hactive]
      exact .inl ⟨by simp [hlost, hactive], rfl⟩
    · rw [if_neg hactive]
      exact .inr ⟨by simp [hactive], _, rfl, refused_drop _ _ _⟩

/-- The forms handed over depend on the draw and the number alone. -/
theorem handedOutcome_congr (status : SessionStatus) (outcome : SessionFinishedPayload)
    {t : ReportSession} (hbuilt : s.built = t.built) (hsequence : s.sequence = t.sequence) :
    handedOutcome host status outcome s = handedOutcome host status outcome t := by
  induction hn : reductions outcome using Nat.strong_induction_on generalizing outcome s t with
  | _ n ih =>
      have hnext : s.next (.sessionFinished outcome) = t.next (.sessionFinished outcome) := by
        simp [ReportSession.next, hbuilt, hsequence]
      have hevent : candidate host s (.sessionFinished outcome) =
          candidate host t (.sessionFinished outcome) := by
        simp [candidate, hbuilt, hsequence]
      have hsize : oversize host s (.sessionFinished outcome) =
          oversize host t (.sessionFinished outcome) := by
        rw [oversize, hevent, oversize]
      have hbuild : s.build.built = t.build.built := congrArg Nat.succ hbuilt
      rw [handedOutcome, handedOutcome.eq_def host status outcome t, hnext, hsize]
      split_ifs with hbig hf hr
      · rw [ih _ (by rw [← hn]; simp [reductions, hf]) _ hbuild hsequence rfl]
      · rw [ih _ (by rw [← hn]; simp [reductions, hr]) _ hbuild hsequence rfl]
      · rfl
      · rfl

/-- A written event may move the session on. -/
theorem Answers.enter {xs : List Handed} {a : Answer Bool} (state : SessionState) :
    Answers host s xs a → Answers host s xs
      (match a with
        | (.ok true, t) => (.ok true, t.enter state)
        | other => other) := by
  intro h
  obtain ⟨_ | _ | _, t⟩ := a
  · exact h
  · exact h
  · refine ⟨by simp [← h.returns], fun hfalse => (by cases hfalse), fun htrue => ?_, h.given⟩
    obtain ⟨larger, x, hxs, hsunk, hsequence, hdropped, hproblems⟩ := h.reached htrue
    exact ⟨larger, x, hxs, hsunk, hsequence, hdropped, hproblems⟩

section envelope
variable (hrun : isIdentifier host.runId = true) (hsession : isIdentifier host.sessionId = true)
include hrun hsession

theorem writeOne_answers (payload : Payload) :
    Answers host s [s.next payload] (writeOne host s payload) := by
  have hw := write_taken (s := s) hrun hsession payload true
  unfold writeOne
  generalize write host s payload true = w at hw ⊢
  cases hw with
  | threw htaken => exact answers_threw htaken
  | tooLarge htaken hsize =>
      exact answers_dropped htaken ⟨Nat.lt_succ_self _, ⟨_, by simp, rfl⟩, rfl, rfl⟩
  | written htaken hsize hsink hwritten => exact answers_took htaken hwritten
  | sinkFailure htaken =>
      exact answers_dropped htaken ⟨Nat.lt_succ_self _, ⟨_, by simp, rfl⟩, rfl, rfl⟩

theorem finishLoop_answers (status : SessionStatus) (outcome : SessionFinishedPayload) :
    Answers host s (handedOutcome host status outcome s) (finishLoop host status outcome s) := by
  induction hn : reductions outcome using Nat.strong_induction_on generalizing outcome s with
  | _ n ih =>
      have hw := write_taken (s := s) hrun hsession (.sessionFinished outcome) false
      rw [finishLoop, handedOutcome]
      generalize write host s (.sessionFinished outcome) false = w at hw ⊢
      cases hw with
      | threw htaken => exact answers_threw htaken
      | written htaken hsize hsink hwritten =>
          rw [if_neg (by simp [hsize])]
          exact Answers.enter .sessionFinished (answers_took htaken hwritten)
      | sinkFailure htaken hsize hsink =>
          rw [if_neg (by simp [hsize])]
          have hfirst : Refused s (s.build.refused.drop.problem .sinkFailure
              (txt "cannot write " ++ (Payload.sessionFinished outcome).eventType.text)) :=
            ⟨Nat.lt_succ_self _, ⟨[_], by simp, rfl⟩, rfl, rfl⟩
          obtain ⟨hdropped, htold, hsunk, hsequence⟩ := hfirst.tell .terminalOutcomeNotWritten
            (txt "session outcome " ++ status.text ++
              txt " could not be written because the sink failed; no session.finished is emitted and the session stays open")
          exact answers_dropped htaken ⟨hdropped, htold, hsunk, hsequence⟩
      | tooLarge htaken hsize =>
          rename_i bytes
          rw [if_pos hsize]
          dsimp only [Bool.false_eq_true, if_false]
          have hretry : ∀ (smaller : SessionFinishedPayload) (message : Text),
              reductions smaller < n →
              Answers host s (s.next (.sessionFinished outcome) ::
                  handedOutcome host status smaller s.build)
                (finishLoop host status smaller
                  (s.build.drop.problem .eventTooLarge message)) := by
            intro smaller message hsmaller
            have hsame : handedOutcome host status smaller
                (s.build.drop.problem .eventTooLarge message) =
                handedOutcome host status smaller s.build :=
              handedOutcome_congr status smaller rfl rfl
            have hnext := ih _ hsmaller smaller rfl (s := s.build.drop.problem .eventTooLarge message)
            rw [hsame] at hnext
            refine ⟨by simp [htaken, hnext.returns], fun h => ?_, fun h => ?_,
              Given.after (given_nothing rfl) hnext.given⟩
            · have hfirst : Refused s (s.build.drop.problem .eventTooLarge message) :=
                ⟨Nat.lt_succ_self _, ⟨[_], by simp, rfl⟩, rfl, rfl⟩
              exact hfirst.trans (hnext.refused h)
            · obtain ⟨larger, x, hxs, hreached⟩ := hnext.reached h
              exact ⟨_ :: larger, x, congrArg (_ :: ·) hxs, hreached.after⟩
          by_cases hf : hasFailures outcome = true
          · rw [if_pos hf, if_pos hf]
            refine hretry _ _ ?_
            rw [← hn]
            simp [reductions, hf]
          · rw [if_neg hf, if_neg hf]
            by_cases hr : outcome.rawStatus.isSome = true
            · rw [if_pos hr, if_pos hr]
              refine hretry _ _ ?_
              rw [← hn]
              simp [reductions, hr]
            · rw [if_neg hr, if_neg hr]
              exact answers_dropped htaken ⟨Nat.lt_succ_self _, ⟨[_], by simp, rfl⟩, rfl, rfl⟩

theorem finish_answers (outcome : SessionFinishedPayload) :
    Answers host s (handedFinish host s outcome) (finish host s outcome) := by
  unfold finish handedFinish
  cases hv : outcomeViolation outcome with
  | some violation =>
      rw [if_neg (by simp)]
      exact .refuse (refused_drop _ _ _)
  | none =>
      dsimp only
      rcases acceptsSessionEvents_accepts (s := s) (txt "event session.finished") with
        ⟨haccepts, heq⟩ | ⟨haccepts, t, heq, hrefused⟩
      · rw [heq, if_pos ⟨rfl, haccepts⟩]
        dsimp only
        cases hstatus : outcome.status with
        | none => exact Answers.enter .sessionFinished (writeOne_answers hrun hsession _)
        | some status => exact finishLoop_answers hrun hsession status outcome
      · rw [heq, if_neg (by simp [haccepts])]
        exact .refuse hrefused

end envelope

/-! ### What the session promises -/

/-- An event was rejected: it is counted and told of, and took no number.  Before a `run.finished`
a `session.finished` may have been accepted. -/
structure Rejected (input : Payload) (s s' : ReportSession) : Prop where
  dropped : s.dropped < s'.dropped
  problems : ∃ told, told ≠ [] ∧ s'.problems = s.problems ++ told
  sequence : ∃ accepted, s'.sunk = s.sunk ++ accepted ∧
    s'.sequence = s.sequence + accepted.length ∧
    ∀ e ∈ accepted, input = .runFinished ∧ e.eventType = EventType.sessionFinished.text

theorem Refused.rejected {t : ReportSession} (h : Refused s t) (input : Payload) :
    Rejected input s t :=
  ⟨h.dropped, h.problems, [], by rw [h.sunk, List.append_nil], h.sequence, by simp⟩

/-- The event reached the sink, the last of those handed over; nothing was dropped but the larger
forms of an outcome.  With a `run.finished` a `session.finished` is written before it. -/
def Delivered (host : Outside) (input : Payload) (s s' : ReportSession) : Prop :=
  ∃ larger before x, handedEmit host s input = larger ++ (before ++ [x]) ∧
    x.payload.eventType = input.eventType ∧
    (larger ≠ [] → input.eventType = .sessionFinished) ∧
    (∀ y ∈ before, input = .runFinished ∧ y.payload = .sessionFinished emptyOutcome) ∧
    Reached host s larger.length (before ++ [x]) s'

/-- The request returns; an event `emit` answers `false` about is rejected, and one it answers
`true` about reached the sink. -/
structure Graceful (host : Outside) (s : ReportSession) (r : Request) : Prop where
  returns : (request host s r).Returns
  rejected : ∀ input, r = .call (.emit input) →
    (request host s r).1 = .ok false → Rejected input s (request host s r).2
  delivered : ∀ input, r = .call (.emit input) →
    (request host s r).1 = .ok true → Delivered host input s (request host s r).2

/-- What is kept of one `emit`. -/
structure Emitted (host : Outside) (input : Payload) (s : ReportSession) (a : Answer Bool) :
    Prop where
  returns : a.Returns ↔ ∀ x ∈ handedEmit host s input, x.Taken host
  rejected : a.1 = .ok false → Rejected input s a.2
  delivered : a.1 = .ok true → Delivered host input s a.2
  given : Given host s (handedEmit host s input) a.2

/-- With one form of the event handed over, or the forms of an outcome. -/
theorem Answers.emitted {input : Payload} {a : Answer Bool}
    (h : Answers host s (handedEmit host s input) a)
    (htype : ∀ x ∈ handedEmit host s input, x.payload.eventType = input.eventType)
    (hone : (handedEmit host s input).length ≤ 1 ∨ input.eventType = .sessionFinished) :
    Emitted host input s a := by
  refine ⟨h.returns, fun hfalse => (h.refused hfalse).rejected _, fun htrue => ?_, h.given⟩
  obtain ⟨larger, x, hxs, hreached⟩ := h.reached htrue
  refine ⟨larger, [], x, hxs, htype x (by simp [hxs]), fun hne => ?_, by simp, hreached⟩
  rcases hone with hone | hone
  · rw [hxs, List.length_append, List.length_singleton] at hone
    exact absurd (List.length_eq_zero_iff.mp (by omega)) hne
  · exact hone

/-- `finishRun` on an active session, after what becomes of `session.finished`. -/
theorem finishRun_active (haccepts : s.accepts = true) : finishRun host s =
    match writeOne host s (.sessionFinished emptyOutcome) with
    | (.ok true, t) => writeRunFinished host (t.enter .sessionFinished)
    | other => other := by
  have hstate : s.lifecycle = .active ∧ s.terminalOutcomeLost = false := by
    simpa [ReportSession.accepts] using haccepts
  have haccept : acceptsSessionEvents s (txt "event session.finished") = (true, s) := by
    simp [acceptsSessionEvents, hstate]
  have hv : outcomeViolation emptyOutcome = none := rfl
  have hstatus : emptyOutcome.status = none := rfl
  unfold finishRun finish
  rw [if_neg (by simp [hstate.2]), if_pos hstate.1, hv, haccept]
  dsimp only
  rw [hstatus]
  dsimp only
  generalize writeOne host s (.sessionFinished emptyOutcome) = a
  obtain ⟨_ | _ | _, t⟩ := a
  · rfl
  · rfl
  · rfl

/-- The forms of an outcome are all of `session.finished`. -/
theorem handedOutcome_type (status : SessionStatus) (outcome : SessionFinishedPayload) :
    ∀ x ∈ handedOutcome host status outcome s, x.payload.eventType = .sessionFinished := by
  induction hn : reductions outcome using Nat.strong_induction_on generalizing outcome s with
  | _ n ih =>
      intro x hx
      rw [handedOutcome] at hx
      rcases List.mem_cons.mp hx with rfl | hx
      · rfl
      · split_ifs at hx with hbig hf hr
        · exact ih _ (by rw [← hn]; simp [reductions, hf]) _ rfl x hx
        · exact ih _ (by rw [← hn]; simp [reductions, hr]) _ rfl x hx
        · cases hx
        · cases hx

theorem handedFinish_type (outcome : SessionFinishedPayload) :
    ∀ x ∈ handedFinish host s outcome, x.payload.eventType = .sessionFinished := by
  intro x hx
  unfold handedFinish at hx
  split_ifs at hx with h
  · cases hstatus : outcome.status with
    | none =>
        rw [hstatus] at hx
        rw [List.mem_singleton.mp hx]
        rfl
    | some status =>
        rw [hstatus] at hx
        exact handedOutcome_type status outcome x hx
  · cases hx

theorem storeFailed_sunk (s : ReportSession) (input : AttachmentInput) (e : StoreFailure) :
    (storeFailed s input e).sunk = s.sunk := by
  cases e with
  | tooLarge => rfl
  | other => rfl

theorem closeSink_sunk (s : ReportSession) : (closeSink host s).sunk = s.sunk := by
  unfold closeSink
  split_ifs
  · rfl
  · rfl

section envelope
variable (hrun : isIdentifier host.runId = true) (hsession : isIdentifier host.sessionId = true)
include hrun hsession

theorem writeRunFinished_answers :
    Answers host s (if s.lifecycle = .sessionFinished then [s.next .runFinished] else [])
      (writeRunFinished host s) := by
  unfold writeRunFinished
  by_cases hstate : s.lifecycle = .sessionFinished
  · rw [if_pos hstate, if_neg (not_not.mpr hstate)]
    exact Answers.enter .runFinished (writeOne_answers hrun hsession _)
  · rw [if_neg hstate, if_pos hstate]
    exact .refuse (refused_drop _ _ _)

theorem finishRun_answers : Emitted host .runFinished s (finishRun host s) := by
  have hrefuse : ∀ {t : ReportSession}, handedFinishRun host s = [] → Refused s t →
      Emitted host .runFinished s (.ok false, t) := by
    intro t hnothing ht
    have hemit : handedEmit host s .runFinished = [] := hnothing
    exact ⟨by simp [hemit], fun _ => ht.rejected _, fun h => (by cases h), given_nothing ht.sunk⟩
  have hone : ∀ {t : ReportSession}, (s.next (.sessionFinished emptyOutcome)).Taken host →
      handedFinishRun host s = [s.next (.sessionFinished emptyOutcome)] → Refused s t →
      Emitted host .runFinished s (.ok false, t) := by
    intro t htaken hhanded ht
    have hemit : handedEmit host s .runFinished = [s.next (.sessionFinished emptyOutcome)] := hhanded
    exact ⟨by simp [hemit, htaken], fun _ => ht.rejected _, fun h => (by cases h),
      given_nothing ht.sunk⟩
  by_cases haccepts : s.accepts = true
  · have hhanded : handedFinishRun host s = s.next (.sessionFinished emptyOutcome) ::
        if !oversize host s (.sessionFinished emptyOutcome) && host.write s.tried then
          [⟨s.built + 1, s.sequence + 2, .runFinished⟩]
        else [] := by rw [handedFinishRun, if_pos haccepts]
    rw [finishRun_active haccepts]
    have hw := write_taken (s := s) hrun hsession (.sessionFinished emptyOutcome) true
    unfold writeOne
    generalize write host s (.sessionFinished emptyOutcome) true = w at hw ⊢
    cases hw with
    | threw htaken =>
        have hemit : handedEmit host s .runFinished = _ := hhanded
        exact ⟨by simp [hemit, htaken], fun h => (by cases h), fun h => (by cases h), given_nothing rfl⟩
    | tooLarge htaken hsize =>
        exact hone htaken (by simp [hhanded, hsize])
          ⟨Nat.lt_succ_self _, ⟨[_], by simp, rfl⟩, rfl, rfl⟩
    | sinkFailure htaken hsize hsink =>
        exact hone htaken (by simp [hhanded, hsink])
          ⟨Nat.lt_succ_self _, ⟨[_], by simp, rfl⟩, rfl, rfl⟩
    | @written bytes e htaken hsize hsink hwritten =>
        rw [if_pos (by simp [hsize, hsink])] at hhanded
        have hemit : handedEmit host s .runFinished = [s.next (.sessionFinished emptyOutcome),
            ⟨s.built + 1, s.sequence + 2, .runFinished⟩] := hhanded
        have hlast := writeRunFinished_answers (s := (s.build.took e).enter .sessionFinished)
          hrun hsession
        have hstate : ((s.build.took e).enter .sessionFinished).lifecycle = .sessionFinished := rfl
        rw [if_pos hstate] at hlast
        refine ⟨?_, fun h => ?_, fun h => ?_, ?_⟩
        · rw [hemit, List.forall_mem_cons]
          exact hlast.returns.trans ⟨fun h => ⟨htaken, h⟩, And.right⟩
        · obtain ⟨hdropped, htold, hsunk, hsequence⟩ := hlast.refused h
          refine ⟨hdropped, htold, [e], hsunk, hsequence, fun x hx => ?_⟩
          rw [List.mem_singleton.mp hx]
          exact ⟨rfl, hwritten.eventType⟩
        · obtain ⟨larger, x, hxs, hreached⟩ := hlast.reached h
          obtain ⟨rfl, rfl⟩ : larger = [] ∧ x = ((s.build.took e).enter .sessionFinished).next
              .runFinished := by simpa [List.singleton_eq_append_iff] using hxs
          refine ⟨[], [s.next (.sessionFinished emptyOutcome)], _, hemit, rfl, by simp, ?_,
            hreached.before hwritten⟩
          intro y hy
          rw [List.mem_singleton.mp hy]
          exact ⟨rfl, rfl⟩
        · rw [hemit]
          exact Given.after (given_took hwritten) hlast.given
  · have hstate : s.lifecycle = .active → s.terminalOutcomeLost = true := by
      intro hactive
      simpa [ReportSession.accepts, hactive] using haccepts
    unfold finishRun
    by_cases hlost : s.terminalOutcomeLost = true
    · rw [if_pos hlost]
      exact hrefuse (by simp [handedFinishRun, haccepts, hlost]) (refused_drop _ _ _)
    · have hactive : s.lifecycle ≠ .active := fun h => hlost (hstate h)
      rw [if_neg hlost, if_neg hactive]
      have hhanded : handedEmit host s .runFinished =
          if s.lifecycle = .sessionFinished then [s.next .runFinished] else [] := by
        simp [handedEmit, handedFinishRun, haccepts, hlost]
      have hlast := writeRunFinished_answers (s := s) hrun hsession
      rw [← hhanded] at hlast
      refine hlast.emitted (fun x hx => ?_) (.inl ?_)
      · rw [hhanded] at hx
        split_ifs at hx
        · rw [List.mem_singleton.mp hx]
          rfl
        · cases hx
      · rw [hhanded]
        split_ifs <;> simp

theorem emit_ordinary_answers {payload : Payload} (hordinary : isOrdinary payload = true) :
    Answers host s (if s.accepts then [s.next payload] else []) (emit host s payload) := by
  rw [emit_ordinary hordinary]
  rcases acceptsSessionEvents_accepts (s := s) (txt "event " ++ payload.eventType.text) with
    ⟨haccepts, heq⟩ | ⟨haccepts, t, heq, hrefused⟩
  · rw [heq, if_pos haccepts]
    exact writeOne_answers hrun hsession payload
  · rw [heq, if_neg (by simp [haccepts])]
    exact .refuse hrefused

theorem attach_returns (input : AttachmentInput) (bytes : List ℕ) :
    (attach host s input bytes).Returns ↔
      ∀ x ∈ handedAttach host s input bytes, x.Taken host := by
  unfold attach handedAttach
  rcases acceptsSessionEvents_accepts (s := s) (txt "attachment " ++ input.name) with
    ⟨haccepts, heq⟩ | ⟨haccepts, t, heq, -⟩
  · rw [heq]
    dsimp only
    cases host.storeAttachment s.stored (contentOf host input bytes) with
    | error e => simp
    | ok stored =>
        exact (emit_ordinary_answers (s := { s with stored := s.stored + 1 }) hrun hsession
          rfl).returns
  · rw [heq]
    cases host.storeAttachment s.stored (contentOf host input bytes) with
    | error e => simp
    | ok stored => simp [haccepts]

theorem attachFileSync_returns (input : AttachmentInput) (file : SourceFile) :
    (attachFileSync host s input file).Returns ↔
      ∀ x ∈ handed host s (.attachFileSync input file), x.Taken host := by
  have hattach := fun bytes => attach_returns (s := s) hrun hsession input bytes
  rw [handed]
  unfold attachFileSync
  rcases acceptsSessionEvents_accepts (s := s) (txt "attachment " ++ input.name) with
    ⟨haccepts, heq⟩ | ⟨haccepts, t, heq, -⟩
  · rw [heq]
    rcases readBounded host.maxAttachmentBytes file with _ | _ | bytes
    · simp
    · simp
    · exact hattach bytes
  · rw [heq]
    rcases readBounded host.maxAttachmentBytes file with _ | _ | bytes
    · simp
    · simp
    · have hreturns : (attach host s input bytes).Returns := by
        unfold attach
        simp [heq]
      simpa using (hattach bytes).mp hreturns

theorem close_returns : (close host s).Returns ↔
    ∀ x ∈ handed host s (.call .close), x.Taken host := by
  have hfinish := (finish_answers (s := s) hrun hsession emptyOutcome).returns
  unfold close
  rw [handed]
  by_cases hclosed : s.lifecycle = .closed
  · rw [if_pos hclosed, if_pos hclosed]
    simp
  · rw [if_neg hclosed, if_neg hclosed, ← hfinish]
    by_cases hactive : s.lifecycle = .active ∧ s.terminalOutcomeLost = false
    · rw [if_pos hactive]
      generalize finish host s emptyOutcome = a
      obtain ⟨_ | _, t⟩ := a
      · simp
      · simp
    · rw [if_neg hactive]
      have hempty : handedFinish host s emptyOutcome = [] := by
        refine if_neg (fun h => hactive ?_)
        simpa [ReportSession.accepts] using h.2
      rw [hfinish, hempty]
      simp

theorem emit_answers (input : Payload) : Emitted host input s (emit host s input) := by
  have hordinary : isOrdinary input = true →
      handedEmit host s input = if s.accepts then [s.next input] else [] := by
    intro h
    cases input with
    | sessionFinished p => cases h
    | runFinished => cases h
    | sessionStarted p => rfl
    | attemptStarted p => rfl
    | attemptFinished p => rfl
    | stepStarted p => rfl
    | stepFinished p => rfl
    | attachmentAdded p => rfl
    | scopeFailed p => rfl
  by_cases h : isOrdinary input = true
  · have hanswers := emit_ordinary_answers (s := s) hrun hsession h
    rw [← hordinary h] at hanswers
    refine hanswers.emitted (fun x hx => ?_) (.inl ?_)
    · rw [hordinary h] at hx
      split_ifs at hx
      · rw [List.mem_singleton.mp hx]
        rfl
      · cases hx
    · rw [hordinary h]
      split_ifs <;> simp
  · cases input with
    | sessionFinished outcome =>
        exact (finish_answers (s := s) hrun hsession outcome).emitted (handedFinish_type outcome)
          (.inr rfl)
    | runFinished => exact finishRun_answers hrun hsession
    | sessionStarted p => exact absurd rfl h
    | attemptStarted p => exact absurd rfl h
    | attemptFinished p => exact absurd rfl h
    | stepStarted p => exact absurd rfl h
    | stepFinished p => exact absurd rfl h
    | attachmentAdded p => exact absurd rfl h
    | scopeFailed p => exact absurd rfl h

theorem request_returns (s : ReportSession) (r : Request) :
    (request host s r).Returns ↔ ∀ x ∈ handed host s r, x.Taken host := by
  cases r with
  | attachFileSync input file => exact attachFileSync_returns hrun hsession input file
  | call c =>
      cases c with
      | emit input => exact (emit_answers hrun hsession input).returns
      | attach input bytes => exact attach_returns hrun hsession input bytes
      | finish outcome => exact (finish_answers hrun hsession outcome).returns
      | finishRun => exact (finishRun_answers hrun hsession).returns
      | close => exact close_returns hrun hsession

/-- What a call gives the sink is among the events it hands to the codec. -/
theorem call_given (s : ReportSession) (c : Call) :
    Given host s (handed host s (.call c)) (call host s c).2 := by
  cases c with
  | emit input => exact (emit_answers hrun hsession input).given
  | attach input bytes =>
      change Given host s (handedAttach host s input bytes) (attach host s input bytes).2
      unfold attach handedAttach
      rcases acceptsSessionEvents_accepts (s := s) (txt "attachment " ++ input.name) with
        ⟨haccepts, heq⟩ | ⟨haccepts, t, heq, hrefused⟩
      · rw [heq]
        dsimp only
        cases host.storeAttachment s.stored (contentOf host input bytes) with
        | error e => exact given_nothing (storeFailed_sunk _ _ _)
        | ok stored =>
            exact (emit_ordinary_answers (s := { s with stored := s.stored + 1 }) hrun hsession
              rfl).given
      · rw [heq]
        exact given_nothing hrefused.sunk
  | finish outcome => exact (finish_answers hrun hsession outcome).given
  | finishRun => exact (finishRun_answers hrun hsession).given
  | close =>
      change Given host s (handed host s (.call .close)) (close host s).2
      have hfinish := (finish_answers (s := s) hrun hsession emptyOutcome).given
      unfold close
      rw [handed]
      by_cases hclosed : s.lifecycle = .closed
      · rw [if_pos hclosed, if_pos hclosed]
        exact given_nothing rfl
      · rw [if_neg hclosed, if_neg hclosed]
        by_cases hactive : s.lifecycle = .active ∧ s.terminalOutcomeLost = false
        · rw [if_pos hactive]
          revert hfinish
          generalize finish host s emptyOutcome = a
          obtain ⟨_ | _, t⟩ := a
          · exact id
          · intro hfinish
            exact hfinish.congr (closeSink_sunk _)
        · rw [if_neg hactive]
          exact given_nothing (closeSink_sunk _)

/-- A request on a session returns, with every event it answers `false` about counted, told of
and without a number, and every one it answers `true` about at the sink, exactly when the codec
takes all it is handed. -/
theorem never_throws (s : ReportSession) (r : Request) :
    Graceful host s r ↔ ∀ x ∈ handed host s r, x.Taken host := by
  rw [← request_returns hrun hsession s r]
  refine ⟨Graceful.returns, fun h => ⟨h, fun input heq hfalse => ?_, fun input heq htrue => ?_⟩⟩
  · subst heq
    exact (emit_answers hrun hsession input).rejected hfalse
  · subst heq
    exact (emit_answers hrun hsession input).delivered htrue

end envelope

end session

/-- A session of `plainHost`, just started. -/
def startedSession (write : ℕ → Bool) : ReportSession :=
  (start (plainHost 1000 thousand_le write) samplePayload).2

/-- `attempt.finished` of an attempt without an id: the error of the codec escapes `emit`. -/
theorem never_throws_empty_id :
    let host : Outside := (plainHost 1000 (by decide) (fun _ => true)).toOutside
    let s := startedSession (fun _ => true)
    s.lifecycle = .active ∧
      ¬ Graceful host s (.call (.emit (.attemptFinished ⟨[], .passed, none, none, none, none⟩))) := by
  refine ⟨by decide +kernel, fun h => ?_⟩
  obtain ⟨answer, hanswer⟩ := h.returns
  have hthrows : (request (plainHost 1000 (by decide) (fun _ => true)).toOutside
      (startedSession (fun _ => true))
      (.call (.emit (.attemptFinished ⟨[], .passed, none, none, none, none⟩)))).1.toBool = false := by
    decide +kernel
  rw [hanswer] at hthrows
  cases hthrows

/-- The same with an id, to a sink that refuses it. -/
theorem never_throws_refused :
    Graceful (plainHost 1000 (by decide) (fun n => n = 0)).toOutside
      (startedSession (fun n => n = 0))
      (.call (.emit (.attemptFinished ⟨txt "a1", .passed, none, none, some 5, none⟩))) := by
  refine (never_throws rfl rfl _ _).mpr (fun x hx => ?_)
  have hhanded : handed (plainHost 1000 (by decide) (fun n => n = 0)).toOutside
      (startedSession (fun n => n = 0))
      (.call (.emit (.attemptFinished ⟨txt "a1", .passed, none, none, some 5, none⟩))) =
      [⟨1, 2, .attemptFinished ⟨txt "a1", .passed, none, none, some 5, none⟩⟩] := by
    decide +kernel
  rw [hhanded] at hx
  obtain rfl := List.mem_singleton.mp hx
  refine ⟨by decide, by decide, by decide, by decide, ?_, by simp [FailuresReadable]⟩
  intro n hn
  obtain rfl := Option.some.inj hn
  decide

end Sdk

end QeReport

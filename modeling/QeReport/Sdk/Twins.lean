import QeReport.Protocol.Plain
import QeReport.Sdk.JavaSession
import QeReport.Sdk.Outcome

/-! # The two sessions as one machine

The sessions of the two bindings run in step (`Twin`): the same calls give the same answers, hand
corresponding events to the sink and report the same kinds of problems, as long as the two make
the same of the texts and the bytes they are given, and the integers are safe in both languages
(`sessions_in_step`). -/

namespace QeReport.Sdk

/-! ### Redaction in both bindings -/

/-- The numbers of a payload as it is written are safe integers. -/
def PlainPayload (p : Payload) : Prop := allNumbersMembers isPlainSafe (writePayload p) = true

mutual

/-- The strings that the walk redacts. -/
def freeTexts : Json → List Text
  | .str s => [s]
  | .arr items => freeTextsItems items
  | .obj members => freeTextsMembers members
  | _ => []

def freeTextsItems : List Json → List Text
  | [] => []
  | v :: vs => freeTexts v ++ freeTextsItems vs

def freeTextsMembers : List (Text × Json) → List Text
  | [] => []
  | (k, v) :: ms => (if k ∈ structuralKeys then [] else freeTexts v) ++ freeTextsMembers ms

end

section alike
variable {f f' : Text → Text}

mutual

/-- The walk depends on its redactor at these strings alone. -/
theorem walk_congr : ∀ v : Json, (∀ t ∈ freeTexts v, f' t = f t) → walk f' v = walk f v
  | .null, _ => rfl
  | .bool _, _ => rfl
  | .str s, h => by rw [walk, walk, h s (by simp [freeTexts])]
  | .num _, _ => rfl
  | .arr items, h => by rw [walk, walk, walkItems_congr items h]
  | .obj ms, h => by rw [walk, walk, walkMembers_congr ms h]

theorem walkItems_congr : ∀ items : List Json, (∀ t ∈ freeTextsItems items, f' t = f t) →
    walkItems f' items = walkItems f items
  | [], _ => rfl
  | v :: vs, h => by
      rw [freeTextsItems, List.forall_mem_append] at h
      rw [walkItems, walkItems, walk_congr v h.1, walkItems_congr vs h.2]

theorem walkMembers_congr : ∀ ms : List (Text × Json), (∀ t ∈ freeTextsMembers ms, f' t = f t) →
    walkMembers f' ms = walkMembers f ms
  | [], _ => rfl
  | (k, v) :: ms, h => by
      rw [freeTextsMembers, List.forall_mem_append] at h
      rw [walkMembers, walkMembers, walkMembers_congr ms h.2]
      by_cases hk : k ∈ structuralKeys
      · rw [if_pos hk, if_pos hk]
      · rw [if_neg hk, if_neg hk]
        rw [if_neg hk] at h
        rw [walk_congr v h.1]

end

end alike

/-- The two redactors make the same of every string of the payload they are given. -/
def RedactAlike (f f' : Text → Text) (p : Payload) : Prop :=
  ∀ t ∈ freeTextsMembers (writePayload p), f' t = f t

instance decidableRedactAlike (f f' : Text → Text) (p : Payload) :
    Decidable (RedactAlike f f' p) := List.decidableBAll ..

/-- Of an event only its payload is redacted. -/
theorem walkPayload_congr {f f' : Text → Text} {e : Event} (h : RedactAlike f f' e.payload) :
    walkPayload f' (eventToObject (.known e)) = walkPayload f (eventToObject (.known e)) := by
  have hpayload : writePayload (redactPayload f' e.payload) =
      writePayload (redactPayload f e.payload) := by
    rw [← walkMembers_writePayload, walkMembers_congr _ h, walkMembers_writePayload]
  rw [walkPayload_eventToObject, walkPayload_eventToObject]
  simp only [eventToObject, AnyEvent.envelope, AnyEvent.eventType, AnyEvent.payloadObject, redacted,
    hpayload, redactPayload_eventType]

section numbers
variable (p : JsNumber → Bool) (f : Text → Text)

mutual

theorem allNumbers_walk : ∀ v : Json, allNumbers p (walk f v) = allNumbers p v
  | .null => rfl
  | .bool _ => rfl
  | .str _ => rfl
  | .num _ => rfl
  | .arr items => by rw [walk, allNumbers, allNumbers, allNumbersItems_walk items]
  | .obj ms => by rw [walk, allNumbers, allNumbers, allNumbersMembers_walk ms]

theorem allNumbersItems_walk : ∀ items : List Json,
    allNumbersItems p (walkItems f items) = allNumbersItems p items
  | [] => rfl
  | v :: vs => by
      rw [walkItems, allNumbersItems, allNumbersItems, allNumbers_walk v, allNumbersItems_walk vs]

theorem allNumbersMembers_walk : ∀ ms : List (Text × Json),
    allNumbersMembers p (walkMembers f ms) = allNumbersMembers p ms
  | [] => rfl
  | (k, v) :: ms => by
      rw [walkMembers, allNumbersMembers, allNumbersMembers, allNumbersMembers_walk ms]
      split_ifs
      · rfl
      · rw [allNumbers_walk v]

end

end numbers

/-- The numbers of a written event are those of its payload and its sequence. -/
theorem allNumbers_eventToObject {e : Event} (hpayload : PlainPayload e.payload)
    (hsafe : isSafe e.sequence) {root : Obj} (hroot : eventToObject (.known e) = .obj root) :
    allNumbersMembers isPlainSafe root = true := by
  obtain rfl := Json.obj.inj hroot
  have hsequence := (isPlainSafe_ofInt e.sequence).mpr hsafe
  have hplain : allNumbersMembers isPlainSafe (writePayload e.payload) = true := hpayload
  cases hi : e.ignorable <;>
    simp [omitUndefined, writeText, writeInt, allNumbersMembers, allNumbers, AnyEvent.envelope,
      AnyEvent.payloadObject, hsequence, hplain, hi]

theorem redactPayload_plain {f : Text → Text} {payload : Payload} (h : PlainPayload payload) :
    PlainPayload (redactPayload f payload) := by
  unfold PlainPayload at h ⊢
  rw [← walkMembers_writePayload, allNumbersMembers_walk]
  exact h

/-- Both bindings redact one event alike. -/
theorem redactEvent_agree {f : Text → Text} {e : Event} (hpayload : PlainPayload e.payload)
    (hsafe : isSafe e.sequence) (hversion : e.protocolVersion = txt "0.3.0") :
    Agree (redactEvent f (.known e)) (Java.redactEvent f (.known e)) := by
  obtain ⟨root, hroot, hmember, -⟩ := eventToObject_member (redacted f e)
  have hnumbers : allNumbersMembers isPlainSafe root = true :=
    allNumbers_eventToObject (e := redacted f e) (redactPayload_plain hpayload) hsafe hroot
  have hread : req? root (txt "protocolVersion") text? = some (txt "0.3.0") := by
    have hpresent : present root (txt "protocolVersion") = some (.str (txt "0.3.0")) := by
      unfold present
      rw [hmember]
      exact congrArg (fun v => some (Json.str v)) hversion
    rw [req?, hpresent]
    rfl
  rw [redactEvent_eq, Java.redactEvent, walkPayload_eventToObject, hroot]
  exact agree_of_plain hnumbers hread

/-- A written event of a supported version is refused for nothing but the schema. -/
theorem redactEvent_schema {f : Text → Text} {e : Event}
    (hversion : e.protocolVersion = txt "0.3.0") : SchemaOnly (redactEvent f (.known e)) := by
  obtain ⟨root, hroot, hmember, -, -, -, -, -, -, -, hpayload⟩ := eventToObject_member (redacted f e)
  have hread : requiredString root (txt "protocolVersion") [] = .ok (txt "0.3.0") :=
    requiredString_of (hmember.trans (congrArg writeText hversion))
  rw [redactEvent_eq, hroot, eventFromObject]
  cases henvelope : readEnvelope root with
  | error err =>
      intro err' h
      obtain rfl := Except.error.inj h
      exact readEnvelope_schema root hread rfl err henvelope
  | ok r =>
      obtain ⟨-, rfl⟩ := (readEnvelope_written hroot).mp henvelope
      simp only [bind, Except.bind, hpayload, knownEventType_text]
      exact .map _ (readPayload_schema _ _)

/-! ### Corresponding sessions -/

/-- The two events carry one payload under one sequence number. -/
def Corresponds : AnyEvent → AnyEvent → Prop
  | .known e, .known e' => e.sequence = e'.sequence ∧ e.payload.normal = e'.payload.normal
  | _, _ => False

/-- The answers of two operations: the same value, or errors of one code. -/
def SameAnswer {α : Type} : Read α → Read α → Prop
  | .ok a, .ok a' => a = a'
  | .error e, .error e' => e.code = e'.code
  | _, _ => False

/-- Two sessions in corresponding states. -/
structure Twin (s s' : ReportSession) : Prop where
  sequence : s'.sequence = s.sequence
  written : s'.written = s.written
  dropped : s'.dropped = s.dropped
  lifecycle : s'.lifecycle = s.lifecycle
  terminalOutcomeLost : s'.terminalOutcomeLost = s.terminalOutcomeLost
  tried : s'.tried = s.tried
  stored : s'.stored = s.stored
  sunk : List.Forall₂ Corresponds s.sunk s'.sunk
  problems : s'.problems.map ReportProblem.kind = s.problems.map ReportProblem.kind

/-- Two operations with the same answer, leaving corresponding states. -/
structure AnswersAlike {α : Type} (a a' : Answer α) : Prop where
  answer : SameAnswer a.1 a'.1
  state : Twin a.2 a'.2

/-- The two sessions are given the same run, the same limit, sizes that are the same for
corresponding events, and a sink that answers alike. -/
structure SameOutside (host host' : Host) : Prop where
  runId : host'.runId = host.runId
  sessionId : host'.sessionId = host.sessionId
  maxEventBytes : host'.maxEventBytes = host.maxEventBytes
  size : ∀ e e', Corresponds e e' → host'.size e' = host.size e
  write : host'.write = host.write
  storeAttachment : host'.storeAttachment = host.storeAttachment
  close : host'.close = host.close

namespace Twin
variable {s s' : ReportSession}

theorem new : Twin .new .new := ⟨rfl, rfl, rfl, rfl, rfl, rfl, rfl, .nil, rfl⟩

theorem problem (h : Twin s s') (kind : ReportProblemKind) (message message' : Text) :
    Twin (s.problem kind message) (s'.problem kind message') := by
  have hproblems : (s'.problem kind message').problems.map ReportProblem.kind =
      (s.problem kind message).problems.map ReportProblem.kind := by
    simp only [ReportSession.problem, List.map_append, h.problems]
    rfl
  exact { h with problems := hproblems }

theorem drop (h : Twin s s') : Twin s.drop s'.drop := { h with dropped := congrArg (· + 1) h.dropped }

theorem lose (h : Twin s s') : Twin s.lose s'.lose := { h with terminalOutcomeLost := rfl }

theorem enter (h : Twin s s') (state : SessionState) : Twin (s.enter state) (s'.enter state) :=
  { h with lifecycle := rfl }

theorem build (h : Twin s s') : Twin s.build s'.build := { h with }

theorem refused (h : Twin s s') : Twin s.refused s'.refused :=
  { h with tried := congrArg (· + 1) h.tried }

theorem took (h : Twin s s') {e e' : AnyEvent} (he : Corresponds e e') :
    Twin (s.took e) (s'.took e') :=
  { h with
    sequence := congrArg (· + 1) h.sequence
    written := congrArg (· + 1) h.written
    tried := congrArg (· + 1) h.tried
    sunk := List.rel_append h.sunk (.cons he .nil) }

theorem store (h : Twin s s') :
    Twin { s with stored := s.stored + 1 } { s' with stored := s'.stored + 1 } :=
  { h with stored := congrArg (· + 1) h.stored }

end Twin

/-- Both operations end in an error of one code, or with one value. -/
theorem AnswersAlike.cases {α : Type} {a a' : Answer α} (h : AnswersAlike a a') :
    (∃ e e' t t', a = (.error e, t) ∧ a' = (.error e', t') ∧ e.code = e'.code ∧ Twin t t') ∨
      ∃ v t t', a = (.ok v, t) ∧ a' = (.ok v, t') ∧ Twin t t' := by
  obtain ⟨r, t⟩ := a
  obtain ⟨r', t'⟩ := a'
  cases r with
  | error e =>
      cases r' with
      | error e' => exact .inl ⟨e, e', t, t', rfl, rfl, h.answer, h.state⟩
      | ok v => exact h.answer.elim
  | ok v =>
      cases r' with
      | error e' => exact h.answer.elim
      | ok v' =>
          obtain rfl : v = v' := h.answer
          exact .inr ⟨v, t, t', rfl, rfl, h.state⟩

/-! ### One event -/

section operations
variable {host host' : Host} {s s' : ReportSession}

/-- Both bindings make the same of the payload: its numbers are safe, and its strings are redacted
alike. -/
structure PayloadAlike (host host' : Host) (p : Payload) : Prop where
  plain : PlainPayload p
  texts : RedactAlike host.redactText host'.redactText p

/-- What the two bindings make of the payload of two candidates. -/
theorem redact_candidates (hout : SameOutside host host') (h : Twin s s') {p p' : Payload}
    (htype : p'.eventType = p.eventType) (hwritten : writePayload p' = writePayload p)
    (halike : PayloadAlike host host' p) (hsafe : isSafe ((s.sequence + 1 : ℕ) : ℤ)) :
    (∃ e e', redactEvent host.redactText (.known (candidate host s p)) = .error e ∧
      Java.redactEvent host'.redactText (.known (candidate host' s' p')) = .error e' ∧
      e.code = e'.code) ∨
    (∃ e e', redactEvent host.redactText (.known (candidate host s p)) = .ok e ∧
      Java.redactEvent host'.redactText (.known (candidate host' s' p')) = .ok e' ∧
      Corresponds e e') := by
  have hplain := halike.plain
  have htexts : RedactAlike host.redactText host'.redactText (candidate host' s' p).payload :=
    halike.texts
  have hobject : Java.redactEvent host'.redactText (.known (candidate host' s' p')) =
      Java.redactEvent host.redactText (.known (candidate host' s' p)) := by
    rw [Java.redactEvent, Java.redactEvent, ← walkPayload_congr htexts]
    simp only [eventToObject, AnyEvent.envelope, AnyEvent.eventType, AnyEvent.payloadObject,
      candidate, htype, hwritten]
  rw [hobject]
  generalize host.redactText = f
  have hsafe' : isSafe ((s'.sequence + 1 : ℕ) : ℤ) := by rwa [h.sequence]
  have hagree : Agree (redactEvent f (.known (candidate host' s' p)))
      (Java.redactEvent f (.known (candidate host' s' p))) :=
    redactEvent_agree hplain hsafe' rfl
  have hrun : (candidate host' s' p).runId = (candidate host s p).runId := hout.runId
  have hsession : (candidate host' s' p).sessionId = (candidate host s p).sessionId :=
    hout.sessionId
  have hreadable : (candidate host s p).Readable ↔ (candidate host' s' p).Readable :=
    ⟨fun r => ⟨rfl, host'.ids_identifier _, hrun ▸ r.runId, hsession ▸ r.sessionId,
        Nat.le_add_left _ _, hsafe', host'.clock_timestamp _⟩,
      fun r => ⟨rfl, host.ids_identifier _, hrun ▸ r.runId, hsession ▸ r.sessionId,
        Nat.le_add_left _ _, hsafe, host.clock_timestamp _⟩⟩
  cases hs : redactEvent f (.known (candidate host s p)) with
  | error e =>
      left
      cases hs' : redactEvent f (.known (candidate host' s' p)) with
      | ok e₁ =>
          obtain ⟨r, hp, -⟩ := redactEvent_eq_ok.mp hs'
          rw [redactEvent_eq_ok.mpr ⟨hreadable.mpr r, hp, rfl⟩] at hs
          cases hs
      | error e₁ =>
          rw [hs'] at hagree
          cases hj : Java.redactEvent f (.known (candidate host' s' p)) with
          | ok e₂ =>
              rw [hj] at hagree
              cases hagree
          | error e₂ =>
              rw [hj] at hagree
              have hcode := redactEvent_schema (e := candidate host s p) rfl e hs
              have hcode' := redactEvent_schema (e := candidate host' s' p) rfl e₁ hs'
              exact ⟨e, e₂, rfl, rfl, hcode.trans (hcode'.symm.trans hagree)⟩
  | ok e =>
      right
      obtain ⟨r, hp, rfl⟩ := redactEvent_eq_ok.mp hs
      rw [redactEvent_eq_ok.mpr ⟨hreadable.mp r, hp, rfl⟩] at hagree
      cases hj : Java.redactEvent f (.known (candidate host' s' p)) with
      | error e₂ =>
          rw [hj] at hagree
          cases hagree
      | ok e₂ =>
          rw [hj] at hagree
          cases e₂ with
          | unknown u => cases hagree
          | known e₂ =>
              obtain ⟨henvelope, hpayload⟩ := hagree
              refine ⟨_, _, rfl, rfl, ?_, hpayload⟩
              have hsequence : s'.sequence + 1 = e₂.sequence := congrArg Envelope.sequence henvelope
              rw [← hsequence, h.sequence]
              rfl

variable (hout : SameOutside host host')
include hout

theorem write_inStep (h : Twin s s') {p p' : Payload} (reportSize : Bool)
    (htype : p'.eventType = p.eventType) (hwritten : writePayload p' = writePayload p)
    (halike : PayloadAlike host host' p) (hsafe : isSafe ((s.sequence + 1 : ℕ) : ℤ)) :
    AnswersAlike (write host s p reportSize) (Java.write host' s' p' reportSize) := by
  unfold write Java.write
  rcases redact_candidates hout h htype hwritten halike hsafe with
    ⟨e, e', he, he', hcode⟩ | ⟨e, e', he, he', hsame⟩
  · rw [he, he']
    exact ⟨hcode, h.build⟩
  · rw [he, he']
    have hsize := hout.size e e' hsame
    have hbuilt := h.build
    simp only [hsize, hout.maxEventBytes, hbuilt.tried, hout.write]
    split_ifs
    · exact ⟨rfl, hbuilt.drop.problem _ _ _⟩
    · exact ⟨rfl, hbuilt.drop⟩
    · exact ⟨rfl, hbuilt.took hsame⟩
    · exact ⟨rfl, hbuilt.refused.drop.problem _ _ _⟩

theorem writeOne_inStep (h : Twin s s') {p p' : Payload} (htype : p'.eventType = p.eventType)
    (hwritten : writePayload p' = writePayload p) (halike : PayloadAlike host host' p)
    (hsafe : isSafe ((s.sequence + 1 : ℕ) : ℤ)) :
    AnswersAlike (writeOne host s p) (Java.writeOne host' s' p') := by
  have hwrite := write_inStep hout h true htype hwritten halike hsafe
  unfold writeOne Java.writeOne
  rcases hwrite.cases with ⟨e, e', t, t', ha, ha', hcode, ht⟩ | ⟨attempt, t, t', ha, ha', ht⟩
  · rw [ha, ha']
    exact ⟨hcode, ht⟩
  · rw [ha, ha']
    exact ⟨rfl, ht⟩

omit hout in
theorem accepts_inStep (h : Twin s s') (what : Text) :
    (acceptsSessionEvents s what = (true, s) ∧ Java.acceptsSessionEvents s' what = (true, s')) ∨
    ∃ t t', acceptsSessionEvents s what = (false, t) ∧
      Java.acceptsSessionEvents s' what = (false, t') ∧ Twin t t' := by
  unfold acceptsSessionEvents Java.acceptsSessionEvents
  rw [h.terminalOutcomeLost, h.lifecycle]
  split_ifs
  · exact .inr ⟨_, _, rfl, rfl, h.drop.problem _ _ _⟩
  · exact .inl ⟨rfl, rfl⟩
  · exact .inr ⟨_, _, rfl, rfl, h.drop.problem _ _ _⟩
  · exact .inr ⟨_, _, rfl, rfl, h.drop.problem _ _ _⟩

/-! ### Finishing -/

/-- One outcome, with absent and empty failures identified. -/
structure SameOutcome (o o' : SessionFinishedPayload) : Prop where
  status : o'.status = o.status
  rawStatus : o'.rawStatus = o.rawStatus
  failures : o'.failures.bind writeFailures = o.failures.bind writeFailures
  hasFailures : hasFailures o' = hasFailures o

omit hout in
theorem SameOutcome.written {o o' : SessionFinishedPayload} (h : SameOutcome o o') :
    writePayload (.sessionFinished o') = writePayload (.sessionFinished o) := by
  simp only [writePayload, h.status, h.rawStatus, h.failures]

omit hout in
/-- An outcome without failures has no numbers, and no text that is redacted. -/
theorem alike_outcome (status : Option SessionStatus) (rawStatus : Option Text) :
    PayloadAlike host host' (.sessionFinished ⟨status, rawStatus, none⟩) := by
  have hplain : PlainPayload (.sessionFinished ⟨status, rawStatus, none⟩) := by
    cases status <;> cases rawStatus <;> rfl
  have hnone : freeTextsMembers (writePayload (.sessionFinished ⟨status, rawStatus, none⟩)) = [] := by
    cases status <;> cases rawStatus <;> rfl
  exact ⟨hplain, by simp [RedactAlike, hnone]⟩

theorem finishLoop_inStep {status : SessionStatus} (n : ℕ) :
    ∀ {o o' : SessionFinishedPayload} {s s' : ReportSession}, reductions o = n → SameOutcome o o' →
      Twin s s' → PayloadAlike host host' (.sessionFinished o) → isSafe ((s.sequence + 1 : ℕ) : ℤ) →
      AnswersAlike (finishLoop host status o s) (Java.finishLoop host' status o' s') := by
  induction n using Nat.strong_induction_on with
  | h n ih =>
      intro o o' s s' hn ho h halike hsafe
      have hwrite : AnswersAlike (write host s (.sessionFinished o) false)
          (Java.write host' s' (.sessionFinished o') false) :=
        write_inStep hout h false rfl ho.written halike hsafe
      have hcase : WriteCase host s (.sessionFinished o) (write host s (.sessionFinished o) false) :=
        write_case _ _
      rw [finishLoop, Java.finishLoop]
      rcases hwrite.cases with ⟨e, e', t, t', ha, ha', hcode, ht⟩ | ⟨⟨result, bytes⟩, t, t', ha, ha', ht⟩
      · rw [ha, ha']
        exact ⟨hcode, ht⟩
      · rw [ha, ha']
        rw [ha] at hcase
        cases hcase with
        | written => exact ⟨rfl, ht.enter _⟩
        | sinkFailure => exact ⟨rfl, ht.lose.problem _ _ _⟩
        | tooLarge _ _ hquiet _ =>
            have hsafe' : isSafe ((t.sequence + 1 : ℕ) : ℤ) := by rwa [hquiet.sequence]
            dsimp only
            rw [ho.hasFailures, ho.rawStatus]
            split_ifs with hfailures hraw
            · refine ih _ ?_ rfl ⟨rfl, rfl, rfl, rfl⟩ (ht.problem _ _ _) (alike_outcome _ _) hsafe'
              rw [← hn]
              simp [reductions, hfailures]
            · refine ih _ ?_ rfl ⟨rfl, rfl, rfl, rfl⟩ (ht.problem _ _ _) (alike_outcome _ _) hsafe'
              rw [← hn]
              simp [reductions, hraw]
            · exact ⟨rfl, ht.lose.problem _ _ _⟩

/-- An outcome that obeys the rules. -/
theorem finish_inStep (h : Twin s s') {o o' : SessionFinishedPayload} (ho : SameOutcome o o')
    (hrules : outcomeViolation o = none) (halike : PayloadAlike host host' (.sessionFinished o))
    (hsafe : isSafe ((s.sequence + 1 : ℕ) : ℤ)) :
    AnswersAlike (finish host s o) (Java.finish host' s' o') := by
  unfold finish Java.finish
  rw [hrules]
  dsimp only
  rcases accepts_inStep h (txt "event session.finished") with ⟨ha, ha'⟩ | ⟨t, t', ha, ha', ht⟩
  · rw [ha, ha', ho.status]
    cases o.status with
    | none =>
        have hwrite : AnswersAlike (writeOne host s (.sessionFinished o))
            (Java.writeOne host' s' (.sessionFinished o')) :=
          writeOne_inStep hout h rfl ho.written halike hsafe
        dsimp only
        rcases hwrite.cases with ⟨e, e', t, t', ha, ha', hcode, ht⟩ | ⟨b, t, t', ha, ha', ht⟩
        · rw [ha, ha']
          exact ⟨hcode, ht⟩
        · rw [ha, ha']
          cases b with
          | true => exact ⟨rfl, ht.enter _⟩
          | false => exact ⟨rfl, ht⟩
    | some status => exact finishLoop_inStep hout _ rfl ho h halike hsafe
  · rw [ha, ha']
    exact ⟨rfl, ht⟩

theorem finish_empty_inStep (h : Twin s s') (hsafe : isSafe ((s.sequence + 1 : ℕ) : ℤ)) :
    AnswersAlike (finish host s emptyOutcome) (Java.finish host' s' Java.emptyOutcome) :=
  finish_inStep hout h ⟨rfl, rfl, rfl, rfl⟩ rfl (alike_outcome _ _) hsafe

omit hout in
/-- The empty outcome is one event. -/
theorem finish_empty_sequence {t : ReportSession}
    (h : finish host s emptyOutcome = (.ok true, t)) : t.sequence = s.sequence + 1 := by
  have hrules : outcomeViolation emptyOutcome = none := rfl
  have hstatus : emptyOutcome.status = none := rfl
  unfold finish at h
  rw [hrules] at h
  rcases acceptsSessionEvents_case s (txt "event session.finished") with ⟨ha, -⟩ | ⟨u, ha, -⟩
  · rw [ha] at h
    dsimp only at h
    rw [hstatus] at h
    have hcase : WriteOneCase host s (.sessionFinished emptyOutcome)
        (writeOne host s (.sessionFinished emptyOutcome)) := writeOne_case _
    generalize writeOne host s (.sessionFinished emptyOutcome) = a at hcase h
    cases hcase with
    | written hwrote =>
        rw [← (Prod.mk.inj h).2]
        exact hwrote.sequence
    | dropped hanswer _ =>
        dsimp only at h
        split at h
        · rename_i heq
          exact absurd (Prod.mk.inj heq).1 hanswer
        · exact absurd (Prod.mk.inj h).1 hanswer
  · rw [ha] at h
    cases (Prod.mk.inj h).1

theorem writeRunFinished_inStep (h : Twin s s') (hsafe : isSafe ((s.sequence + 1 : ℕ) : ℤ)) :
    AnswersAlike (writeRunFinished host s) (Java.writeRunFinished host' s') := by
  unfold writeRunFinished Java.writeRunFinished
  rw [h.lifecycle]
  split_ifs
  · exact ⟨rfl, h.drop.problem _ _ _⟩
  · have hwrite : AnswersAlike (writeOne host s .runFinished) (Java.writeOne host' s' .runFinished) :=
      writeOne_inStep hout h rfl rfl ⟨rfl, by simp [RedactAlike, writePayload, freeTextsMembers]⟩
        hsafe
    rcases hwrite.cases with ⟨e, e', t, t', ha, ha', hcode, ht⟩ | ⟨b, t, t', ha, ha', ht⟩
    · rw [ha, ha']
      exact ⟨hcode, ht⟩
    · rw [ha, ha']
      cases b with
      | true => exact ⟨rfl, ht.enter _⟩
      | false => exact ⟨rfl, ht⟩

theorem finishRun_inStep (h : Twin s s') (hsafe : isSafe ((s.sequence + 2 : ℕ) : ℤ)) :
    AnswersAlike (finishRun host s) (Java.finishRun host' s') := by
  have hsafe₁ : isSafe ((s.sequence + 1 : ℕ) : ℤ) := by
    unfold isSafe at hsafe ⊢
    omega
  unfold finishRun Java.finishRun
  rw [h.terminalOutcomeLost, h.lifecycle]
  split_ifs
  · exact ⟨rfl, h.drop.problem _ _ _⟩
  · have hfinish := finish_empty_inStep hout h hsafe₁
    rcases hfinish.cases with ⟨e, e', t, t', ha, ha', hcode, ht⟩ | ⟨b, t, t', ha, ha', ht⟩
    · rw [ha, ha']
      exact ⟨hcode, ht⟩
    · rw [ha, ha']
      cases b with
      | false => exact ⟨rfl, ht⟩
      | true =>
          refine writeRunFinished_inStep hout ht ?_
          rw [finish_empty_sequence ha]
          exact hsafe
  · exact writeRunFinished_inStep hout h hsafe₁

theorem closeSink_twin (h : Twin s s') : Twin (closeSink host s) (closeSink host' s') := by
  unfold closeSink
  rw [hout.close]
  split_ifs
  · exact h.enter _
  · exact (h.enter _).problem _ _ _

theorem close_inStep (h : Twin s s') (hsafe : isSafe ((s.sequence + 1 : ℕ) : ℤ)) :
    AnswersAlike (close host s) (Java.close host' s') := by
  unfold close Java.close
  rw [h.terminalOutcomeLost, h.lifecycle]
  split_ifs
  · exact ⟨rfl, h⟩
  · rcases (finish_empty_inStep hout h hsafe).cases with
      ⟨e, e', t, t', ha, ha', hcode, ht⟩ | ⟨b, t, t', ha, ha', ht⟩
    · rw [ha, ha']
      exact ⟨hcode, ht⟩
    · rw [ha, ha']
      exact ⟨rfl, closeSink_twin hout ht⟩
  · exact ⟨rfl, closeSink_twin hout h⟩

/-! ### Calls -/

/-- An event that is no end of a session. -/
theorem ordinary_inStep (h : Twin s s') {p : Payload} (halike : PayloadAlike host host' p)
    (hsafe : isSafe ((s.sequence + 1 : ℕ) : ℤ)) :
    AnswersAlike
      (match acceptsSessionEvents s (txt "event " ++ p.eventType.text) with
        | (false, s) => (.ok false, s)
        | (true, s) => writeOne host s p)
      (match Java.acceptsSessionEvents s' (txt "event " ++ p.eventType.text) with
        | (false, s) => (.ok false, s)
        | (true, s) => Java.writeOne host' s p) := by
  rcases accepts_inStep h (txt "event " ++ p.eventType.text) with
    ⟨ha, ha'⟩ | ⟨t, t', ha, ha', ht⟩
  · rw [ha, ha']
    exact writeOne_inStep hout h rfl rfl halike hsafe
  · rw [ha, ha']
    exact ⟨rfl, ht⟩

theorem emit_inStep (h : Twin s s') {p : Payload} (halike : PayloadAlike host host' p)
    (hrules : ∀ o, p = .sessionFinished o → outcomeViolation o = none)
    (hsafe : isSafe ((s.sequence + 2 : ℕ) : ℤ)) :
    AnswersAlike (emit host s p) (Java.emit host' s' p) := by
  have hsafe₁ : isSafe ((s.sequence + 1 : ℕ) : ℤ) := by
    unfold isSafe at hsafe ⊢
    omega
  cases p with
  | runFinished => exact finishRun_inStep hout h hsafe
  | sessionFinished o =>
      exact finish_inStep hout h ⟨rfl, rfl, rfl, rfl⟩ (hrules o rfl) halike hsafe₁
  | _ => exact ordinary_inStep hout h halike hsafe₁

/-- The bytes of an attachment are stored alike, and its name is redacted alike. -/
structure StoredAlike (host host' : Host) (s : ReportSession) (input : AttachmentInput)
    (bytes : List ℕ) : Prop where
  content : Java.contentOf host' input bytes = contentOf host input bytes
  name : host'.redactText input.name = host.redactText input.name
  safe : ∀ stored, host.storeAttachment s.stored (contentOf host input bytes) = .ok stored →
    isSafe stored.sizeBytes

theorem attach_inStep (h : Twin s s') {input : AttachmentInput} {bytes : List ℕ}
    (halike : StoredAlike host host' s input bytes) (hsafe : isSafe ((s.sequence + 2 : ℕ) : ℤ)) :
    AnswersAlike (attach host s input bytes) (Java.attach host' s' input bytes) := by
  unfold attach Java.attach
  rcases accepts_inStep h (txt "attachment " ++ input.name) with ⟨ha, ha'⟩ | ⟨t, t', ha, ha', ht⟩
  · rw [ha, ha']
    dsimp only
    rw [h.stored, hout.storeAttachment, halike.content]
    have hstored := h.store
    rw [h.stored] at hstored
    cases hstore : host.storeAttachment s.stored (contentOf host input bytes) with
    | error e =>
        cases e with
        | tooLarge => exact ⟨rfl, hstored.problem _ _ _⟩
        | other => exact ⟨rfl, hstored.problem _ _ _⟩
    | ok stored =>
        have hint := (isPlainSafe_ofInt _).mpr (halike.safe stored hstore)
        have hplain : PlainPayload (attachmentPayload input stored) := by
          unfold PlainPayload attachmentPayload
          cases hstep : input.stepId <;>
            simp [writePayload, omitUndefined, writeText, writeInt, allNumbersMembers, allNumbers,
              hint]
        have htexts : freeTextsMembers (writePayload (attachmentPayload input stored)) =
            [input.name] := by
          unfold attachmentPayload
          cases hstep : input.stepId <;> rfl
        have hpayload : PayloadAlike host host' (attachmentPayload input stored) :=
          ⟨hplain, by simp [RedactAlike, htexts, halike.name]⟩
        exact emit_inStep hout hstored hpayload (fun o ho => by cases ho) hsafe
  · rw [ha, ha']
    exact ⟨rfl, ht⟩

end operations

/-! ### Runs -/

/-- The outcome a call is given obeys the rules of an outcome. -/
def Call.Obeys : Call → Prop
  | .emit (.sessionFinished o) => outcomeViolation o = none
  | .finish o => outcomeViolation o = none
  | _ => True

section runs
variable (host host' : Host)

/-- Both bindings make the same of what the call is given, in the state before it. -/
def CallAlike (s : ReportSession) : Call → Prop
  | .emit p => PayloadAlike host host' p
  | .attach input bytes => StoredAlike host host' s input bytes
  | .finish o => PayloadAlike host host' (.sessionFinished o)
  | _ => True

/-- Every call is alike in the state before it, and the sequence numbers stay safe. -/
def RunAlike : ReportSession → List Call → Prop
  | _, [] => True
  | s, c :: calls => isSafe ((s.sequence + 2 : ℕ) : ℤ) ∧ CallAlike host host' s c ∧
      RunAlike (call host s c).2 calls

/-- The answers to a sequence of calls. -/
def answersTo (call : ReportSession → Call → Answer Bool) : ReportSession → List Call →
    List (Read Bool)
  | _, [] => []
  | s, c :: calls => (call s c).1 :: answersTo call (call s c).2 calls

variable {host host'}

theorem call_inStep (hout : SameOutside host host') {s s' : ReportSession} (h : Twin s s')
    {c : Call} (hobeys : c.Obeys) (halike : CallAlike host host' s c)
    (hsafe : isSafe ((s.sequence + 2 : ℕ) : ℤ)) :
    AnswersAlike (call host s c) (Java.call host' s' c) := by
  have hsafe₁ : isSafe ((s.sequence + 1 : ℕ) : ℤ) := by
    unfold isSafe at hsafe ⊢
    omega
  cases c with
  | emit p =>
      refine emit_inStep hout h halike (fun o ho => ?_) hsafe
      rw [ho] at hobeys
      exact hobeys
  | attach input bytes => exact attach_inStep hout h halike hsafe
  | finish o =>
      exact finish_inStep hout h ⟨rfl, rfl, rfl, rfl⟩ hobeys halike hsafe₁
  | finishRun => exact finishRun_inStep hout h hsafe
  | close => exact close_inStep hout h hsafe₁

/-- Sessions in step stay in step under every sequence of calls. -/
theorem run_inStep (hout : SameOutside host host') {calls : List Call}
    (hobeys : ∀ c ∈ calls, c.Obeys) {s s' : ReportSession} (h : Twin s s')
    (halike : RunAlike host host' s calls) :
    List.Forall₂ SameAnswer (answersTo (call host) s calls) (answersTo (Java.call host') s' calls) ∧
      Twin (run host s calls) (Java.run host' s' calls) := by
  induction calls generalizing s s' with
  | nil => exact ⟨.nil, h⟩
  | cons c calls ih =>
      obtain ⟨hsafe, hcall, hrest⟩ := halike
      have hstep := call_inStep hout h (hobeys c List.mem_cons_self) hcall hsafe
      obtain ⟨hanswers, hfinal⟩ :=
        ih (fun c hc => hobeys c (List.mem_cons_of_mem _ hc)) hstep.state hrest
      exact ⟨.cons hstep.answer hanswers, hfinal⟩

/-- The members of a written object that are there. -/
theorem allNumbers_omitUndefined {p : JsNumber → Bool} {ms : List (Text × Option Json)}
    (h : ∀ m ∈ ms, ∀ v, m.2 = some v → allNumbers p v = true) :
    allNumbersMembers p (omitUndefined ms) = true := by
  induction ms with
  | nil => rfl
  | cons m ms ih =>
      obtain ⟨k, v⟩ := m
      have hrest := ih (fun m hm => h m (List.mem_cons_of_mem _ hm))
      cases v with
      | none => exact hrest
      | some v =>
          have hv := h (k, some v) List.mem_cons_self v rfl
          change allNumbersMembers p ((k, v) :: omitUndefined ms) = true
          rw [allNumbersMembers, hv, hrest]
          rfl

theorem allNumbers_text {p : JsNumber → Bool} (o : Option Text) (v : Json)
    (h : o.bind writeText = some v) : allNumbers p v = true := by
  obtain ⟨t, -, hv⟩ := Option.bind_eq_some_iff.mp h
  obtain rfl := Option.some.inj hv
  rfl

/-- The payload of `session.started` has no numbers. -/
theorem plain_sessionStarted (p : SessionStartedPayload) : PlainPayload (.sessionStarted p) := by
  have hcomponent : ∀ c v, writeComponent c = some v → allNumbers isPlainSafe v = true := by
    rintro c v hv
    obtain rfl := Option.some.inj hv
    refine allNumbers_omitUndefined (fun m hm w hw => ?_)
    simp only [List.mem_cons, List.not_mem_nil, or_false] at hm
    rcases hm with rfl | rfl
    · exact allNumbers_text (some c.name) w hw
    · exact allNumbers_text c.version w hw
  have hexecutor : ∀ x v, writeExecutor x = some v → allNumbers isPlainSafe v = true := by
    rintro x v hv
    obtain rfl := Option.some.inj hv
    refine allNumbers_omitUndefined (fun m hm w hw => ?_)
    simp only [List.mem_cons, List.not_mem_nil, or_false] at hm
    rcases hm with rfl | rfl | rfl <;> exact allNumbers_text _ w hw
  have hsource : ∀ x v, writeSource x = some v → allNumbers isPlainSafe v = true := by
    rintro x v hv
    obtain rfl := Option.some.inj hv
    refine allNumbers_omitUndefined (fun m hm w hw => ?_)
    simp only [List.mem_cons, List.not_mem_nil, or_false] at hm
    rcases hm with rfl | rfl | rfl <;> exact allNumbers_text _ w hw
  have hmembers : ∀ r : Record,
      allNumbersMembers isPlainSafe (r.map (fun m => (m.1, Json.str m.2))) = true := by
    intro r
    induction r with
    | nil => rfl
    | cons m r ih =>
        rw [List.map_cons, allNumbersMembers, ih]
        rfl
  have hrecord : ∀ r v, writeRecord r = some v → allNumbers isPlainSafe v = true := by
    intro r v hv
    cases r with
    | nil => cases hv
    | cons m r =>
        obtain rfl := Option.some.inj hv
        exact hmembers (m :: r)
  refine allNumbers_omitUndefined (fun m hm v hv => ?_)
  simp only [List.mem_cons, List.not_mem_nil, or_false] at hm
  rcases hm with rfl | rfl | rfl | rfl | rfl | rfl
  · exact hcomponent _ v hv
  · obtain ⟨c, -, hv⟩ := Option.bind_eq_some_iff.mp hv
    exact hcomponent c v hv
  · obtain ⟨r, -, hv⟩ := Option.bind_eq_some_iff.mp hv
    exact hrecord r v hv
  · obtain ⟨x, -, hv⟩ := Option.bind_eq_some_iff.mp hv
    exact hexecutor x v hv
  · obtain ⟨x, -, hv⟩ := Option.bind_eq_some_iff.mp hv
    exact hsource x v hv
  · obtain ⟨r, -, hv⟩ := Option.bind_eq_some_iff.mp hv
    exact hrecord r v hv

/-- For every sequence of calls whose outcomes obey the rules, the two sessions give the same
answers and end in corresponding states, when both make the same of the texts and the attachment
bytes each call redacts, and the integers are safe. -/
theorem sessions_in_step {host host' : Host} (hout : SameOutside host host')
    (payload : SessionStartedPayload) (calls : List Call) (hobeys : ∀ c ∈ calls, c.Obeys)
    (htexts : RedactAlike host.redactText host'.redactText (.sessionStarted payload))
    (halike : RunAlike host host' (start host payload).2 calls) :
    AnswersAlike (start host payload) (Java.start host' payload) ∧
      List.Forall₂ SameAnswer (answersTo (call host) (start host payload).2 calls)
        (answersTo (Java.call host') (Java.start host' payload).2 calls) ∧
      Twin (run host (start host payload).2 calls)
        (Java.run host' (Java.start host' payload).2 calls) := by
  have hstart : AnswersAlike (start host payload) (Java.start host' payload) :=
    emit_inStep hout .new ⟨plain_sessionStarted payload, htexts⟩ nofun (by decide)
  exact ⟨hstart, run_inStep hout hobeys hstart.state halike⟩

end runs

/-! ### Examples -/

/-- A redactor that knows one secret. -/
def hideToken (t : Text) : Text :=
  if t = txt "token=abc" then txt "token=[REDACTED]" else t

/-- A sink that takes everything, and events of one size. -/
def takingAllHost : Host := { plainHost 260 small_limit_le (fun _ => true) with
  redactText := hideToken
  size := fun _ => 200
  storeAttachment := fun _ bytes => .ok ⟨txt "0", bytes.length⟩ }

/-- The bytes of `token=abc`. -/
def tokenBytes : List ℕ := utf8 (txt "token=abc")

/-- An attachment of the given media type. -/
def logOf (mediaType : Text) : AttachmentInput := ⟨txt "a1", none, txt "log", mediaType⟩

/-- A media type that starts with a no-break space. -/
def spacedType : Text := 0xA0 :: txt "text/plain"

/-- The size an event reports for an attachment. -/
def attachedBytes : AnyEvent → Option ℤ
  | .known e =>
      match e.payload.normal with
      | .attachmentAdded p => some p.sizeBytes
      | _ => none
  | .unknown _ => none

theorem attachedBytes_of_corresponds {e e' : AnyEvent} (h : Corresponds e e') :
    attachedBytes e = attachedBytes e' := by
  cases e with
  | unknown u => cases h
  | known e =>
      cases e' with
      | unknown u => cases h
      | known e' =>
          unfold attachedBytes
          dsimp only
          rw [h.2]

/-- The two sessions store different bytes: `trim()` takes off the space in one of them only. -/
theorem sessions_part : SameOutside takingAllHost takingAllHost ∧
    ¬ Twin (run takingAllHost (start takingAllHost samplePayload).2
        [.attach (logOf spacedType) tokenBytes])
      (Java.run takingAllHost (Java.start takingAllHost samplePayload).2
        [.attach (logOf spacedType) tokenBytes]) := by
  refine ⟨⟨rfl, rfl, rfl, fun _ _ _ => rfl, rfl, rfl, rfl⟩, fun h => ?_⟩
  have hsame := List.forall₂_map_left_iff.mpr (List.forall₂_map_right_iff.mpr
    (h.sunk.imp (fun _ _ => attachedBytes_of_corresponds)))
  have hsizes : (run takingAllHost (start takingAllHost samplePayload).2
      [.attach (logOf spacedType) tokenBytes]).sunk.map attachedBytes = [none, some 16] := by
    decide
  have hsizes' : (Java.run takingAllHost (Java.start takingAllHost samplePayload).2
      [.attach (logOf spacedType) tokenBytes]).sunk.map attachedBytes = [none, some 9] := by
    decide
  rw [hsizes, hsizes'] at hsame
  rw [List.forall₂_eq_eq_eq] at hsame
  revert hsame
  decide

/-- Another redactor for the same secret, which also hides a secret after a no-break space. -/
def hideSpacedToken (t : Text) : Text :=
  if t = txt "token=" ++ [0xA0] ++ txt "abc" then txt "token=[REDACTED]" else hideToken t

/-- The same outside with the other redactor. -/
def spacedHost : Host := { takingAllHost with redactText := hideSpacedToken }

theorem storedAlike_sample (s : ReportSession) :
    StoredAlike spacedHost takingAllHost s (logOf (txt "text/plain")) tokenBytes where
  content := by decide
  name := by decide
  safe := by
    intro stored h
    obtain rfl := Except.ok.inj h
    decide

/-- Two sessions whose redactors differ, on texts that meet neither. -/
theorem sessions_in_step_sample :
    AnswersAlike (start spacedHost samplePayload) (Java.start takingAllHost samplePayload) ∧
      List.Forall₂ SameAnswer
        (answersTo (call spacedHost) (start spacedHost samplePayload).2
          [.attach (logOf (txt "text/plain")) tokenBytes, .finish sampleOutcome, .finishRun])
        (answersTo (Java.call takingAllHost) (Java.start takingAllHost samplePayload).2
          [.attach (logOf (txt "text/plain")) tokenBytes, .finish sampleOutcome, .finishRun]) ∧
      Twin
        (run spacedHost (start spacedHost samplePayload).2
          [.attach (logOf (txt "text/plain")) tokenBytes, .finish sampleOutcome, .finishRun])
        (Java.run takingAllHost (Java.start takingAllHost samplePayload).2
          [.attach (logOf (txt "text/plain")) tokenBytes, .finish sampleOutcome, .finishRun]) := by
  have hout : SameOutside spacedHost takingAllHost :=
    ⟨rfl, rfl, rfl, fun _ _ _ => rfl, rfl, rfl, rfl⟩
  refine sessions_in_step hout samplePayload _ ?_ ?_ ?_
  · intro c hc
    simp only [List.mem_cons, List.not_mem_nil, or_false] at hc
    rcases hc with rfl | rfl | rfl
    · trivial
    · rfl
    · trivial
  · have htexts : RedactAlike hideSpacedToken hideToken (.sessionStarted samplePayload) := by
      decide
    exact htexts
  · have houtcome : PayloadAlike spacedHost takingAllHost (.sessionFinished sampleOutcome) :=
      ⟨rfl, by decide⟩
    exact ⟨by decide +kernel, storedAlike_sample _, by decide +kernel, houtcome, by decide +kernel,
      trivial, trivial⟩

end QeReport.Sdk

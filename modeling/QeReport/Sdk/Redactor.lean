import QeReport.Protocol.RoundTrip

/-! # Redaction of events

A redactor replaces what its rules find in a text; which rules these are is up to whoever builds
it, so that a redactor is here the function `redactText` it computes on texts.  `redactEvent`
applies it to every free text of a payload: it writes the event as an object, walks through the
payload of the object, and reads the object back through the codec, which may refuse it.

`redactEvent_eq` says what this comes to: the event whose payload has its texts redacted
(`Payload.redact`), written and read again. -/

namespace QeReport.Sdk

/-- Property names whose values are structural, never free text. -/
def structuralKeys : List Text :=
  [txt "attemptId", txt "stepId", txt "parentStepId", txt "executionId", txt "historicalId",
    txt "historicalIdStability", txt "status", txt "rawStatus", txt "expectedStatus",
    txt "mediaType", txt "sha256", txt "kind", txt "phase", txt "version"]

section redaction
variable (redactText : Text → Text)

mutual

/-- `walk(value)`. -/
def walk : Json → Json
  | .str s => .str (redactText s)
  | .arr items => .arr (walkItems items)
  | .obj members => .obj (walkMembers members)
  | v => v

def walkItems : List Json → List Json
  | [] => []
  | v :: vs => walk v :: walkItems vs

def walkMembers : List (Text × Json) → List (Text × Json)
  | [] => []
  | (k, v) :: ms => (k, if k ∈ structuralKeys then v else walk v) :: walkMembers ms

end

/-- `obj['payload'] = walk(obj['payload'])`. -/
def walkPayload : Json → Json
  | .obj root => .obj (root.map (fun m =>
      (m.1, if m.1 = txt "payload" then walk redactText m.2 else m.2)))
  | v => v

/-- `redactEvent(event)`. -/
def redactEvent (e : AnyEvent) : Read AnyEvent :=
  eventFromObject (walkPayload redactText (eventToObject e))

/-! ### Redacted payloads -/

def redactLocation (l : Location) : Location := { l with file := redactText l.file }

def redactFailure (f : Failure) : Failure where
  message := redactText f.message
  type := f.type.map redactText
  stackTrace := f.stackTrace.map redactText
  phase := f.phase
  location := f.location.map (redactLocation redactText)

def redactComponent (c : Component) : Component := { c with name := redactText c.name }

def redactRecord (r : Record) : Record :=
  r.map (fun m => (m.1, if m.1 ∈ structuralKeys then m.2 else redactText m.2))

def redactPath (path : List PathSegment) : List PathSegment :=
  path.map (fun s => { s with name := redactText s.name })

def redactExecutor (x : Executor) : Executor :=
  ⟨x.name.map redactText, x.buildId.map redactText, x.buildUrl.map redactText⟩

def redactSource (x : Source) : Source :=
  ⟨x.repository.map redactText, x.revision.map redactText, x.branch.map redactText⟩

def redactTest (t : TestCase) : TestCase := { t with
  displayName := redactText t.displayName
  path := redactPath redactText t.path
  location := t.location.map (redactLocation redactText)
  tags := t.tags.map (List.map redactText)
  labels := t.labels.map (redactRecord redactText) }

/-- The payload with its free texts redacted. -/
def redactPayload : Payload → Payload
  | .sessionStarted p => .sessionStarted
      { producer := redactComponent redactText p.producer
        runner := p.runner.map (redactComponent redactText)
        environment := p.environment.map (redactRecord redactText)
        executor := p.executor.map (redactExecutor redactText)
        source := p.source.map (redactSource redactText)
        labels := p.labels.map (redactRecord redactText) }
  | .sessionFinished p => .sessionFinished { p with
      failures := p.failures.map (List.map (redactFailure redactText)) }
  | .runFinished => .runFinished
  | .attemptStarted p => .attemptStarted { p with test := redactTest redactText p.test }
  | .attemptFinished p => .attemptFinished { p with
      failures := p.failures.map (List.map (redactFailure redactText)) }
  | .stepStarted p => .stepStarted { p with
      name := redactText p.name
      location := p.location.map (redactLocation redactText) }
  | .stepFinished p => .stepFinished { p with
      failures := p.failures.map (List.map (redactFailure redactText)) }
  | .attachmentAdded p => .attachmentAdded { p with name := redactText p.name }
  | .scopeFailed p => .scopeFailed { p with
      path := redactPath redactText p.path
      displayName := p.displayName.map redactText
      location := p.location.map (redactLocation redactText)
      failures := p.failures.map (redactFailure redactText) }

end redaction

theorem redactPayload_eventType (f : Text → Text) (p : Payload) :
    (redactPayload f p).eventType = p.eventType := by
  cases p <;> rfl

/-! ### Walking through written values -/

section walking
variable (f : Text → Text)

theorem walkItems_eq (vs : List Json) : walkItems f vs = vs.map (walk f) := by
  induction vs with
  | nil => rw [walkItems, List.map_nil]
  | cons v vs ih => rw [walkItems, ih, List.map_cons]

/-- What the walk makes of a member that may be left out. -/
def walkMember (m : Text × Option Json) : Text × Option Json :=
  (m.1, if m.1 ∈ structuralKeys then m.2 else m.2.map (walk f))

theorem walkMembers_omitUndefined (ms : List (Text × Option Json)) :
    walkMembers f (omitUndefined ms) = omitUndefined (ms.map (walkMember f)) := by
  induction ms with
  | nil => rfl
  | cons m ms ih =>
      obtain ⟨k, v⟩ := m
      cases v with
      | none =>
          have hleft : omitUndefined ((k, none) :: ms) = omitUndefined ms := rfl
          have hright : omitUndefined (((k, none) :: ms).map (walkMember f)) =
              omitUndefined (ms.map (walkMember f)) := by
            simp [omitUndefined, walkMember]
          rw [hleft, hright, ih]
      | some v =>
          have hleft : omitUndefined ((k, some v) :: ms) = (k, v) :: omitUndefined ms := rfl
          have hright : omitUndefined (((k, some v) :: ms).map (walkMember f)) =
              (k, if k ∈ structuralKeys then v else walk f v) ::
                omitUndefined (ms.map (walkMember f)) := by
            by_cases hk : k ∈ structuralKeys <;> simp [omitUndefined, walkMember, hk]
          rw [hleft, hright, ← ih, walkMembers]

theorem walk_writeText (s : Option Text) :
    (s.bind writeText).map (walk f) = (s.map f).bind writeText := by
  cases s with
  | none => rfl
  | some s => simp [writeText, walk]

theorem walk_writeInt (i : Option ℤ) : (i.bind writeInt).map (walk f) = i.bind writeInt := by
  cases i with
  | none => rfl
  | some i => simp [writeInt, walk]

theorem walk_bind {α : Type} {write : α → Option Json} {redact : α → α}
    (h : ∀ a, (write a).map (walk f) = write (redact a)) (x : Option α) :
    (x.bind write).map (walk f) = (x.map redact).bind write := by
  cases x with
  | none => rfl
  | some a => exact h a

theorem walk_writeObject (ms : List (Text × Option Json)) :
    (writeObject ms).map (walk f) = writeObject (ms.map (walkMember f)) := by
  rw [writeObject, Option.map_some, walk, walkMembers_omitUndefined, writeObject]

theorem walk_writeLocation (l : Location) :
    (writeLocation l).map (walk f) = writeLocation (redactLocation f l) := by
  have h : [(txt "file", writeText l.file), (txt "line", l.line.bind writeInt),
      (txt "column", l.column.bind writeInt)].map (walkMember f) =
      [(txt "file", writeText (f l.file)), (txt "line", (l.line.bind writeInt).map (walk f)),
        (txt "column", (l.column.bind writeInt).map (walk f))] := by
    rfl
  rw [writeLocation, walk_writeObject, h, walk_writeInt, walk_writeInt]
  rfl

theorem walk_writeFailure (x : Failure) :
    walk f (writeFailure x) = writeFailure (redactFailure f x) := by
  have h : [(txt "message", writeText x.message), (txt "type", x.type.bind writeText),
      (txt "stackTrace", x.stackTrace.bind writeText),
      (txt "phase", x.phase.bind (fun p => writeText p.text)),
      (txt "location", x.location.bind writeLocation)].map (walkMember f) =
      [(txt "message", writeText (f x.message)), (txt "type", (x.type.bind writeText).map (walk f)),
        (txt "stackTrace", (x.stackTrace.bind writeText).map (walk f)),
        (txt "phase", x.phase.bind (fun p => writeText p.text)),
        (txt "location", (x.location.bind writeLocation).map (walk f))] := by
    rfl
  rw [writeFailure, walk, walkMembers_omitUndefined, h, walk_writeText, walk_writeText,
    walk_bind f (walk_writeLocation f)]
  rfl

theorem walk_writeFailures (l : List Failure) :
    (writeFailures l).map (walk f) = writeFailures (l.map (redactFailure f)) := by
  cases l with
  | nil => rfl
  | cons x l =>
      rw [writeFailures, Option.map_some, walk, walkItems_eq, List.map_map, List.map_cons,
        writeFailures]
      · simp only [← List.map_cons, List.map_map]
        congr 2
        exact List.map_congr_left (fun y _ => walk_writeFailure f y)
      · simp
      · simp

theorem walk_writeComponent (c : Component) :
    (writeComponent c).map (walk f) = writeComponent (redactComponent f c) := by
  rw [writeComponent, walk_writeObject]
  rfl

theorem walk_writeRecord (r : Record) :
    (writeRecord r).map (walk f) = writeRecord (redactRecord f r) := by
  cases r with
  | nil => rfl
  | cons m r =>
      have hmembers : ∀ l : Record, walkMembers f (l.map (fun m => (m.1, Json.str m.2))) =
          (redactRecord f l).map (fun m => (m.1, Json.str m.2)) := by
        intro l
        induction l with
        | nil => rfl
        | cons m l ih =>
            rw [List.map_cons, walkMembers, ih]
            by_cases hk : m.1 ∈ structuralKeys <;> simp [hk, walk, redactRecord]
      have hwrite : ∀ l : Record, l ≠ [] →
          writeRecord l = some (.obj (l.map (fun m => (m.1, Json.str m.2)))) := by
        intro l hl
        cases l with
        | nil => exact absurd rfl hl
        | cons m l => rfl
      rw [hwrite _ (by simp), hwrite _ (by simp [redactRecord]), Option.map_some, walk, hmembers]

theorem walk_writeTags (l : List Text) :
    (writeTags l).map (walk f) = writeTags (l.map f) := by
  cases l with
  | nil => rfl
  | cons t l =>
      rw [writeTags, Option.map_some, walk, walkItems_eq, List.map_map, List.map_cons, writeTags]
      · simp [Function.comp_def, walk]
      · simp
      · simp

theorem walk_writePath (path : List PathSegment) :
    (writePath path).map (walk f) = writePath (redactPath f path) := by
  rw [writePath, Option.map_some, walk, walkItems_eq, List.map_map, writePath, redactPath,
    List.map_map]
  rfl

theorem walk_writeExecutor (x : Executor) :
    (writeExecutor x).map (walk f) = writeExecutor (redactExecutor f x) := by
  have h : [(txt "name", x.name.bind writeText), (txt "buildId", x.buildId.bind writeText),
      (txt "buildUrl", x.buildUrl.bind writeText)].map (walkMember f) =
      [(txt "name", (x.name.bind writeText).map (walk f)),
        (txt "buildId", (x.buildId.bind writeText).map (walk f)),
        (txt "buildUrl", (x.buildUrl.bind writeText).map (walk f))] := by
    rfl
  rw [writeExecutor, walk_writeObject, h, walk_writeText, walk_writeText, walk_writeText]
  rfl

theorem walk_writeSource (x : Source) :
    (writeSource x).map (walk f) = writeSource (redactSource f x) := by
  have h : [(txt "repository", x.repository.bind writeText),
      (txt "revision", x.revision.bind writeText), (txt "branch", x.branch.bind writeText)].map
        (walkMember f) =
      [(txt "repository", (x.repository.bind writeText).map (walk f)),
        (txt "revision", (x.revision.bind writeText).map (walk f)),
        (txt "branch", (x.branch.bind writeText).map (walk f))] := by
    rfl
  rw [writeSource, walk_writeObject, h, walk_writeText, walk_writeText, walk_writeText]
  rfl

theorem walk_writeTest (t : TestCase) :
    (writeTest t).map (walk f) = writeTest (redactTest f t) := by
  have h : [(txt "executionId", writeText t.executionId),
      (txt "historicalId", t.historicalId.bind writeText),
      (txt "historicalIdStability", writeText t.historicalIdStability.text),
      (txt "displayName", writeText t.displayName), (txt "path", writePath t.path),
      (txt "location", t.location.bind writeLocation), (txt "tags", t.tags.bind writeTags),
      (txt "labels", t.labels.bind writeRecord)].map (walkMember f) =
      [(txt "executionId", writeText t.executionId),
        (txt "historicalId", t.historicalId.bind writeText),
        (txt "historicalIdStability", writeText t.historicalIdStability.text),
        (txt "displayName", writeText (f t.displayName)),
        (txt "path", (writePath t.path).map (walk f)),
        (txt "location", (t.location.bind writeLocation).map (walk f)),
        (txt "tags", (t.tags.bind writeTags).map (walk f)),
        (txt "labels", (t.labels.bind writeRecord).map (walk f))] := by
    rfl
  rw [writeTest, walk_writeObject, h, walk_writePath, walk_bind f (walk_writeLocation f),
    walk_bind f (walk_writeTags f), walk_bind f (walk_writeRecord f)]
  rfl

/-- The walk through a written payload writes the redacted one. -/
theorem walkMembers_writePayload (p : Payload) :
    walkMembers f (writePayload p) = writePayload (redactPayload f p) := by
  cases p with
  | sessionStarted p =>
      have h : [(txt "producer", writeComponent p.producer),
          (txt "runner", p.runner.bind writeComponent),
          (txt "environment", p.environment.bind writeRecord),
          (txt "executor", p.executor.bind writeExecutor),
          (txt "source", p.source.bind writeSource), (txt "labels", p.labels.bind writeRecord)].map
            (walkMember f) =
          [(txt "producer", (writeComponent p.producer).map (walk f)),
            (txt "runner", (p.runner.bind writeComponent).map (walk f)),
            (txt "environment", (p.environment.bind writeRecord).map (walk f)),
            (txt "executor", (p.executor.bind writeExecutor).map (walk f)),
            (txt "source", (p.source.bind writeSource).map (walk f)),
            (txt "labels", (p.labels.bind writeRecord).map (walk f))] := by
        rfl
      rw [writePayload, walkMembers_omitUndefined, h, walk_writeComponent,
        walk_bind f (walk_writeComponent f), walk_bind f (walk_writeRecord f),
        walk_bind f (walk_writeExecutor f), walk_bind f (walk_writeSource f),
        walk_bind f (walk_writeRecord f)]
      rfl
  | sessionFinished p =>
      have h : [(txt "status", p.status.bind (fun s => writeText s.text)),
          (txt "rawStatus", p.rawStatus.bind writeText),
          (txt "failures", p.failures.bind writeFailures)].map (walkMember f) =
          [(txt "status", p.status.bind (fun s => writeText s.text)),
            (txt "rawStatus", p.rawStatus.bind writeText),
            (txt "failures", (p.failures.bind writeFailures).map (walk f))] := by
        rfl
      rw [writePayload, walkMembers_omitUndefined, h, walk_bind f (walk_writeFailures f)]
      rfl
  | runFinished => rfl
  | attemptStarted p =>
      have h : [(txt "attemptId", writeText p.attemptId),
          (txt "attemptNumber", writeInt p.attemptNumber), (txt "test", writeTest p.test)].map
            (walkMember f) =
          [(txt "attemptId", writeText p.attemptId), (txt "attemptNumber", writeInt p.attemptNumber),
            (txt "test", (writeTest p.test).map (walk f))] := by
        rfl
      rw [writePayload, walkMembers_omitUndefined, h, walk_writeTest]
      rfl
  | attemptFinished p =>
      have h : [(txt "attemptId", writeText p.attemptId), (txt "status", writeText p.status.text),
          (txt "rawStatus", p.rawStatus.bind writeText),
          (txt "expectedStatus", p.expectedStatus.bind (fun s => writeText s.text)),
          (txt "durationMs", p.durationMs.bind writeInt),
          (txt "failures", p.failures.bind writeFailures)].map (walkMember f) =
          [(txt "attemptId", writeText p.attemptId), (txt "status", writeText p.status.text),
            (txt "rawStatus", p.rawStatus.bind writeText),
            (txt "expectedStatus", p.expectedStatus.bind (fun s => writeText s.text)),
            (txt "durationMs", (p.durationMs.bind writeInt).map (walk f)),
            (txt "failures", (p.failures.bind writeFailures).map (walk f))] := by
        rfl
      rw [writePayload, walkMembers_omitUndefined, h, walk_writeInt,
        walk_bind f (walk_writeFailures f)]
      rfl
  | stepStarted p =>
      have h : [(txt "stepId", writeText p.stepId), (txt "attemptId", writeText p.attemptId),
          (txt "parentStepId", p.parentStepId.bind writeText), (txt "name", writeText p.name),
          (txt "kind", p.kind.bind writeText), (txt "location", p.location.bind writeLocation)].map
            (walkMember f) =
          [(txt "stepId", writeText p.stepId), (txt "attemptId", writeText p.attemptId),
            (txt "parentStepId", p.parentStepId.bind writeText), (txt "name", writeText (f p.name)),
            (txt "kind", p.kind.bind writeText),
            (txt "location", (p.location.bind writeLocation).map (walk f))] := by
        rfl
      rw [writePayload, walkMembers_omitUndefined, h, walk_bind f (walk_writeLocation f)]
      rfl
  | stepFinished p =>
      have h : [(txt "stepId", writeText p.stepId), (txt "attemptId", writeText p.attemptId),
          (txt "status", writeText p.status.text), (txt "rawStatus", p.rawStatus.bind writeText),
          (txt "durationMs", p.durationMs.bind writeInt),
          (txt "failures", p.failures.bind writeFailures)].map (walkMember f) =
          [(txt "stepId", writeText p.stepId), (txt "attemptId", writeText p.attemptId),
            (txt "status", writeText p.status.text), (txt "rawStatus", p.rawStatus.bind writeText),
            (txt "durationMs", (p.durationMs.bind writeInt).map (walk f)),
            (txt "failures", (p.failures.bind writeFailures).map (walk f))] := by
        rfl
      rw [writePayload, walkMembers_omitUndefined, h, walk_writeInt,
        walk_bind f (walk_writeFailures f)]
      rfl
  | attachmentAdded p => rw [writePayload, walkMembers_omitUndefined]; rfl
  | scopeFailed p =>
      have h : [(txt "path", writePath p.path), (txt "displayName", p.displayName.bind writeText),
          (txt "rawStatus", p.rawStatus.bind writeText),
          (txt "location", p.location.bind writeLocation),
          (txt "failures", writeFailures p.failures)].map (walkMember f) =
          [(txt "path", (writePath p.path).map (walk f)),
            (txt "displayName", (p.displayName.bind writeText).map (walk f)),
            (txt "rawStatus", p.rawStatus.bind writeText),
            (txt "location", (p.location.bind writeLocation).map (walk f)),
            (txt "failures", (writeFailures p.failures).map (walk f))] := by
        rfl
      rw [writePayload, walkMembers_omitUndefined, h, walk_writePath, walk_writeText,
        walk_bind f (walk_writeLocation f), walk_writeFailures]
      rfl

/-- The event with the free texts of its payload redacted. -/
def redacted (e : Event) : Event := { e with payload := redactPayload f e.payload }

/-- The walk through a written event writes the redacted one. -/
theorem walkPayload_eventToObject (e : Event) :
    walkPayload f (eventToObject (.known e)) = eventToObject (.known (redacted f e)) := by
  have hwalk : ∀ (ms : List (Text × Option Json)) (v : Json),
      (ms.map Prod.fst).all (fun k => k ≠ txt "payload") = true →
      walkPayload f (.obj (omitUndefined (ms ++ [(txt "payload", some v)]))) =
        .obj (omitUndefined (ms ++ [(txt "payload", some (walk f v))])) := by
    intro ms v hms
    rw [walkPayload]
    congr 1
    induction ms with
    | nil => simp [omitUndefined]
    | cons m ms ih =>
        obtain ⟨k, w⟩ := m
        rw [List.map_cons, List.all_cons, Bool.and_eq_true] at hms
        have hk : k ≠ txt "payload" := by simpa using hms.1
        cases w with
        | none => exact ih hms.2
        | some w =>
            have hleft : ∀ l : List (Text × Option Json),
                omitUndefined ((k, some w) :: l) = (k, w) :: omitUndefined l := fun _ => rfl
            rw [List.cons_append, List.cons_append, hleft, hleft, List.map_cons, ih hms.2,
              if_neg hk]
  rw [eventToObject, eventToObject]
  refine (hwalk [(txt "protocolVersion", writeText e.protocolVersion),
      (txt "eventId", writeText e.eventId), (txt "eventType", writeText e.payload.eventType.text),
      (txt "runId", writeText e.runId), (txt "sessionId", writeText e.sessionId),
      (txt "sequence", writeInt e.sequence), (txt "occurredAt", writeText e.occurredAt),
      (txt "ignorable", e.ignorable.map .bool)] (.obj (writePayload e.payload))
      (by simp only [List.map]; decide)).trans ?_
  rw [walk, walkMembers_writePayload]
  simp only [AnyEvent.envelope, AnyEvent.eventType, AnyEvent.payloadObject, redacted,
    redactPayload_eventType]
  rfl

/-- Redaction is the codec's reading of the redacted event as it is written. -/
theorem redactEvent_eq (e : Event) :
    redactEvent f (.known e) = eventFromObject (eventToObject (.known (redacted f e))) :=
  congrArg eventFromObject (walkPayload_eventToObject f e)

end walking

/-- What redaction gives: the event with its texts redacted and its empty collections left out. -/
theorem redactEvent_eq_ok {f : Text → Text} {e : Event} {e' : AnyEvent} :
    redactEvent f (.known e) = .ok e' ↔ e.toEnvelope.Readable ∧
      readPayload e.payload.eventType (writePayload (redactPayload f e.payload)) =
        .ok (redactPayload f e.payload).normal ∧
      e' = .known (redacted f e).normal := by
  rw [redactEvent_eq, eventFromObject_eq_ok]
  have htype : (redacted f e).payload.eventType = e.payload.eventType :=
    redactPayload_eventType f e.payload
  rw [htype]
  rfl

theorem redactEvent_written {f : Text → Text} {e : Event} {e' : AnyEvent}
    (h : redactEvent f (.known e) = .ok e') : eventFromObject (eventToObject e') = .ok e' := by
  rw [redactEvent_eq] at h
  exact eventFromObject_written h

end QeReport.Sdk

import QeReport.Protocol.Model

/-! # Writing events

The writing half of the codec: the JSON object of an event, its members in the order the codec
fixes and the absent ones left out, and the one line of text it is serialised as. -/

namespace QeReport

/-- `omitUndefined(o)`. -/
def omitUndefined (members : List (Text × Option Json)) : List (Text × Json) :=
  members.filterMap (fun m => m.2.map (fun v => (m.1, v)))

section writers

def writeText (t : Text) : Option Json := some (.str t)

def writeInt (i : ℤ) : Option Json := some (.num (.ofInt i))

def writeObject (members : List (Text × Option Json)) : Option Json :=
  some (.obj (omitUndefined members))

def writeComponent (c : Component) : Option Json :=
  writeObject [(txt "name", writeText c.name), (txt "version", c.version.bind writeText)]

def writeLocation (l : Location) : Option Json :=
  writeObject [(txt "file", writeText l.file), (txt "line", l.line.bind writeInt),
    (txt "column", l.column.bind writeInt)]

def writeFailure (f : Failure) : Json :=
  .obj (omitUndefined [(txt "message", writeText f.message), (txt "type", f.type.bind writeText),
    (txt "stackTrace", f.stackTrace.bind writeText),
    (txt "phase", f.phase.bind (fun p => writeText p.text)),
    (txt "location", f.location.bind writeLocation)])

/-- `writeFailures(fs)`: an empty list is left out. -/
def writeFailures : List Failure → Option Json
  | [] => none
  | fs => some (.arr (fs.map writeFailure))

/-- `nonEmpty(v) ? { ...v } : undefined`. -/
def writeRecord : Record → Option Json
  | [] => none
  | entries => some (.obj (entries.map (fun m => (m.1, .str m.2))))

def writeTags : List Text → Option Json
  | [] => none
  | tags => some (.arr (tags.map .str))

def writePath (path : List PathSegment) : Option Json :=
  some (.arr (path.map (fun s => .obj [(txt "kind", .str s.kind), (txt "name", .str s.name)])))

def writeExecutor (x : Executor) : Option Json :=
  writeObject [(txt "name", x.name.bind writeText), (txt "buildId", x.buildId.bind writeText),
    (txt "buildUrl", x.buildUrl.bind writeText)]

def writeSource (s : Source) : Option Json :=
  writeObject [(txt "repository", s.repository.bind writeText),
    (txt "revision", s.revision.bind writeText), (txt "branch", s.branch.bind writeText)]

def writeTest (t : TestCase) : Option Json :=
  writeObject [(txt "executionId", writeText t.executionId),
    (txt "historicalId", t.historicalId.bind writeText),
    (txt "historicalIdStability", writeText t.historicalIdStability.text),
    (txt "displayName", writeText t.displayName), (txt "path", writePath t.path),
    (txt "location", t.location.bind writeLocation), (txt "tags", t.tags.bind writeTags),
    (txt "labels", t.labels.bind writeRecord)]

end writers

/-- `writePayload(e)`. -/
def writePayload : Payload → List (Text × Json)
  | .sessionStarted p => omitUndefined
      [(txt "producer", writeComponent p.producer), (txt "runner", p.runner.bind writeComponent),
        (txt "environment", p.environment.bind writeRecord),
        (txt "executor", p.executor.bind writeExecutor), (txt "source", p.source.bind writeSource),
        (txt "labels", p.labels.bind writeRecord)]
  | .sessionFinished p => omitUndefined
      [(txt "status", p.status.bind (fun s => writeText s.text)),
        (txt "rawStatus", p.rawStatus.bind writeText),
        (txt "failures", p.failures.bind writeFailures)]
  | .runFinished => []
  | .attemptStarted p => omitUndefined
      [(txt "attemptId", writeText p.attemptId), (txt "attemptNumber", writeInt p.attemptNumber),
        (txt "test", writeTest p.test)]
  | .attemptFinished p => omitUndefined
      [(txt "attemptId", writeText p.attemptId), (txt "status", writeText p.status.text),
        (txt "rawStatus", p.rawStatus.bind writeText),
        (txt "expectedStatus", p.expectedStatus.bind (fun s => writeText s.text)),
        (txt "durationMs", p.durationMs.bind writeInt),
        (txt "failures", p.failures.bind writeFailures)]
  | .stepStarted p => omitUndefined
      [(txt "stepId", writeText p.stepId), (txt "attemptId", writeText p.attemptId),
        (txt "parentStepId", p.parentStepId.bind writeText), (txt "name", writeText p.name),
        (txt "kind", p.kind.bind writeText), (txt "location", p.location.bind writeLocation)]
  | .stepFinished p => omitUndefined
      [(txt "stepId", writeText p.stepId), (txt "attemptId", writeText p.attemptId),
        (txt "status", writeText p.status.text), (txt "rawStatus", p.rawStatus.bind writeText),
        (txt "durationMs", p.durationMs.bind writeInt),
        (txt "failures", p.failures.bind writeFailures)]
  | .attachmentAdded p => omitUndefined
      [(txt "attemptId", writeText p.attemptId), (txt "stepId", p.stepId.bind writeText),
        (txt "name", writeText p.name), (txt "mediaType", writeText p.mediaType),
        (txt "sizeBytes", writeInt p.sizeBytes), (txt "sha256", writeText p.sha256)]
  | .scopeFailed p => omitUndefined
      [(txt "path", writePath p.path), (txt "displayName", p.displayName.bind writeText),
        (txt "rawStatus", p.rawStatus.bind writeText),
        (txt "location", p.location.bind writeLocation), (txt "failures", writeFailures p.failures)]

/-- The payload of any event as an object. -/
def AnyEvent.payloadObject : AnyEvent → List (Text × Json)
  | .known e => writePayload e.payload
  | .unknown e => e.payload

/-- `eventToObject(event)`. -/
def eventToObject (e : AnyEvent) : Json :=
  .obj (omitUndefined
    [(txt "protocolVersion", writeText e.envelope.protocolVersion),
      (txt "eventId", writeText e.envelope.eventId), (txt "eventType", writeText e.eventType),
      (txt "runId", writeText e.envelope.runId), (txt "sessionId", writeText e.envelope.sessionId),
      (txt "sequence", writeInt e.envelope.sequence),
      (txt "occurredAt", writeText e.envelope.occurredAt),
      (txt "ignorable", e.envelope.ignorable.map .bool),
      (txt "payload", some (.obj e.payloadObject))])

/-- `stringifyEvent(event)`. -/
def stringifyEvent (e : AnyEvent) : Text := jsonText (eventToObject e)

end QeReport

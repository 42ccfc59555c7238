import QeReport.Lib.JsonSchema
import QeReport.Protocol.Codec

/-! # The event schema

`event.schema.json` of the 0.3 line, definition by definition.  The validator compiles for each
event type the schema without its `oneOf` together with the branch of the type (`byType`), and for
other events the schema without its `oneOf` alone (`envelope`).

`dateTime` is what `format: date-time` asks of a text; where a format is an annotation, that is
nothing. -/

namespace QeReport

namespace EventSchema

open Schema

/-! ### Patterns -/

/-- `^0\.3\.(0|[1-9][0-9]*)$`. -/
def isLineVersion (t : Text) : Bool :=
  (txt "0.3.").isPrefixOf t && isVersionNumber (t.drop 4)

/-- `^[^\r\n]{1,64}$`. -/
def isOneLine (t : Text) : Bool :=
  1 ≤ (points t).length && (points t).length ≤ 64 && t.all (fun u => u ≠ 0x0D && u ≠ 0x0A)

/-- `^[a-z][a-zA-Z0-9-]*$`. -/
def isKind : Text → Bool
  | [] => false
  | u :: t => isLower u && t.all (fun v => isAlphaNumeric v || v == unit '-')

/-- `[a-zA-Z0-9!#$&^_.+-]`. -/
def isRestrictedName (u : CodeUnit) : Bool := isAlphaNumeric u || (txt "!#$&^_.+-").contains u

/-- `.`: no line terminator. -/
def isAnyCharacter (u : CodeUnit) : Bool := !(u == 0x0A || u == 0x0D || u == 0x2028 || u == 0x2029)

/-- `^[a-zA-Z0-9!#$&^_.+-]+/[a-zA-Z0-9!#$&^_.+-]+(;.*)?$`. -/
def isMediaType (t : Text) : Bool :=
  match t.dropWhile isRestrictedName with
  | [] => false
  | slash :: t' =>
      !(t.takeWhile isRestrictedName).isEmpty && slash == unit '/' &&
        !(t'.takeWhile isRestrictedName).isEmpty &&
        match t'.dropWhile isRestrictedName with
        | [] => true
        | semicolon :: parameters => semicolon == unit ';' && parameters.all isAnyCharacter

/-- `^[0-9a-f]{64}$`. -/
def isSha256 (t : Text) : Bool :=
  t.length == 64 && t.all (fun u => isDigit u || (unit 'a' ≤ u && u ≤ unit 'f'))

/-! ### Definitions -/

def identifier : Schema :=
  schema [type .string, minLength 1, maxLength 128, pattern isIdentifier]

def shortText : Schema := schema [type .string, minLength 1, maxLength 512]

def displayText : Schema := schema [type .string, minLength 1, maxLength 1024]

def durationMs : Schema := schema [type .integer, minimum 0, maximum 9007199254740991]

def stringMap : Schema := schema [type .object, maxProperties 64,
  propertyNames (schema [minLength 1, maxLength 64]),
  additionalProperties (schema [type .string, maxLength 1024])]

def tags : Schema := schema [type .array, maxItems 64,
  items (schema [type .string, minLength 1, maxLength 128])]

def status : Schema := schema [type .string,
  enum [txt "passed", txt "failed", txt "skipped", txt "inconclusive"]]

def sessionStatus : Schema := schema [type .string,
  enum [txt "passed", txt "failed", txt "inconclusive"]]

def expectedStatus : Schema := schema [type .string,
  enum [txt "passed", txt "failed", txt "skipped"]]

def rawStatus : Schema := schema [type .string, maxLength 64, pattern isOneLine]

def location : Schema := schema [type .object, Schema.required [txt "file"],
  properties [
    (txt "file", schema [type .string, minLength 1, maxLength 1024]),
    (txt "line", schema [type .integer, minimum 1, maximum 9007199254740991]),
    (txt "column", schema [type .integer, minimum 1, maximum 9007199254740991])]]

def pathSegment : Schema := schema [type .object, Schema.required [txt "kind", txt "name"],
  properties [
    (txt "kind", schema [type .string, minLength 1, maxLength 32, pattern isKind]),
    (txt "name", schema [type .string, maxLength 1024])]]

def component : Schema := schema [type .object, Schema.required [txt "name"],
  properties [
    (txt "name", shortText),
    (txt "version", schema [type .string, maxLength 128])]]

def failure : Schema := schema [type .object, Schema.required [txt "message"],
  properties [
    (txt "message", schema [type .string, maxLength 65536]),
    (txt "type", schema [type .string, maxLength 512]),
    (txt "stackTrace", schema [type .string, maxLength 262144]),
    (txt "phase", schema [type .string, enum [txt "setup", txt "test", txt "teardown"]]),
    (txt "location", location)]]

def failures : Schema := schema [type .array, minItems 1, maxItems 32, items failure]

def testCase : Schema := schema [type .object,
  Schema.required [txt "executionId", txt "displayName", txt "path", txt "historicalIdStability"],
  properties [
    (txt "executionId", identifier),
    (txt "historicalId", schema [type .string, minLength 1, maxLength 512]),
    (txt "historicalIdStability", schema [type .string,
      enum [txt "stable", txt "uncertain", txt "unavailable"]]),
    (txt "displayName", displayText),
    (txt "path", schema [type .array, maxItems 32, items pathSegment]),
    (txt "location", location),
    (txt "tags", tags),
    (txt "labels", stringMap)],
  ifThenElse (properties [(txt "historicalIdStability", const (txt "unavailable"))])
    (properties [(txt "historicalId", never)])
    (Schema.required [txt "historicalId"])]

/-! ### Payloads -/

def sessionStarted : Schema := schema [type .object, Schema.required [txt "producer"],
  properties [
    (txt "producer", component),
    (txt "runner", component),
    (txt "environment", stringMap),
    (txt "executor", schema [type .object, properties [
      (txt "name", shortText),
      (txt "buildId", shortText),
      (txt "buildUrl", schema [type .string, maxLength 2048])]]),
    (txt "source", schema [type .object, properties [
      (txt "repository", schema [type .string, maxLength 2048]),
      (txt "revision", shortText),
      (txt "branch", shortText)]]),
    (txt "labels", stringMap)]]

def sessionFinished : Schema := schema [type .object,
  properties [
    (txt "status", sessionStatus),
    (txt "rawStatus", rawStatus),
    (txt "failures", failures)],
  dependentRequired [
    (txt "rawStatus", [txt "status"]),
    (txt "failures", [txt "status"])],
  ifThen
    (schema [properties [(txt "status", const (txt "passed"))], Schema.required [txt "status"]])
    (Schema.not (Schema.required [txt "failures"]))]

def runFinished : Schema := type .object

def attemptStarted : Schema := schema [type .object,
  Schema.required [txt "attemptId", txt "attemptNumber", txt "test"],
  properties [
    (txt "attemptId", identifier),
    (txt "attemptNumber", schema [type .integer, minimum 1, maximum 1000]),
    (txt "test", testCase)]]

def attemptFinished : Schema := schema [type .object,
  Schema.required [txt "attemptId", txt "status"],
  properties [
    (txt "attemptId", identifier),
    (txt "status", status),
    (txt "rawStatus", rawStatus),
    (txt "expectedStatus", expectedStatus),
    (txt "durationMs", durationMs),
    (txt "failures", failures)]]

def stepStarted : Schema := schema [type .object,
  Schema.required [txt "stepId", txt "attemptId", txt "name"],
  properties [
    (txt "stepId", identifier),
    (txt "attemptId", identifier),
    (txt "parentStepId", identifier),
    (txt "name", displayText),
    (txt "kind", schema [type .string, minLength 1, maxLength 64]),
    (txt "location", location)]]

def stepFinished : Schema := schema [type .object,
  Schema.required [txt "stepId", txt "attemptId", txt "status"],
  properties [
    (txt "stepId", identifier),
    (txt "attemptId", identifier),
    (txt "status", status),
    (txt "rawStatus", rawStatus),
    (txt "durationMs", durationMs),
    (txt "failures", failures)]]

def attachmentAdded : Schema := schema [type .object,
  Schema.required [txt "attemptId", txt "name", txt "mediaType", txt "sizeBytes", txt "sha256"],
  properties [
    (txt "attemptId", identifier),
    (txt "stepId", identifier),
    (txt "name", shortText),
    (txt "mediaType", schema [type .string, maxLength 255, pattern isMediaType]),
    (txt "sizeBytes", schema [type .integer, minimum 0, maximum 9007199254740991]),
    (txt "sha256", schema [type .string, pattern isSha256])]]

def scopeFailed : Schema := schema [type .object, Schema.required [txt "path", txt "failures"],
  properties [
    (txt "path", schema [type .array, minItems 1, maxItems 32, items pathSegment]),
    (txt "displayName", displayText),
    (txt "rawStatus", rawStatus),
    (txt "location", location),
    (txt "failures", failures)]]

/-- The payload of a type. -/
def payload : EventType → Schema
  | .sessionStarted => sessionStarted
  | .sessionFinished => sessionFinished
  | .runFinished => runFinished
  | .attemptStarted => attemptStarted
  | .attemptFinished => attemptFinished
  | .stepStarted => stepStarted
  | .stepFinished => stepFinished
  | .attachmentAdded => attachmentAdded
  | .scopeFailed => scopeFailed

/-! ### Events -/

section events
variable (dateTime : Text → Bool)

def timestamp : Schema := schema [type .string, format dateTime, pattern isTimestamp]

/-- The schema without its `oneOf`. -/
def envelope : Schema := schema [type .object,
  Schema.required [txt "protocolVersion", txt "eventId", txt "eventType", txt "runId",
    txt "sessionId", txt "sequence", txt "occurredAt", txt "payload"],
  properties [
    (txt "protocolVersion", schema [type .string, pattern isLineVersion]),
    (txt "eventId", identifier),
    (txt "eventType", schema [type .string, minLength 1, maxLength 64, pattern isEventTypeName]),
    (txt "runId", identifier),
    (txt "sessionId", identifier),
    (txt "sequence", schema [type .integer, minimum 1, maximum 9007199254740991]),
    (txt "occurredAt", timestamp dateTime),
    (txt "ignorable", type .boolean),
    (txt "payload", type .object)]]

/-- The branch `event.<type>` of the `oneOf`. -/
def branch (t : EventType) : Schema := schema [type .object,
  properties [(txt "eventType", const t.text), (txt "payload", payload t)]]

/-- The schema of one event type. -/
def byType (t : EventType) : Schema := schema [envelope dateTime, branch t]

/-- The schema the validator holds an event against: that of its type when it is known. -/
def validates : Option EventType → Schema
  | some t => byType dateTime t
  | none => envelope dateTime

end events

end EventSchema

end QeReport

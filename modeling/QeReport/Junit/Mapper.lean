import QeReport.Junit.Plan
import QeReport.Lib.JsMap
import QeReport.Lib.Sha256
import QeReport.Sdk.JavaSession

/-! # What the JUnit adapter makes of the platform's objects

Bounded texts, the identities of a test within a run and across runs, its place in the hierarchy,
statuses and failures. -/

namespace QeReport.Junit

open Sdk.Java (getBytes)

/-! ### Texts -/

/-- The marker of a cut text. -/
def truncated (n : ℕ) : Text := txt " [truncated " ++ natText n ++ txt " characters]"

/-- `Texts.bounded(text, max)`. -/
def bounded (text : Text) (max : ℕ) : Text :=
  if text.length ≤ max then text
  else
    let keep := max - (truncated text.length).length
    text.take keep ++ truncated (text.length - keep)

/-- `MAX_DISPLAY`. -/
def maxDisplay : ℕ := 1024

/-- `MAX_LABEL`. -/
def maxLabel : ℕ := 1024

/-- `MAX_MESSAGE`. -/
def maxMessage : ℕ := 65536

/-- `Character.isWhitespace`; no character outside of the basic plane is. -/
def isWhitespace (u : CodeUnit) : Bool :=
  (0x09 ≤ u && u ≤ 0x0D) || (0x1C ≤ u && u ≤ 0x20) || u == 0x1680 ||
    (0x2000 ≤ u && u ≤ 0x2006) || (0x2008 ≤ u && u ≤ 0x200A) || u == 0x2028 || u == 0x2029 ||
    u == 0x205F || u == 0x3000

/-- `text.isBlank()`. -/
def isBlank (text : Text) : Bool := text.all isWhitespace

/-! ### Historical identity -/

/-- `HistoricalIdentity.Derived`. -/
structure Derived where
  id : Option Text
  stability : HistoricalIdStability

/-- `sourceId(s)`. -/
def sourceId : TestSource → Option Text
  | .method className methodName types =>
      some (className ++ txt "#" ++ methodName ++ txt "(" ++ types ++ txt ")")
  | .class className => some className
  | _ => none

/-- The line of a position, after a colon. -/
def positionText (line : Option ℤ) : Text :=
  match line with
  | none => []
  | some (.ofNat n) => unit ':' :: natText n
  | some (.negSucc n) => unit ':' :: unit '-' :: natText (n + 1)

/-- `positionalId(s)`. -/
def positionalId : TestSource → Option Text
  | .file path line => some (path ++ positionText line)
  | .classpathResource name line => some (name ++ positionText line)
  | _ => none

/-- `withoutEngine(uid)` of the segments. -/
def withoutEngine (segments : List Segment) : Text :=
  (txt "/").intercalate (segments.tail.map (fun s =>
    txt "[" ++ s.type ++ txt ":" ++ s.value ++ txt "]"))

/-- The value of the first segment, that of the engine. -/
def UniqueId.engine (uid : UniqueId) : Text := (uid.segments.head uid.segments_ne_nil).value

/-- The last segment. -/
def UniqueId.last (uid : UniqueId) : Segment := uid.segments.getLast uid.segments_ne_nil

/-- `HistoricalIdentity.derive(plan, identifier)`. -/
def derive (plan : TestPlan) (id : TestIdentifier) : Derived :=
  let uid := id.uniqueId
  if uid.segments.any (fun s => (txt "dynamic-").isPrefixOf s.type) then ⟨none, .unavailable⟩
  else if uid.last.type = txt "test-template-invocation" then
    let base := ((plan.parent id).bind TestIdentifier.source).bind sourceId
    ⟨some (uid.engine ++ txt ":" ++ base.getD (withoutEngine uid.segments.dropLast) ++ txt "[" ++
      uid.last.value ++ txt "]"), .uncertain⟩
  else
    match id.source.bind sourceId with
    | some base => ⟨some (uid.engine ++ txt ":" ++ base), .stable⟩
    | none =>
        match id.source.bind positionalId with
        | some positional => ⟨some (uid.engine ++ txt ":" ++ positional), .uncertain⟩
        | none => ⟨some (uid.engine ++ txt ":" ++ withoutEngine uid.segments), .uncertain⟩

/-! ### Mapping -/

/-- `executionId(id)`. -/
def executionId (id : TestIdentifier) : Text :=
  txt "junit-" ++ (Sha256.digest (getBytes id.uniqueId.text)).take 40

/-- `segment(container)`. -/
def segment (container : TestIdentifier) : PathSegment :=
  let type := container.uniqueId.last.type
  let name := bounded container.displayName maxDisplay
  if type = txt "engine" then ⟨txt "engine", bounded container.uniqueId.engine maxDisplay⟩
  else if type = txt "class" ∨ type = txt "nested-class" ∨ type = txt "runner" then
    let className := match container.source with
      | some (.class className) => className
      | _ => name
    ⟨txt "class", bounded className maxDisplay⟩
  else ⟨txt "group", name⟩

section plan
variable (plan : TestPlan)

/-- `ancestors(plan, id)`, outermost first. -/
def ancestors (id : TestIdentifier) : List PathSegment :=
  (plan.ancestors id).reverse.map segment

/-- `bounded(path)`. -/
def boundedPath (path : List PathSegment) : List PathSegment :=
  if path.length ≤ 32 then path else path.take 32

/-- `path(plan, id)`. -/
def path (id : TestIdentifier) : List PathSegment := boundedPath (ancestors plan id)

/-- `scopePath(plan, container)`. -/
def scopePath (container : TestIdentifier) : List PathSegment :=
  boundedPath (ancestors plan container ++ [segment container])

end plan

/-- `location(source)`. -/
def location : Option TestSource → Option Location
  | some (.file path line) => some ⟨bounded path maxDisplay, line, none⟩
  | some (.classpathResource name line) => some ⟨bounded name maxDisplay, line, none⟩
  | _ => none

/-- `testCase(plan, id)`. -/
def testCase (plan : TestPlan) (id : TestIdentifier) : TestCase :=
  let history := derive plan id
  { executionId := executionId id
    historicalId := history.id
    historicalIdStability := history.stability
    displayName := bounded id.displayName maxDisplay
    path := path plan id
    location := location id.source
    tags := some ((id.tags.take 64).map (fun t => bounded t 128))
    labels := some [(txt "junit.uniqueId", bounded id.uniqueId.text maxLabel),
      (txt "junit.engine", bounded id.uniqueId.engine maxLabel),
      (txt "junit.segmentType", bounded id.uniqueId.last.type maxLabel)] }

/-- `status(status)`. -/
def status : ResultStatus → Status
  | .successful => .passed
  | .failed => .failed
  | .aborted => .skipped

/-- `failure(throwable, phase)`. -/
def failure (throwable : Throwable) (phase : Option FailurePhase) : Failure where
  message := bounded (match throwable.message with
    | none => throwable.className
    | some message => if isBlank message then throwable.className else message) maxMessage
  type := some (bounded throwable.className 512)
  stackTrace := some (bounded throwable.stackTrace 65536)
  phase := phase
  location := none

/-- `failures(throwable)`. -/
def failures (throwable : Option Throwable) : List Failure :=
  (throwable.map (fun t => failure t t.phase)).toList

/-- `Failure.of(message)`. -/
def Failure.of (message : Text) : Failure := ⟨message, none, none, none, none⟩

end QeReport.Junit

import QeReport.Lib.JsMap
import QeReport.Lib.Sha256
import QeReport.Lib.Utf8
import QeReport.Sdk.Graceful

/-! # What the Playwright reporter makes of the runner's objects

Tests, steps, errors and attachments as the runner hands them over, and the parts of payloads the
reporter maps them to: bounded texts, locations relative to the root directory, failures within
the size of an event, the identity of a test across runs.  Paths are the platform's
(`Platform`). -/

namespace QeReport.Playwright

open Sdk (AttachmentInput SourceFile trimBy)

/-- The functions of `node:path`. -/
structure Platform where
  relative : Text → Text → Text
  resolve : Text → Text
  dirname : Text → Text
  basename : Text → Text
  sep : CodeUnit

/-! ### The objects of the runner -/

structure SourceLocation where
  file : Text
  line : Option ℤ
  column : Option ℤ

/-- An error with its causes. -/
inductive TestError where
  | mk (message stack value : Option Text) (location : Option SourceLocation)
      (cause : Option TestError)

namespace TestError

def message : TestError → Option Text
  | .mk message _ _ _ _ => message

def stack : TestError → Option Text
  | .mk _ stack _ _ _ => stack

def value : TestError → Option Text
  | .mk _ _ value _ _ => value

def location : TestError → Option SourceLocation
  | .mk _ _ _ location _ => location

def cause : TestError → Option TestError
  | .mk _ _ _ _ cause => cause

end TestError

/-- An attachment; `key` is the identity of the object. -/
structure Attachment where
  key : ℕ
  name : Text
  contentType : Text
  body : Option (List ℕ)
  path : Option SourceFile

inductive SuiteType where
  | root | project | file | describe
deriving DecidableEq

structure Suite where
  type : SuiteType
  title : Text

structure Annotation where
  type : Text
  description : Option Text

/-- A test; `suites` are its parents from the inside out. -/
structure TestCase where
  id : Text
  title : Text
  suites : List Suite
  /-- `test.parent.project()?.name`. -/
  projectName : Option Text
  location : SourceLocation
  tags : List Text
  annotations : List Annotation
  expectedStatus : Text

structure TestResult where
  retry : ℕ
  workerIndex : ℤ
  status : Text
  duration : ℚ
  errors : List TestError
  attachments : List Attachment

/-- A step; `key` is the identity of the object. -/
structure TestStep where
  key : ℕ
  /-- The identity of `step.parent`. -/
  parent : Option ℕ
  title : Text
  category : Text
  location : Option SourceLocation
  duration : ℚ
  error : Option TestError
  attachments : List Attachment

/-! ### Texts -/

/-- The marker of a cut text. -/
def truncated (n : ℕ) : Text := txt " [truncated " ++ natText n ++ txt " characters]"

/-- `bounded(text, max)`. -/
def bounded (text : Text) (max : ℕ) : Text :=
  if text.length ≤ max then text
  else
    let keep := max - (truncated text.length).length
    text.take keep ++ truncated (text.length - keep)

/-- `[A-Za-z0-9._-]`. -/
def isLabelUnit (u : CodeUnit) : Bool := isAlphaNumeric u || (txt "._-").contains u

/-- `labelKey(text)`. -/
def labelKey (text : Text) : Text :=
  bounded ((points text).map (fun c =>
    if c < 128 && isLabelUnit (Fin.ofNat 65536 c) then Fin.ofNat 65536 c else unit '_')) 64

/-- Where the scan for escape sequences stands. -/
inductive Escape where
  | text | escape | csi | osc | intermediates

/-- The text without the escape sequences, from the given place on. -/
def stripFrom : Escape → Text → Text
  | _, [] => []
  | .text, u :: t => if u == 0x1b then stripFrom .escape t else u :: stripFrom .text t
  | .escape, u :: t =>
      if u == 0x5b then stripFrom .csi t
      else if u == 0x5d then stripFrom .osc t
      else if 0x20 ≤ u && u ≤ 0x2f then stripFrom .intermediates t
      else stripFrom .text t
  | .csi, u :: t => if 0x40 ≤ u && u ≤ 0x7e then stripFrom .text t else stripFrom .csi t
  | .osc, u :: t =>
      if u == 0x07 then stripFrom .text t
      else
        match u == 0x1b, t with
        | true, v :: t' => if v == 0x5c then stripFrom .text t' else stripFrom .osc (v :: t')
        | _, t => stripFrom .osc t
  | .intermediates, u :: t =>
      if 0x30 ≤ u && u ≤ 0x7e then stripFrom .text t else stripFrom .intermediates t

/-- `stripAnsi(text)`. -/
def stripAnsi (text : Text) : Text := if text.contains 0x1b then stripFrom .text text else text

/-- `split(needle).join('')`, with the units of an occurrence still to leave out. -/
def dropOccurrences (needle : Text) : ℕ → Text → Text
  | _, [] => []
  | 0, u :: t =>
      if needle.isPrefixOf (u :: t) then dropOccurrences needle (needle.length - 1) t
      else u :: dropOccurrences needle 0 t
  | n + 1, _ :: t => dropOccurrences needle n t

section platform
variable (platform : Platform)

/-- `relativeSource(rootDir, file)`. -/
def relativeSource (rootDir file : Text) : Text :=
  let rel := platform.relative rootDir file
  (if rel = [] then txt "." else rel).map (fun u => if u = platform.sep then unit '/' else u)

/-- The path leaves the root directory. -/
def isOutside (file : Text) : Bool := (txt "../").isPrefixOf file || file == txt ".."

/-- One root of `withoutRoots`. -/
def withoutRoot (text root : Text) : Text :=
  if root = [] then text
  else if endsWith root [platform.sep] then dropOccurrences root 0 text
  else dropOccurrences (root ++ [platform.sep]) 0 text

/-- `withoutRoots(text, roots)`. -/
def withoutRoots (text : Text) (roots : List Text) : Text := roots.foldl (withoutRoot platform) text

/-! ### Mapping -/

/-- `location(rootDir, loc)`. -/
def location (rootDir : Text) : Option SourceLocation → Option Location
  | none => none
  | some loc =>
      let file := relativeSource platform rootDir loc.file
      if isOutside file then none
      else some ⟨bounded file 1024, loc.line.filter (0 < ·), loc.column.filter (0 < ·)⟩

/-- `[\w$]`. -/
def isNameUnit (u : CodeUnit) : Bool := isAlphaNumeric u || u == unit '_' || u == unit '$'

/-- The name without its suffix is empty or begins with no digit. -/
def isErrorName (suffix name : Text) : Bool :=
  endsWith name suffix &&
    match name.take (name.length - suffix.length) with
    | [] => true
    | u :: _ => !isDigit u

/-- The first group of `ERROR_TYPE` in a text. -/
def errorName (text : Text) : Option Text :=
  let name := text.takeWhile isNameUnit
  if (txt ": ").isPrefixOf (text.drop name.length) &&
      (isErrorName (txt "Error") name || isErrorName (txt "Exception") name) then some name
  else none

/-- `errorType(message, stack)`. -/
def errorType (message : Text) (stack : Option Text) : Option Text :=
  (errorName message).or (stack.bind errorName)

/-- `Roots`. -/
structure Roots where
  rootDir : Text
  all : List Text

/-- The causes of an error, at most so many. -/
def causes : ℕ → Option TestError → List TestError
  | 0, _ => []
  | _, none => []
  | n + 1, some e => e :: causes n e.cause

/-- A text without escape sequences and roots. -/
def plain (roots : Roots) (text : Text) : Text := withoutRoots platform (stripAnsi text) roots.all

/-- The stack of an error and its causes. -/
def stackParts (error : TestError) (roots : Roots) : List Text :=
  (error.stack.map (plain platform roots)).toList ++
    (causes 8 error.cause).map (fun cause => txt "Caused by: " ++
      plain platform roots (((cause.stack.or cause.message).or cause.value).getD []))

/-- `failure(error, roots, phase)`. -/
def failure (error : TestError) (roots : Roots) (phase : Option FailurePhase) : Failure :=
  let message := plain platform roots
    ((error.message.or error.value).getD (txt "error without a message"))
  let parts := stackParts platform error roots
  { message := bounded message 65536
    type := (errorType message parts.head?).map (fun t => bounded t 512)
    stackTrace := if parts = [] then none else some (bounded ((txt "\n").intercalate parts) 262144)
    phase := phase
    location := location platform roots.rootDir error.location }

end platform

/-- `errorKey(error)`. -/
def errorKey (error : TestError) : Text := error.message.getD [] ++ unit '\n' :: error.stack.getD []

/-- `status(raw)`. -/
def status (raw : Text) : Option Status :=
  if raw = txt "passed" then some .passed
  else if raw = txt "failed" ∨ raw = txt "timedOut" then some .failed
  else if raw = txt "skipped" then some .skipped
  else if raw = txt "interrupted" then some .inconclusive
  else none

/-- `sessionStatus(raw)`. -/
def sessionStatus (raw : Text) : Option SessionStatus :=
  if raw = txt "passed" then some .passed
  else if raw = txt "failed" ∨ raw = txt "timedout" then some .failed
  else if raw = txt "interrupted" then some .inconclusive
  else none

/-- `expectedStatus(raw)`. -/
def expectedStatus (raw : Text) : Option ExpectedStatus :=
  if raw = txt "passed" then some .passed
  else if raw = txt "failed" then some .failed
  else if raw = txt "skipped" then some .skipped
  else none

/-! ### Media types -/

/-- ``[!#$%&'*+.^_`|~0-9A-Za-z-]``. -/
def isTokenUnit (u : CodeUnit) : Bool :=
  isAlphaNumeric u || (txt "!#$%&*+.^_|~-").contains u || u == 0x27 || u == 0x60

/-- Where the match of `MEDIA_TYPE` stands. -/
inductive MediaState where
  | typeStart | type | subtypeStart | subtype | parameterStart | attribute | valueStart | value
  | failed
deriving DecidableEq

/-- One unit of `^TOKEN/TOKEN(?:;\s*TOKEN=TOKEN)*$`. -/
def MediaState.next (s : MediaState) (u : CodeUnit) : MediaState :=
  match s with
  | .typeStart => if isTokenUnit u then .type else .failed
  | .type => if isTokenUnit u then .type else if u == unit '/' then .subtypeStart else .failed
  | .subtypeStart => if isTokenUnit u then .subtype else .failed
  | .subtype => if isTokenUnit u then .subtype else if u == unit ';' then .parameterStart else .failed
  | .parameterStart =>
      if isWhiteSpace u then .parameterStart else if isTokenUnit u then .attribute else .failed
  | .attribute => if isTokenUnit u then .attribute else if u == unit '=' then .valueStart else .failed
  | .valueStart => if isTokenUnit u then .value else .failed
  | .value => if isTokenUnit u then .value else if u == unit ';' then .parameterStart else .failed
  | .failed => .failed

/-- `MEDIA_TYPE.test(t)`. -/
def matchesMediaType (t : Text) : Bool :=
  let s := t.foldl MediaState.next .typeStart
  s == .subtype || s == .value

/-- `mediaType(contentType)`. -/
def mediaType (contentType : Text) : Text :=
  let t := trimBy isWhiteSpace contentType
  if t.length ≤ 255 && matchesMediaType t then t else txt "application/octet-stream"

/-! ### Failures of one event -/

/-- The bytes a failure counts with. -/
def failureSize (f : Failure) : ℕ := byteLength f.message + byteLength (f.stackTrace.getD [])

/-- `FAILURE_TEXT_BUDGET`. -/
def failureTextBudget : ℕ := 786432

/-- The loop of `withinBudget`, with the bytes used and the failures omitted so far. -/
def withinBudgetFrom : ℕ → ℕ → List Failure → List Failure
  | _, omitted, [] =>
      if omitted = 0 then []
      else [⟨txt "[" ++ natText omitted ++
        txt " further failure(s) omitted: their text exceeded the event size budget]",
        none, none, none, none⟩]
  | used, omitted, f :: fs =>
      let candidate := if used + failureSize f > failureTextBudget then { f with stackTrace := none }
        else f
      if used + failureSize candidate > failureTextBudget then withinBudgetFrom used (omitted + 1) fs
      else candidate :: withinBudgetFrom (used + failureSize candidate) omitted fs

/-- `withinBudget(failures)`. -/
def withinBudget (failures : List Failure) : List Failure :=
  if (failures.map failureSize).sum ≤ failureTextBudget then failures
  else withinBudgetFrom 0 0 failures

/-! ### Identity -/

/-- The authored position of a test. -/
structure Hierarchy where
  project : Text
  file : Text
  groups : List Text
  title : Text
deriving DecidableEq

/-- `hierarchy(test, rootDir)`. -/
def hierarchy (platform : Platform) (test : TestCase) (rootDir : Text) : Hierarchy :=
  let project := ((test.suites.filter (fun s => s.type = .project)).getLast?.map Suite.title).getD []
  let file := relativeSource platform rootDir test.location.file
  { project := if project = [] then test.projectName.getD [] else project
    file := if isOutside file then platform.basename test.location.file else file
    groups := ((test.suites.filter (fun s => s.type = .describe)).map Suite.title).reverse
    title := test.title }

/-- `historicalId(h)`. -/
def historicalId (h : Hierarchy) : Text :=
  let canonical := [(0x1e : CodeUnit)].intercalate (h.project :: h.file :: h.groups ++ [h.title])
  (Sha256.digest (utf8 canonical)).take 40

/-- `pathSegments(h)`. -/
def pathSegments (h : Hierarchy) : List PathSegment :=
  let project := if h.project = [] then [] else [⟨txt "project", bounded h.project 1024⟩]
  let file : PathSegment := ⟨txt "file", bounded h.file 1024⟩
  let groups := h.groups.map (fun g => ⟨txt "group", bounded g 1024⟩)
  (project ++ file :: groups).take 32

end QeReport.Playwright

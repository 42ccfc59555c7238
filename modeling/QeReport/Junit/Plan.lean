import QeReport.Lib.Forest
import QeReport.Protocol.Model

/-! # The objects of the JUnit Platform

Test identifiers, the plan they form and the results the launcher hands to a listener.  A unique
id has a first segment, that of its engine; a plan is a forest of identifiers, of which it knows
those that are registered. -/

namespace QeReport.Junit

/-- `UniqueId.Segment`. -/
structure Segment where
  type : Text
  value : Text
deriving DecidableEq

/-- `UniqueId`: its segments and the text of `toString()`. -/
structure UniqueId where
  segments : List Segment
  text : Text
  segments_ne_nil : segments ≠ []
deriving DecidableEq

/-- `TestSource`; a position is its line. -/
inductive TestSource where
  | method (className methodName methodParameterTypes : Text)
  | class (className : Text)
  | file (path : Text) (line : Option ℤ)
  | classpathResource (name : Text) (line : Option ℤ)
  | other
deriving DecidableEq

/-- `TestDescriptor.Type`. -/
inductive TestType where
  | test | container | containerAndTest
deriving DecidableEq

structure TestIdentifier where
  uniqueId : UniqueId
  displayName : Text
  source : Option TestSource
  tags : List Text
  type : TestType
deriving DecidableEq

namespace TestIdentifier

/-- `isTest()`. -/
def isTest (id : TestIdentifier) : Bool := id.type ≠ .container

/-- `isContainer()`. -/
def isContainer (id : TestIdentifier) : Bool := id.type ≠ .test

end TestIdentifier

/-- `TestPlan`: the parents of identifiers, and the identifiers registered below one. -/
structure TestPlan extends Forest TestIdentifier where
  registered : TestIdentifier → Prop
  getDescendants : TestIdentifier → List TestIdentifier
  nodup_getDescendants : ∀ container, (getDescendants container).Nodup
  mem_getDescendants : ∀ container id, id ∈ getDescendants container ↔
    registered id ∧ container ∈ toForest.ancestors id

/-- `Throwable`: `phase` is what its frames say of the place it was thrown at. -/
structure Throwable where
  className : Text
  message : Option Text
  /-- What `printStackTrace` writes. -/
  stackTrace : Text
  phase : Option FailurePhase
deriving DecidableEq

/-- `TestExecutionResult.Status`. -/
inductive ResultStatus where
  | successful | aborted | failed
deriving DecidableEq

/-- `name()`. -/
def ResultStatus.text : ResultStatus → Text
  | .successful => txt "SUCCESSFUL"
  | .aborted => txt "ABORTED"
  | .failed => txt "FAILED"

structure TestExecutionResult where
  status : ResultStatus
  throwable : Option Throwable
deriving DecidableEq

/-- `ReportEntry`: the text of its timestamp and its pairs in their order. -/
structure ReportEntry where
  timestamp : Text
  keyValuePairs : List (Text × Text)

end QeReport.Junit

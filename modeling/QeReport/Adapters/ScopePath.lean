import QeReport.Junit.Reporter
import QeReport.Playwright.Bounded
import QeReport.Playwright.Reporter

/-! # Paths of scopes and of the tests below them

A consumer places a scope failure in the tree by comparing its path with the paths of tests.  The
JUnit adapter builds both from the lineage of an identifier, so that the path of a container
begins the path of every test below it.  The Playwright reporter leaves the project out of the
path of a file, which is in the path of a test when the project has a name. -/

namespace QeReport

open Sdk (Call Request redactPath)

/-- Redaction of the names keeps prefixes. -/
theorem redactPath_prefix (f : Text → Text) {path path' : List PathSegment} (h : path <+: path') :
    redactPath f path <+: redactPath f path' := h.map _

/-! ### The JUnit adapter -/

namespace Junit
variable {plan : TestPlan} {r : RunReporter} {c : Callback} {ids : List TestIdentifier}

theorem boundedPath_eq (path : List PathSegment) : boundedPath path = path.take 32 := by
  rw [boundedPath]
  split_ifs with h
  · exact (List.take_of_length_le h).symm
  · rfl

/-- The segments of a container and of what is above it, outermost first. -/
theorem ancestors_concat (plan : TestPlan) (container : TestIdentifier) :
    ancestors plan container ++ [segment container] =
      (plan.lineage container).reverse.map segment := by
  rw [ancestors, Forest.lineage, List.reverse_cons, List.map_append, List.map_singleton]

theorem scopePath_prefix {container id : TestIdentifier} (h : container ∈ plan.ancestors id) :
    scopePath plan container <+: path plan id := by
  rw [scopePath, path, boundedPath_eq, boundedPath_eq, ancestors_concat, ancestors]
  apply List.IsPrefix.take
  apply List.IsPrefix.map
  exact List.reverse_prefix.mpr (Forest.lineage_suffix h)

/-- The calls of handlers in turn come from one of them. -/
theorem exists_of_mem_inTurn {handler : RunReporter → TestIdentifier → List Call × RunReporter}
    {call : Call} (h : call ∈ (inTurn handler r ids).1) :
    ∃ r' id, id ∈ ids ∧ call ∈ (handler r' id).1 := by
  induction ids generalizing r with
  | nil => exact absurd h List.not_mem_nil
  | cons id ids ih =>
      rw [inTurn] at h
      rcases List.mem_append.mp h with h | h
      · exact ⟨r, id, List.mem_cons_self, h⟩
      · obtain ⟨r', id', hid, hcall⟩ := ih h
        exact ⟨r', id', List.mem_cons_of_mem _ hid, hcall⟩

/-- Synthesised attempts are no scope failures. -/
theorem scopeFailed_not_mem_synthesize {status : Status} {raw : Text} {failures : List Failure}
    {id : TestIdentifier} {s : ScopeFailedPayload} :
    Call.emit (.scopeFailed s) ∉ (synthesize plan status raw failures r id).1 := by
  simp [synthesize]

/-- Only a container that finishes reports a scope failure, that of its own scope. -/
theorem scopeFailed_of_mem {s : ScopeFailedPayload}
    (h : Call.emit (.scopeFailed s) ∈ (handle plan r c).1) :
    ∃ now id result, c = .finished now id result ∧ s = scopeFailed plan id result := by
  cases c with
  | started now id =>
      rw [handle, started] at h
      split_ifs at h <;> simp [startAttempt] at h
  | finished now id result =>
      refine ⟨now, id, result, rfl, ?_⟩
      rw [handle, finished] at h
      dsimp only at h
      split_ifs at h
      · cases hopen : r.opened.get? id.uniqueId.text <;> simp [hopen] at h
      · simp at h
      · obtain ⟨r', id', -, h⟩ := exists_of_mem_inTurn h
        exact absurd h scopeFailed_not_mem_synthesize
      · simpa using h
  | skipped id reason =>
      rw [handle, skipped] at h
      split_ifs at h with htest
      · exact absurd h scopeFailed_not_mem_synthesize
      · obtain ⟨r', id', -, h⟩ := exists_of_mem_inTurn h
        exact absurd h scopeFailed_not_mem_synthesize
  | reportingEntry id entry =>
      rw [handle, reportingEntry] at h
      cases hopen : r.opened.get? id.uniqueId.text <;> simp [hopen] at h

/-- A scope failure that the end of a container reports. -/
def FailsScope (plan : TestPlan) (container : TestIdentifier) (s : ScopeFailedPayload) : Prop :=
  ∃ r now result, Call.emit (.scopeFailed s) ∈ (handle plan r (.finished now container result)).1

/-- A start of an attempt of a test that a callback reports. -/
def StartsTest (plan : TestPlan) (test : TestIdentifier) (a : AttemptStartedPayload) : Prop :=
  ∃ r c, Call.emit (.attemptStarted a) ∈ (handle plan r c).1 ∧ a.test = testCase plan test

/-- Whatever was registered in between, a scope begins the paths of the tests below it. -/
theorem scope_prefix {plan' : TestPlan} {container test : TestIdentifier} {s : ScopeFailedPayload}
    {a : AttemptStartedPayload} (hplan : plan'.toForest = plan.toForest)
    (hs : FailsScope plan container s) (ha : StartsTest plan' test a)
    (hbelow : container ∈ plan.ancestors test) : s.path <+: a.test.path := by
  obtain ⟨r, now, result, hs⟩ := hs
  obtain ⟨r', c, -, ha⟩ := ha
  obtain ⟨now', id, result', hc, rfl⟩ := scopeFailed_of_mem hs
  obtain ⟨rfl, rfl, rfl⟩ := Callback.finished.inj hc
  have hpath : path plan' test = path plan test := by
    rw [path, path, ancestors, ancestors, hplan]
  rw [ha, testCase, scopeFailed, hpath]
  exact scopePath_prefix hbelow

end Junit

/-! ### The Playwright reporter -/

namespace Playwright
variable {platform : Platform} {config : Config} {r : Reporter}

/-- The test belongs to a project that has a name. -/
def HasNamedProject (test : TestCase) : Prop :=
  (∃ s, (test.suites.filter (fun s => s.type = .project)).getLast? = some s ∧ s.title ≠ []) ∨
    ∃ name, test.projectName = some name ∧ name ≠ []

theorem hierarchy_project (test : TestCase) (rootDir : Text) :
    (hierarchy platform test rootDir).project = [] ↔ ¬ HasNamedProject test := by
  cases hsuite : (test.suites.filter (fun s => s.type = .project)).getLast? with
  | none => cases hname : test.projectName <;> simp [hierarchy, HasNamedProject, hsuite, hname]
  | some s =>
      by_cases htitle : s.title = []
      · cases hname : test.projectName <;>
          simp [hierarchy, HasNamedProject, hsuite, hname, htitle]
      · simp [hierarchy, HasNamedProject, hsuite, htitle]

/-- The path of a file begins the path of its tests exactly without a project. -/
theorem file_prefix_iff (f : Text → Text) (h : Hierarchy) :
    redactPath f [⟨txt "file", bounded h.file 1024⟩] <+: redactPath f (pathSegments h) ↔
      h.project = [] := by
  have hkind : txt "file" ≠ txt "project" := by decide
  by_cases hproject : h.project = []
  · simp [pathSegments, hproject, redactPath]
  · simp [pathSegments, hproject, redactPath, hkind]

/-- An error reports the file it is located in. -/
theorem scopeFailed_of_mem {error : TestError} {s : ScopeFailedPayload}
    (h : Request.call (.emit (.scopeFailed s)) ∈ (onError platform config r error).1) :
    ∃ file, fileScopeOf platform config error = some file ∧
      s.path = [⟨txt "file", bounded file 1024⟩] := by
  rw [onError] at h
  cases hfile : fileScopeOf platform config error with
  | none => cases hphase : invocationPhase platform config error <;> simp [hfile, hphase] at h
  | some file =>
      refine ⟨file, rfl, ?_⟩
      simp only [hfile, List.mem_singleton, Request.call.injEq, Call.emit.injEq,
        Payload.scopeFailed.injEq] at h
      rw [h]

/-- A file with a scope lies in the root directory and is named as its tests name it. -/
theorem fileScopeOf_eq_some {error : TestError} {file : Text}
    (h : fileScopeOf platform config error = some file) :
    ∃ loc, error.location = some loc ∧
      isOutside (relativeSource platform config.roots.rootDir loc.file) = false ∧
      file = bounded (relativeSource platform config.roots.rootDir loc.file) 1024 := by
  rw [fileScopeOf] at h
  cases hloc : error.location with
  | none => simp [hloc] at h
  | some loc =>
      refine ⟨loc, rfl, ?_⟩
      simp only [hloc, location] at h
      split_ifs at h with hrunner hout
      · simp at h
      · simp only [Option.map_some, Option.some.injEq] at h
        exact ⟨by simpa using hout, h.symm⟩

/-- An attempt is started with the path of its test. -/
theorem attemptStarted_of_mem {test : TestCase} {result : TestResult} {a : AttemptStartedPayload}
    (h : Request.call (.emit (.attemptStarted a)) ∈ (onTestBegin platform config r test result).1) :
    a.test.path = pathSegments (hierarchy platform test config.roots.rootDir) := by
  rw [onTestBegin] at h
  split_ifs at h
  · simp at h
  · simp only [List.mem_singleton, Request.call.injEq, Call.emit.injEq,
      Payload.attemptStarted.injEq] at h
    rw [h, testModel]

/-- A scope failure that an error reports. -/
def FailsScope (platform : Platform) (config : Config) (error : TestError)
    (s : ScopeFailedPayload) : Prop :=
  ∃ r, Request.call (.emit (.scopeFailed s)) ∈ (onError platform config r error).1

/-- A start of an attempt of a test. -/
def StartsTest (platform : Platform) (config : Config) (test : TestCase)
    (a : AttemptStartedPayload) : Prop :=
  ∃ r result,
    Request.call (.emit (.attemptStarted a)) ∈ (onTestBegin platform config r test result).1

/-- The test lies in the file the error is located in. -/
def InFileOf (platform : Platform) (config : Config) (test : TestCase) (error : TestError) : Prop :=
  ∃ loc, error.location = some loc ∧
    relativeSource platform config.roots.rootDir test.location.file =
      relativeSource platform config.roots.rootDir loc.file

theorem scope_prefix_iff (f : Text → Text) {error : TestError} {test : TestCase}
    {s : ScopeFailedPayload} {a : AttemptStartedPayload} (hs : FailsScope platform config error s)
    (ha : StartsTest platform config test a) (hfile : InFileOf platform config test error)
    (hlength : (relativeSource platform config.roots.rootDir test.location.file).length < 2 ^ 53) :
    redactPath f s.path <+: redactPath f a.test.path ↔ ¬ HasNamedProject test := by
  obtain ⟨r, hs⟩ := hs
  obtain ⟨r', result, ha⟩ := ha
  obtain ⟨loc, hloc, hsame⟩ := hfile
  obtain ⟨file, hscope, hpath⟩ := scopeFailed_of_mem hs
  obtain ⟨loc', hloc', hinside, rfl⟩ := fileScopeOf_eq_some hscope
  obtain rfl := Option.some.inj (hloc.symm.trans hloc')
  have hmarker := length_truncated_le hlength
  rw [hsame] at hmarker
  have hname : (hierarchy platform test config.roots.rootDir).file =
      relativeSource platform config.roots.rootDir loc.file := by
    rw [hierarchy, hsame, hinside]
    rfl
  rw [hpath, attemptStarted_of_mem ha, bounded_bounded (by omega), ← hname, file_prefix_iff,
    hierarchy_project]

end Playwright

/-- The scope paths of the JUnit adapter are prefixes of the paths of the tests below, and those
of the Playwright reporter exactly for the tests of no named project; written paths included. -/
theorem scopePaths_prefix_iff (f : Text → Text) :
    (∀ (plan plan' : Junit.TestPlan) (container test : Junit.TestIdentifier)
      (s : ScopeFailedPayload) (a : AttemptStartedPayload),
      plan'.toForest = plan.toForest → Junit.FailsScope plan container s →
      Junit.StartsTest plan' test a → container ∈ plan.ancestors test →
      redactPath f s.path <+: redactPath f a.test.path) ∧
    ∀ (platform : Playwright.Platform) (config : Playwright.Config) (error : Playwright.TestError)
      (test : Playwright.TestCase) (s : ScopeFailedPayload) (a : AttemptStartedPayload),
      Playwright.FailsScope platform config error s →
      Playwright.StartsTest platform config test a →
      Playwright.InFileOf platform config test error →
      (Playwright.relativeSource platform config.roots.rootDir test.location.file).length < 2 ^ 53 →
      (redactPath f s.path <+: redactPath f a.test.path ↔ ¬ Playwright.HasNamedProject test) := by
  refine ⟨?_, ?_⟩
  · intro plan plan' container test s a hplan hs ha hbelow
    exact redactPath_prefix f (Junit.scope_prefix hplan hs ha hbelow)
  · intro platform config error test s a hs ha hfile hlength
    exact Playwright.scope_prefix_iff f hs ha hfile hlength

/-! ### A plan and a project -/

namespace Junit.Sample

def engine : TestIdentifier :=
  ⟨⟨[⟨txt "engine", txt "junit-jupiter"⟩], txt "[engine:junit-jupiter]", List.cons_ne_nil _ _⟩,
    txt "JUnit Jupiter", none, [], .container⟩

def test : TestIdentifier :=
  ⟨⟨[⟨txt "engine", txt "junit-jupiter"⟩, ⟨txt "method", txt "pays()"⟩],
    txt "[engine:junit-jupiter]/[method:pays()]", List.cons_ne_nil _ _⟩,
    txt "pays()", none, [], .test⟩

theorem test_ne_engine : test ≠ engine := by decide

/-- One test below its engine. -/
def forest : Forest TestIdentifier where
  parent id := if id = test then some engine else none
  rank id := if id = test then 1 else 0
  rank_lt a b h := by
    split_ifs at h with ha
    obtain rfl := Option.some.inj h
    rw [if_pos ha, if_neg test_ne_engine.symm]
    exact Nat.zero_lt_one

theorem ancestors_test : forest.ancestors test = [engine] := by
  have htest : forest.parent test = some engine := by simp [forest]
  have hengine : forest.parent engine = none := by simp [forest, test_ne_engine.symm]
  rw [Forest.ancestors_of_parent htest, Forest.lineage, Forest.ancestors_of_root hengine]

def plan : TestPlan where
  toForest := forest
  registered id := id = test
  getDescendants container := if container = engine then [test] else []
  nodup_getDescendants container := by split_ifs <;> simp
  mem_getDescendants container id := by
    split_ifs with h
    · simp only [List.mem_singleton]
      refine ⟨fun hid => ⟨hid, ?_⟩, And.left⟩
      rw [hid, h, ancestors_test]
      exact List.mem_singleton_self engine
    · refine ⟨fun hid => absurd hid List.not_mem_nil, fun ⟨hid, hbelow⟩ => ?_⟩
      rw [hid, ancestors_test] at hbelow
      exact absurd (List.mem_singleton.mp hbelow) h

end Junit.Sample

namespace Playwright.Sample

/-- Paths with slashes, relative to a directory above. -/
def platform : Platform where
  relative root file :=
    if (root ++ txt "/").isPrefixOf file then file.drop (root.length + 1) else txt ".."
  resolve := id
  dirname := id
  basename := id
  sep := unit '/'

def config : Config := ⟨⟨txt "/repo", [txt "/repo"]⟩, none, none, true⟩

def error : TestError :=
  .mk (some (txt "SyntaxError: missing )")) none none
    (some ⟨txt "/repo/pay.spec.ts", some 3, none⟩) none

/-- A test of the file the error lies in. -/
def test (project : Option Text) : TestCase :=
  ⟨txt "id", txt "pays", [], project, ⟨txt "/repo/pay.spec.ts", some 7, none⟩, [], [],
    txt "passed"⟩

def result : TestResult := ⟨0, 0, txt "passed", 0, [], []⟩

/-- The scope failure of the error. -/
def scopeFailed : ScopeFailedPayload where
  path := [⟨txt "file", txt "pay.spec.ts"⟩]
  displayName := some (txt "pay.spec.ts")
  rawStatus := none
  location := some ⟨txt "pay.spec.ts", some 3, none⟩
  failures := [⟨txt "SyntaxError: missing )", some (txt "SyntaxError"), none, some .setup,
    some ⟨txt "pay.spec.ts", some 3, none⟩⟩]

theorem failsScope : FailsScope platform config error scopeFailed := by
  have hfile : fileScopeOf platform config error = some (txt "pay.spec.ts") := by decide
  have hpath : bounded (txt "pay.spec.ts") 1024 = txt "pay.spec.ts" := by decide
  have hfailure : failure platform error config.roots none =
      ⟨txt "SyntaxError: missing )", some (txt "SyntaxError"), none, none,
        some ⟨txt "pay.spec.ts", some 3, none⟩⟩ := by
    decide
  refine ⟨.new, ?_⟩
  rw [onError, hfile, hfailure]
  dsimp only
  rw [hpath]
  exact List.mem_singleton_self _

/-- The start of the attempt of the test. -/
def attemptStarted (project : Option Text) : AttemptStartedPayload :=
  ⟨attemptId (test project) result, 1, testModel platform config (test project) result⟩

theorem startsTest (project : Option Text) :
    StartsTest platform config (test project) (attemptStarted project) :=
  ⟨.new, result, List.mem_singleton_self _⟩

theorem inFileOf (project : Option Text) : InFileOf platform config (test project) error :=
  ⟨_, rfl, rfl⟩

end Playwright.Sample

/-- The scope of the engine begins the path of its test, that of the file of the test of no
project. -/
theorem scopePaths_prefix_sample :
    redactPath id (Junit.scopeFailed Junit.Sample.plan Junit.Sample.engine ⟨.failed, none⟩).path <+:
      redactPath id (Junit.testCase Junit.Sample.plan Junit.Sample.test).path ∧
    redactPath id Playwright.Sample.scopeFailed.path <+:
      redactPath id (Playwright.Sample.attemptStarted none).test.path := by
  obtain ⟨hjunit, hplaywright⟩ := scopePaths_prefix_iff id
  refine ⟨?_, ?_⟩
  · have hbelow : Junit.Sample.engine ∈ Junit.Sample.plan.ancestors Junit.Sample.test := by
      rw [Junit.Sample.plan, Junit.Sample.ancestors_test]
      exact List.mem_singleton_self _
    exact hjunit Junit.Sample.plan Junit.Sample.plan Junit.Sample.engine Junit.Sample.test _
      ⟨_, 1, Junit.testCase Junit.Sample.plan Junit.Sample.test⟩ rfl
      ⟨.new, 0, ⟨.failed, none⟩, List.mem_singleton_self _⟩
      ⟨.new, .started 0 Junit.Sample.test, List.mem_singleton_self _, rfl⟩ hbelow
  · apply (hplaywright _ _ _ _ _ _ Playwright.Sample.failsScope (Playwright.Sample.startsTest none)
      (Playwright.Sample.inFileOf none) (by decide)).mpr
    rintro (⟨s, hs, -⟩ | ⟨name, hname, -⟩)
    · exact absurd hs (by simp [Playwright.Sample.test])
    · exact absurd hname (by simp [Playwright.Sample.test])

/-- In a named project the path of the file begins no path of its tests. -/
theorem scopePath_prefix_project :
    ¬ ∀ (error : Playwright.TestError) (test : Playwright.TestCase) (s : ScopeFailedPayload)
      (a : AttemptStartedPayload),
      Playwright.FailsScope Playwright.Sample.platform Playwright.Sample.config error s →
      Playwright.StartsTest Playwright.Sample.platform Playwright.Sample.config test a →
      Playwright.InFileOf Playwright.Sample.platform Playwright.Sample.config test error →
      s.path <+: a.test.path := by
  intro h
  have hprefix := h _ _ _ _ Playwright.Sample.failsScope
    (Playwright.Sample.startsTest (some (txt "chromium"))) (Playwright.Sample.inFileOf _)
  have hpath : (Playwright.Sample.attemptStarted (some (txt "chromium"))).test.path =
      [⟨txt "project", txt "chromium"⟩, ⟨txt "file", txt "pay.spec.ts"⟩] := by
    decide
  rw [hpath] at hprefix
  exact absurd (List.cons_prefix_cons.mp hprefix).1 (by decide)

end QeReport

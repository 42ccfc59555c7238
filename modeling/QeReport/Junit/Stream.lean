import QeReport.Adapters.ScopePath
import QeReport.Sdk.Conformance
import QeReport.Sdk.JavaWriting
import QeReport.Validator.Ledger

/-! # The stream of the JUnit adapter

An identifier can be reported many times: started again after it finished, skipped, prevented by a
container above it.  Every report is an attempt of its own, with the next number of its execution,
so that the stream keeps to the lifecycle (`Tracks`); only a test that is never finished spoils
it, because closing the session does not close its attempts (`stream_valid_iff`). -/

namespace QeReport.Junit

open Sdk (Call Request YieldsAll yieldsAll_append yieldsAll_emit yieldsAll_emits)
open Role (Ledger)

/-! ### Callbacks -/

namespace Callback

/-- The unique id of a test that a callback starts; containers are only watched. -/
def starts : Callback → Option Text
  | .started _ id => if id.isContainer then none else some id.uniqueId.text
  | _ => none

/-- The unique id of a test that a callback finishes. -/
def finishes : Callback → Option Text
  | .finished _ id _ => if id.isTest then some id.uniqueId.text else none
  | _ => none

/-- The identifiers that a callback can report, with those planned below its own. -/
def reports (plan : TestPlan) : Callback → List TestIdentifier
  | .started _ id => [id]
  | .finished _ id _ => plan.getDescendants id
  | .skipped id _ => id :: plan.getDescendants id
  | .reportingEntry _ _ => []

end Callback

/-- A start that no finish follows. -/
def LeftOpen (k : Text) (cs : List (TestPlan × Callback)) : Prop :=
  ∃ p c q, cs = p ++ c :: q ∧ c.2.starts = some k ∧ ∀ e ∈ q, e.2.finishes ≠ some k

/-- What the platform keeps to: a test that is open does not start, and an execution id has one
history. -/
structure WellFormed (cs : List (TestPlan × Callback)) : Prop where
  starts : ∀ p c q k, cs = p ++ c :: q → c.2.starts = some k → ¬ LeftOpen k p
  histories : ∀ c ∈ cs, ∀ c' ∈ cs, ∀ id ∈ c.2.reports c.1, ∀ id' ∈ c'.2.reports c'.1,
    executionId id = executionId id' → derive c.1 id = derive c'.1 id'

theorem leftOpen_concat {k : Text} {cs : List (TestPlan × Callback)} {c : TestPlan × Callback} :
    LeftOpen k (cs ++ [c]) ↔
      c.2.starts = some k ∨ LeftOpen k cs ∧ c.2.finishes ≠ some k := by
  constructor
  · rintro ⟨p, s, q, heq, hstart, hq⟩
    rcases List.eq_nil_or_concat' q with rfl | ⟨q, e, rfl⟩
    · obtain ⟨-, hc⟩ := List.append_inj' heq rfl
      obtain rfl := List.singleton_injective hc
      exact .inl hstart
    · rw [← List.cons_append, ← List.append_assoc] at heq
      obtain ⟨rfl, hc⟩ := List.append_inj' heq rfl
      obtain rfl := List.singleton_injective hc
      exact .inr ⟨⟨p, s, q, rfl, hstart, fun e he => hq e (List.mem_append_left _ he)⟩,
        hq c (by simp)⟩
  · rintro (hstart | ⟨⟨p, s, q, rfl, hstart, hq⟩, hc⟩)
    · exact ⟨cs, c, [], rfl, hstart, fun e he => by cases he⟩
    · refine ⟨p, s, q ++ [c], by simp, hstart, fun e he => ?_⟩
      rcases List.mem_append.mp he with he | he
      · exact hq e he
      · rwa [List.mem_singleton.mp he]

theorem not_leftOpen_of_starts {k : Text} {cs : List (TestPlan × Callback)}
    (h : ∀ c ∈ cs, c.2.starts ≠ some k) : ¬ LeftOpen k cs := by
  rintro ⟨p, c, q, rfl, hstart, -⟩
  exact h c (by simp) hstart

/-- Callbacks stay well formed behind one that starts nothing that is open and reports nothing
with another history. -/
theorem WellFormed.concat {cs : List (TestPlan × Callback)} {c : TestPlan × Callback}
    (h : WellFormed cs) (hstarts : ∀ k, c.2.starts = some k → ¬ LeftOpen k cs)
    (hhistories : ∀ c' ∈ cs ++ [c], ∀ id ∈ c.2.reports c.1, ∀ id' ∈ c'.2.reports c'.1,
      executionId id = executionId id' → derive c.1 id = derive c'.1 id') :
    WellFormed (cs ++ [c]) where
  starts p d q k heq hd := by
    rcases List.eq_nil_or_concat' q with rfl | ⟨q, e, rfl⟩
    · obtain ⟨rfl, hc⟩ := List.append_inj' heq rfl
      obtain rfl := List.singleton_injective hc
      exact hstarts k hd
    · rw [← List.cons_append, ← List.append_assoc] at heq
      obtain ⟨rfl, -⟩ := List.append_inj' heq rfl
      exact h.starts p d q k rfl hd
  histories d hd d' hd' id hid id' hid' hsame := by
    rcases List.mem_append.mp hd with hd | hd
    · rcases List.mem_append.mp hd' with hd' | hd'
      · exact h.histories d hd d' hd' id hid id' hid' hsame
      · rw [List.mem_singleton.mp hd'] at hid' ⊢
        exact (hhistories d (List.mem_append_left _ hd) id' hid' id hid hsame.symm).symm
    · rw [List.mem_singleton.mp hd] at hid ⊢
      exact hhistories d' hd' id hid id' hid' hsame

theorem attemptId_inj {id id' : TestIdentifier} {m n : ℕ} (h : attemptId id m = attemptId id' n) :
    executionId id = executionId id' ∧ m = n := by
  have hhyphen : txt "-" = [unit '-'] := rfl
  rw [attemptId, attemptId, hhyphen, List.append_assoc, List.append_assoc, List.singleton_append,
    List.singleton_append] at h
  exact numbered_inj h

/-! ### The ledger of the reporter -/

/-- The attempts that are open. -/
def RunReporter.running (r : RunReporter) : Set Text :=
  {a | ∃ k o, r.opened.get? k = some o ∧ o.attemptId = a}

/-- The executions of an id so far. -/
def RunReporter.count (r : RunReporter) (x : Text) : ℕ := (r.executions.get? x).getD 0

/-- The attempts of a stream are numbered executions of what the callbacks report. -/
def Origins (cs : List (TestPlan × Callback)) (r : RunReporter) (rs : List Role) : Prop :=
  ∀ a x n h s, .attemptStarted a x n h s ∈ rs → ∃ c ∈ cs, ∃ id ∈ c.2.reports c.1,
    x = executionId id ∧ a = attemptId id n ∧ h = (derive c.1 id).id ∧
      s = (derive c.1 id).stability ∧ n ≤ r.count x

/-- The reporter keeps a ledger of its stream. -/
structure Tracks (cs : List (TestPlan × Callback)) (r : RunReporter) (rs : List Role) : Prop where
  ledger : Ledger rs r.running ∅
  distinct : ∀ k k' o o', r.opened.get? k = some o → r.opened.get? k' = some o' →
    o.attemptId = o'.attemptId → k = k'
  origins : Origins cs r rs

section tracks
variable {cs : List (TestPlan × Callback)} {r : RunReporter} {rs : List Role}

/-- Only the open attempts and the counts matter. -/
theorem Tracks.congr {r' : RunReporter} (h : Tracks cs r rs) (hopened : r'.opened = r.opened)
    (hexecutions : r'.executions = r.executions) : Tracks cs r' rs := by
  obtain ⟨opened, containers, executions⟩ := r
  obtain ⟨opened', containers', executions'⟩ := r'
  obtain rfl : opened' = opened := hopened
  obtain rfl : executions' = executions := hexecutions
  exact ⟨h.ledger, h.distinct, h.origins⟩

/-- Roles that start no attempt do not ask for another origin. -/
theorem Origins.later (h : Origins cs r rs) {qs : List Role}
    (hqs : ∀ q ∈ qs, q.startsAttempt = none) : Origins cs r (rs ++ qs) := by
  intro a x n hid s hmem
  rcases List.mem_append.mp hmem with hmem | hmem
  · exact h a x n hid s hmem
  · exact absurd (hqs _ hmem) (by simp [Role.startsAttempt])

/-- The next execution of a reported identifier is a new attempt. -/
theorem Tracks.fresh (h : Tracks cs r rs) (hwell : WellFormed cs) {c : TestPlan × Callback}
    (hc : c ∈ cs) {id : TestIdentifier} (hid : id ∈ c.2.reports c.1) :
    attemptId id (r.count (executionId id) + 1) ∉ Role.attempts rs ∧
      Role.Agrees rs (executionId id) (r.count (executionId id) + 1) (derive c.1 id).id
        (derive c.1 id).stability := by
  refine ⟨fun hmem => ?_, fun a n hd s hmem => ?_⟩
  · obtain ⟨q, hq, hstart⟩ := List.mem_filterMap.mp hmem
    cases q with
    | attemptStarted a x n hd s =>
        obtain ⟨c', hc', id', hid', rfl, rfl, -, -, hn⟩ := h.origins a x n hd s hq
        obtain ⟨hsame, rfl⟩ := attemptId_inj (Option.some.inj hstart)
        rw [hsame] at hn
        omega
    | _ => cases hstart
  · obtain ⟨c', hc', id', hid', hx, -, rfl, rfl, hn⟩ := h.origins a _ n hd s hmem
    rw [hwell.histories c hc c' hc' id hid id' hid' hx]
    exact ⟨by omega, rfl, rfl⟩

/-- Counting an execution keeps the origins, and gives the new attempt its own. -/
theorem Origins.counted (h : Origins cs r rs) {r' : RunReporter} {c : TestPlan × Callback}
    (hc : c ∈ cs) {id : TestIdentifier} (hid : id ∈ c.2.reports c.1)
    (hcount : r'.executions = r.executions.set (executionId id) (r.count (executionId id) + 1)) :
    Origins cs r' (rs ++ [.attemptStarted (attemptId id (r.count (executionId id) + 1))
      (executionId id) (r.count (executionId id) + 1) (derive c.1 id).id
      (derive c.1 id).stability]) := by
  intro a x n hd s hmem
  have hmono : ∀ y, r.count y ≤ r'.count y := by
    intro y
    rw [RunReporter.count, RunReporter.count, hcount, JsMap.get?_set]
    split_ifs with hy
    · rw [hy]
      exact Nat.le_succ _
    · exact le_rfl
  rcases List.mem_append.mp hmem with hmem | hmem
  · obtain ⟨c', hc', id', hid', hx, ha, hd', hs, hn⟩ := h a x n hd s hmem
    exact ⟨c', hc', id', hid', hx, ha, hd', hs, hn.trans (hmono x)⟩
  · obtain ⟨rfl, rfl, rfl, rfl, rfl⟩ := Role.attemptStarted.inj (List.mem_singleton.mp hmem)
    refine ⟨c, hc, id, hid, rfl, rfl, rfl, rfl, ?_⟩
    rw [RunReporter.count, RunReporter.count, hcount, JsMap.get?_set, if_pos rfl]
    exact le_rfl

end tracks

/-! ### One callback -/

section opened
variable {r : RunReporter} {k : Text} {o : OpenAttempt}

/-- An attempt is put under a unique id that has none. -/
theorem RunReporter.running_set (hnone : r.opened.get? k = none)
    (containers executions : JsMap Text ℕ) :
    (⟨r.opened.set k o, containers, executions⟩ : RunReporter).running =
      insert o.attemptId r.running := by
  ext a
  rw [Set.mem_insert_iff]
  constructor
  · rintro ⟨k', o', ho', rfl⟩
    dsimp only at ho'
    rw [JsMap.get?_set] at ho'
    split_ifs at ho' with hk
    · exact .inl (congrArg OpenAttempt.attemptId (Option.some.inj ho').symm)
    · exact .inr ⟨k', o', ho', rfl⟩
  · rintro (rfl | ⟨k', o', ho', rfl⟩)
    · refine ⟨k, o, ?_, rfl⟩
      dsimp only
      rw [JsMap.get?_set, if_pos rfl]
    · refine ⟨k', o', ?_, rfl⟩
      have hk : k' ≠ k := by
        rintro rfl
        rw [hnone] at ho'
        cases ho'
      dsimp only
      rw [JsMap.get?_set, if_neg hk]
      exact ho'

theorem RunReporter.running_erase (ho : r.opened.get? k = some o)
    (hdistinct : ∀ k' o', r.opened.get? k' = some o' → o'.attemptId = o.attemptId → k' = k)
    (containers executions : JsMap Text ℕ) :
    (⟨r.opened.erase k, containers, executions⟩ : RunReporter).running =
      r.running \ {o.attemptId} := by
  ext a
  rw [Set.mem_sdiff, Set.mem_singleton_iff]
  constructor
  · rintro ⟨k', o', ho', rfl⟩
    dsimp only at ho'
    rw [JsMap.get?_erase] at ho'
    split_ifs at ho' with hk
    exact ⟨⟨k', o', ho', rfl⟩, fun heq => hk (hdistinct k' o' ho' heq)⟩
  · rintro ⟨⟨k', o', ho', rfl⟩, hne⟩
    refine ⟨k', o', ?_, rfl⟩
    have hk : k' ≠ k := by
      rintro rfl
      exact hne (congrArg OpenAttempt.attemptId (Option.some.inj (ho'.symm.trans ho)))
    dsimp only
    rw [JsMap.get?_erase, if_neg hk]
    exact ho'

end opened

section callback
variable {host : Sdk.Outside} {cs : List (TestPlan × Callback)} {r : RunReporter} {rs : List Role}
  {ps : List Payload} {c : TestPlan × Callback} {id : TestIdentifier}

theorem Tracks.startAttempt (h : Tracks cs r rs) (hwell : WellFormed cs) (hc : c ∈ cs)
    (hid : id ∈ c.2.reports c.1) (hnone : r.opened.get? id.uniqueId.text = none) {now : ℤ}
    (hy : YieldsAll host ((Junit.startAttempt c.1 r now id).1.map Request.call) ps) :
    Tracks cs (Junit.startAttempt c.1 r now id).2 (rs ++ ps.map Payload.role) := by
  obtain rfl := yieldsAll_emit hy
  obtain ⟨hnew, hagrees⟩ := h.fresh hwell hc hid
  have hother : ∀ k o, r.opened.get? k = some o →
      o.attemptId ≠ attemptId id (r.count (executionId id) + 1) := by
    intro k o ho heq
    exact hnew (heq ▸ ((h.ledger.running_iff o.attemptId).mp ⟨k, o, ho, rfl⟩).1)
  refine ⟨?_, ?_, h.origins.counted hc hid rfl⟩
  · have hrunning : (Junit.startAttempt c.1 r now id).2.running =
        insert (attemptId id (r.count (executionId id) + 1)) r.running :=
      RunReporter.running_set hnone _ _
    rw [hrunning]
    exact h.ledger.startAttempt hnew hagrees
  · intro k k' o o' ho ho' heq
    change (r.opened.set _ _).get? k = some o at ho
    change (r.opened.set _ _).get? k' = some o' at ho'
    rw [JsMap.get?_set] at ho ho'
    split_ifs at ho ho' with hk hk'
    · rw [hk, hk']
    · obtain rfl := Option.some.inj ho
      exact absurd heq.symm (hother k' o' ho')
    · obtain rfl := Option.some.inj ho'
      exact absurd heq (hother k o ho)
    · exact h.distinct k k' o o' ho ho' heq

/-- A report of a whole attempt. -/
theorem Tracks.synthesize (h : Tracks cs r rs) (hwell : WellFormed cs) (hc : c ∈ cs)
    (hid : id ∈ c.2.reports c.1) {status : Status} {rawStatus : Text} {failures : List Failure}
    (hy : YieldsAll host
      ((Junit.synthesize c.1 status rawStatus failures r id).1.map Request.call) ps) :
    Tracks cs (Junit.synthesize c.1 status rawStatus failures r id).2
      (rs ++ ps.map Payload.role) := by
  obtain rfl := yieldsAll_emits (l := [_, _]) hy
  obtain ⟨hnew, hagrees⟩ := h.fresh hwell hc hid
  refine ⟨h.ledger.reportAttempt hnew hagrees, h.distinct, ?_⟩
  have hcounted : Origins cs (Junit.synthesize c.1 status rawStatus failures r id).2 _ :=
    h.origins.counted hc hid rfl
  have hnone : ∀ q ∈ [Role.attemptFinished (attemptId id (r.count (executionId id) + 1))],
      q.startsAttempt = none := by simp [Role.startsAttempt]
  have hlater := hcounted.later hnone
  rwa [List.append_assoc] at hlater

/-- What holds after one handler holds after all of them. -/
theorem Tracks.inTurn {ids : List TestIdentifier}
    {handler : RunReporter → TestIdentifier → List Call × RunReporter} (h : Tracks cs r rs)
    (hstep : ∀ r rs ps, ∀ id ∈ ids, Tracks cs r rs →
      YieldsAll host ((handler r id).1.map Request.call) ps →
      Tracks cs (handler r id).2 (rs ++ ps.map Payload.role))
    (hy : YieldsAll host ((Junit.inTurn handler r ids).1.map Request.call) ps) :
    Tracks cs (Junit.inTurn handler r ids).2 (rs ++ ps.map Payload.role) := by
  induction ids generalizing r rs ps with
  | nil =>
      cases hy
      rwa [List.map_nil, List.append_nil]
  | cons id ids ih =>
      have hsplit : (Junit.inTurn handler r (id :: ids)).1.map Request.call =
          (handler r id).1.map Request.call ++
            (Junit.inTurn handler (handler r id).2 ids).1.map Request.call := List.map_append
      rw [hsplit] at hy
      obtain ⟨qs, qs', rfl, hone, hmore⟩ := yieldsAll_append hy
      rw [List.map_append, ← List.append_assoc]
      exact ih (hstep r rs qs id List.mem_cons_self h hone)
        (fun r rs ps id' hid' => hstep r rs ps id' (List.mem_cons_of_mem _ hid')) hmore

theorem Tracks.finished {now : ℤ} {result : TestExecutionResult} {plan : TestPlan}
    (h : Tracks cs r rs) (hwell : WellFormed cs) (hc : (plan, .finished now id result) ∈ cs)
    (hy : YieldsAll host ((Junit.finished plan r now id result).1.map Request.call) ps) :
    Tracks cs (Junit.finished plan r now id result).2 (rs ++ ps.map Payload.role) := by
  unfold Junit.finished at hy ⊢
  dsimp only at hy ⊢
  split_ifs at hy ⊢ with htest hpassed hprevented
  · cases ho : r.opened.get? id.uniqueId.text with
    | none =>
        rw [ho] at hy
        cases hy
        rwa [List.map_nil, List.append_nil]
    | some attempt =>
        rw [ho] at hy
        obtain rfl := yieldsAll_emit hy
        refine ⟨?_, ?_, h.origins.later (by simp [Payload.role, Role.startsAttempt])⟩
        · dsimp only
          rw [RunReporter.running_erase ho
            (fun k' o' ho' heq => h.distinct k' _ o' attempt ho' ho heq)]
          exact h.ledger.finishAttempt ⟨_, _, ho, rfl⟩ (fun s => Set.notMem_empty _)
        · intro k k' o o' hk hk'
          dsimp only at hk hk'
          rw [JsMap.get?_erase] at hk hk'
          split_ifs at hk hk'
          exact h.distinct k k' o o' hk hk'
  · cases hy
    rw [List.map_nil, List.append_nil]
    exact h.congr rfl rfl
  · refine Tracks.inTurn (h.congr rfl rfl) (fun r rs ps id' hid' h hy => ?_) hy
    exact h.synthesize hwell hc (List.mem_of_mem_filter hid') hy
  · obtain rfl := yieldsAll_emit hy
    exact ⟨h.ledger.failScope, h.distinct,
      h.origins.later (by simp [Payload.role, Role.startsAttempt])⟩

/-- A test that is skipped below a container, or by itself. -/
theorem Tracks.skipTest (h : Tracks cs r rs) (hwell : WellFormed cs) (hc : c ∈ cs)
    (hid : id ∈ c.2.reports c.1) {reason : Option Text}
    (hy : YieldsAll host ((Junit.skipTest c.1 reason r id).1.map Request.call) ps) :
    Tracks cs (Junit.skipTest c.1 reason r id).2 (rs ++ ps.map Payload.role) := by
  have hseen : Tracks cs (noteSeen c.1 r id) rs := h.congr rfl rfl
  exact hseen.synthesize hwell hc hid hy

theorem Tracks.skipped {plan : TestPlan} {reason : Option Text} (h : Tracks cs r rs)
    (hwell : WellFormed cs) (hc : (plan, .skipped id reason) ∈ cs)
    (hy : YieldsAll host ((Junit.skipped plan r id reason).1.map Request.call) ps) :
    Tracks cs (Junit.skipped plan r id reason).2 (rs ++ ps.map Payload.role) := by
  unfold Junit.skipped at hy ⊢
  split_ifs at hy ⊢
  · exact h.skipTest hwell hc List.mem_cons_self hy
  · refine Tracks.inTurn h (fun r rs ps id' hid' h hy => ?_) hy
    exact h.skipTest hwell hc (List.mem_cons_of_mem _ (List.mem_of_mem_filter hid')) hy

theorem Tracks.reportingEntry {entry : ReportEntry} (h : Tracks cs r rs)
    (hy : YieldsAll host ((Junit.reportingEntry r id entry).1.map Request.call) ps) :
    Tracks cs (Junit.reportingEntry r id entry).2 (rs ++ ps.map Payload.role) := by
  unfold Junit.reportingEntry at hy ⊢
  cases ho : r.opened.get? id.uniqueId.text with
  | none =>
      rw [ho] at hy
      cases hy
      rwa [List.map_nil, List.append_nil]
  | some attempt =>
      rw [ho] at hy
      have hqs : ∀ q ∈ ps.map Payload.role, q = .attachmentAdded attempt.attemptId none := by
        cases hy with
        | cons hr hs =>
            cases hs
            cases hr with
            | attached _ => simp [Sdk.attachmentPayload, Payload.role]
            | notAttached => simp
      refine ⟨h.ledger.attachAll ⟨_, _, ho, rfl⟩ (fun s hs => by cases hs) hqs, h.distinct,
        h.origins.later fun q hq => ?_⟩
      rw [hqs q hq]
      rfl

/-- One callback. -/
theorem Tracks.handle (h : Tracks cs r rs) (hwell : WellFormed cs) (hc : c ∈ cs)
    (hopen : ∀ k, c.2.starts = some k → r.opened.get? k = none)
    (hy : YieldsAll host ((Junit.handle c.1 r c.2).1.map Request.call) ps) :
    Tracks cs (Junit.handle c.1 r c.2).2 (rs ++ ps.map Payload.role) := by
  obtain ⟨plan, c⟩ := c
  cases c with
  | started now id =>
      unfold Junit.handle Junit.started at hy ⊢
      dsimp only at hy ⊢
      split_ifs at hy ⊢ with hcontainer htest
      · cases hy
        rw [List.map_nil, List.append_nil]
        exact h.congr rfl rfl
      · cases hy
        rwa [List.map_nil, List.append_nil]
      · have hseen : Tracks cs (noteSeen plan r id) rs := h.congr rfl rfl
        exact hseen.startAttempt hwell hc List.mem_cons_self (hopen _ (if_neg hcontainer)) hy
  | finished now id result => exact h.finished hwell hc hy
  | skipped id reason => exact h.skipped hwell hc hy
  | reportingEntry id entry => exact h.reportingEntry hy

end callback

/-! ### What is open -/

section kept
variable {plan : TestPlan} {r : RunReporter}

theorem inTurn_opened {handler : RunReporter → TestIdentifier → List Call × RunReporter}
    (hhandler : ∀ r id, (handler r id).2.opened = r.opened) (ids : List TestIdentifier) :
    (inTurn handler r ids).2.opened = r.opened := by
  induction ids generalizing r with
  | nil => rfl
  | cons id ids ih => exact (ih).trans (hhandler r id)

/-- The open unique ids after a callback. -/
theorem handle_opened (c : Callback) (k : Text) :
    (handle plan r c).2.opened.has k = true ↔
      c.starts = some k ∨ r.opened.has k = true ∧ c.finishes ≠ some k := by
  cases c with
  | started now id =>
      have hfinishes : (Callback.started now id).finishes ≠ some k := by simp [Callback.finishes]
      simp only [hfinishes, ne_eq, not_false_eq_true, and_true, Callback.starts]
      unfold handle started
      dsimp only
      split_ifs with hcontainer htest
      · simp
      · simp only [TestIdentifier.isContainer, TestIdentifier.isTest] at hcontainer htest
        cases htype : id.type <;> simp [htype] at hcontainer htest
      · change (r.opened.set _ _).has k = true ↔ _
        rw [JsMap.has_iff, JsMap.has_iff, JsMap.get?_set]
        by_cases hk : k = id.uniqueId.text
        · simp [hk]
        · have hk' : id.uniqueId.text ≠ k := fun heq => hk heq.symm
          simp [hk, hk']
  | finished now id result =>
      have hstarts : (Callback.finished now id result).starts ≠ some k := by
        simp [Callback.starts]
      simp only [hstarts, false_or, Callback.finishes]
      unfold handle finished
      dsimp only
      split_ifs with htest hpassed hprevented
      · cases ho : r.opened.get? id.uniqueId.text with
        | none =>
            have hne : r.opened.has k = true → id.uniqueId.text ≠ k := by
              rintro hk rfl
              rw [JsMap.has, ho] at hk
              cases hk
            simpa using hne
        | some attempt =>
            dsimp only
            rw [JsMap.has_iff, JsMap.has_iff, JsMap.get?_erase]
            by_cases hk : k = id.uniqueId.text
            · simp [hk]
            · have hk' : id.uniqueId.text ≠ k := fun heq => hk heq.symm
              simp [hk, hk']
      · simp
      · rw [inTurn_opened (fun _ _ => rfl)]
        simp
      · simp
  | skipped id reason =>
      have hopened : (handle plan r (.skipped id reason)).2.opened = r.opened := by
        unfold handle skipped
        dsimp only
        split_ifs
        · rfl
        · exact inTurn_opened (fun _ _ => rfl) _
      rw [hopened]
      simp [Callback.starts, Callback.finishes]
  | reportingEntry id entry =>
      have hopened : (handle plan r (.reportingEntry id entry)).2.opened = r.opened := by
        unfold handle reportingEntry
        dsimp only
        cases r.opened.get? id.uniqueId.text <;> rfl
      rw [hopened]
      simp [Callback.starts, Callback.finishes]

end kept

/-! ### All callbacks -/

/-- The reporter keeps a ledger of its stream, and what is open is what no finish has followed. -/
theorem Tracks.run {host : Sdk.Outside} {seen cs : List (TestPlan × Callback)} {r : RunReporter}
    {rs : List Role} {ps : List Payload} (h : Tracks (seen ++ cs) r rs)
    (hwell : WellFormed (seen ++ cs)) (hopen : ∀ k, r.opened.has k = true ↔ LeftOpen k seen)
    (hy : YieldsAll host ((callsOf r cs).map Request.call) ps) :
    Tracks (seen ++ cs) (stateAfter r cs) (rs ++ ps.map Payload.role) ∧
      ∀ k, (stateAfter r cs).opened.has k = true ↔ LeftOpen k (seen ++ cs) := by
  induction cs generalizing seen r rs ps with
  | nil =>
      cases hy
      rw [List.append_nil] at h ⊢
      rw [List.map_nil, List.append_nil]
      exact ⟨h, hopen⟩
  | cons c cs ih =>
      rw [callsOf, List.map_append] at hy
      obtain ⟨qs, qs', rfl, hc, hcs⟩ := yieldsAll_append hy
      have hsplit : seen ++ c :: cs = seen ++ [c] ++ cs := by simp
      have hnone : ∀ k, c.2.starts = some k → r.opened.get? k = none := by
        intro k hk
        by_contra hsome
        refine hwell.starts seen c cs k rfl hk ((hopen k).mp ?_)
        rw [JsMap.has, Option.isSome_iff_ne_none]
        exact hsome
      have hone := h.handle hwell (by simp) hnone hc
      rw [List.map_append, ← List.append_assoc]
      rw [hsplit] at hone hwell ⊢
      refine ih hone hwell (fun k => ?_) hcs
      rw [handle_opened, hopen, leftOpen_concat]

/-- The reporter has nothing open before its first callback. -/
theorem tracks_new (cs : List (TestPlan × Callback)) :
    Tracks cs .new [.sessionStarted true] where
  ledger := by
    have hrunning : RunReporter.new.running = ∅ := by
      ext a
      simp [RunReporter.running, RunReporter.new]
    rw [hrunning]
    exact Role.ledger_begun
  distinct k k' o o' ho := by simp [RunReporter.new] at ho
  origins a x n hd s hmem := by simp at hmem

/-! ### The calls -/

section calls
variable {plan : TestPlan} {r : RunReporter}

/-- An event of an attempt or a scope, or an attachment. -/
def IsReported : Call → Bool
  | .emit p => Sdk.isOrdinary p
  | .attach _ _ => true
  | _ => false

theorem inTurn_reported {handler : RunReporter → TestIdentifier → List Call × RunReporter}
    (hhandler : ∀ r id, ∀ q ∈ (handler r id).1, IsReported q = true) (ids : List TestIdentifier) :
    ∀ q ∈ (inTurn handler r ids).1, IsReported q = true := by
  induction ids generalizing r with
  | nil => exact fun q hq => by cases hq
  | cons id ids ih =>
      intro q hq
      have hsplit : (inTurn handler r (id :: ids)).1 =
          (handler r id).1 ++ (inTurn handler (handler r id).2 ids).1 := rfl
      rw [hsplit] at hq
      rcases List.mem_append.mp hq with hq | hq
      · exact hhandler r id q hq
      · exact ih q hq

theorem synthesize_reported (status : Status) (rawStatus : Text) (failures : List Failure)
    (id : TestIdentifier) :
    ∀ q ∈ (synthesize plan status rawStatus failures r id).1, IsReported q = true := by
  intro q hq
  rcases List.mem_cons.mp hq with rfl | hq
  · rfl
  · rw [List.mem_singleton.mp hq]
    rfl

theorem handle_reported (c : Callback) : ∀ q ∈ (handle plan r c).1, IsReported q = true := by
  intro q hq
  cases c with
  | started now id =>
      unfold handle started at hq
      dsimp only at hq
      split_ifs at hq
      · cases hq
      · cases hq
      · rw [List.mem_singleton.mp hq]
        rfl
  | finished now id result =>
      unfold handle finished at hq
      dsimp only at hq
      split_ifs at hq
      · split at hq
        · cases hq
        · rw [List.mem_singleton.mp hq]
          rfl
      · cases hq
      · exact inTurn_reported (fun _ id' => synthesize_reported _ _ _ id') _ q hq
      · rw [List.mem_singleton.mp hq]
        rfl
  | skipped id reason =>
      unfold handle skipped at hq
      dsimp only at hq
      split_ifs at hq
      · exact synthesize_reported _ _ _ id q hq
      · exact inTurn_reported (fun _ id' => synthesize_reported _ _ _ id') _ q hq
  | reportingEntry id entry =>
      unfold handle reportingEntry at hq
      dsimp only at hq
      split at hq
      · cases hq
      · rw [List.mem_singleton.mp hq]
        rfl

theorem callsOf_reported (cs : List (TestPlan × Callback)) :
    ∀ q ∈ callsOf r cs, IsReported q = true := by
  induction cs generalizing r with
  | nil => exact fun q hq => by cases hq
  | cons c cs ih =>
      intro q hq
      rcases List.mem_append.mp hq with hq | hq
      · exact handle_reported c.2 q hq
      · exact ih q hq

end calls

/-! ### The session -/

/-- What the process says of its versions. -/
structure Versions where
  adapter : Option Text
  platform : Option Text
  java : Text

/-- `sessionStarted()`. -/
def sessionStarted (versions : Versions) : SessionStartedPayload where
  producer := ⟨txt "qe-report-junit-platform", versions.adapter⟩
  runner := some ⟨txt "junit-platform", versions.platform⟩
  environment := some [(txt "java.version", versions.java)]
  executor := none
  source := none
  labels := some []

theorem sessionStarted_plain (versions : Versions) :
    Sdk.PlainPayload (.sessionStarted (sessionStarted versions)) := by
  obtain ⟨adapter, platform, java⟩ := versions
  cases adapter <;> cases platform <;> rfl

section session
variable (host : Sdk.Host) (versions : Versions) (callbacks : List (TestPlan × Callback))

/-- The session before `finish`. -/
def sessionReported : Sdk.ReportSession :=
  Sdk.Java.run host (Sdk.Java.start host (sessionStarted versions)).2 (callsOf .new callbacks)

/-- The session after `finish`. -/
def sessionEnded : Sdk.ReportSession :=
  Sdk.Java.run host (sessionReported host versions callbacks) finish.1

/-- The session writes all that the reporter hands it, and every number in it is safe. -/
structure Written : Prop where
  starts : Sdk.Kept .new (Sdk.Java.start host (sessionStarted versions))
  serves : Sdk.Java.WritesAll host (Sdk.Java.start host (sessionStarted versions)).2
    (callsOf .new callbacks)
  closes : Sdk.Kept (sessionReported host versions callbacks)
    (Sdk.Java.close host (sessionReported host versions callbacks))
  plain : ∀ p, .emit p ∈ callsOf .new callbacks → Sdk.PlainPayload p
  sizes : Sdk.Java.SafeSizes host
  count : isSafe (((callsOf .new callbacks).length + 2 : ℕ) : ℤ)

variable {host versions callbacks}

/-- The session is as long as its calls, and its payloads keep the ledger of the reporter. -/
theorem Written.streamed (h : Written host versions callbacks) (hwell : WellFormed callbacks)
    (hsize : host.size = Sdk.eventBytes) :
    ∃ ps t, Sdk.Java.Streamed host t (ps ++ [.sessionFinished Sdk.Java.emptyOutcome]) ∧
      (sessionEnded host versions callbacks).sunk = t.sunk ∧
      Tracks callbacks (stateAfter .new callbacks) (ps.map Payload.role) ∧
      ∀ k, (stateAfter .new callbacks).opened.has k = true ↔ LeftOpen k callbacks := by
  have hone : isSafe ((1 : ℕ) : ℤ) := by decide
  obtain ⟨-, hactive, hstarted⟩ := Sdk.Java.emit_kept Sdk.Java.streamed_new rfl hsize rfl
    (sessionStarted_plain versions) hone h.starts
  have hcalls : ∀ c ∈ callsOf .new callbacks, Sdk.Java.IsPlain c := by
    intro c hc
    have hreported := callsOf_reported callbacks c hc
    cases c with
    | emit p => exact ⟨hreported, h.plain p hc⟩
    | attach input bytes => trivial
    | _ => cases hreported
  have hcount := h.count
  obtain ⟨hlifecycle, qs, hqs, hserved⟩ := Sdk.Java.run_yields hstarted hactive hsize h.sizes
    (by
      rw [List.nil_append, List.length_singleton]
      unfold isSafe at hcount ⊢
      omega) hcalls h.serves
  have hlength : qs.length ≤ (callsOf .new callbacks).length := by
    have hle := Sdk.Java.yieldsAll_length hqs
    rwa [List.length_map] at hle
  obtain ⟨t, hstreamed, hsunk⟩ := Sdk.Java.close_kept hserved hlifecycle hsize
    (by
      rw [hserved.sequence, List.nil_append, List.length_append, List.length_singleton]
      unfold isSafe at hcount ⊢
      omega) h.closes
  have hnone : ∀ k, RunReporter.new.opened.has k = true ↔ LeftOpen k [] := by
    intro k
    refine iff_of_false (by simp [RunReporter.new, JsMap.has]) ?_
    rintro ⟨p, c, q, heq, -⟩
    exact absurd heq (by simp)
  obtain ⟨htracks, hopen⟩ := (tracks_new ([] ++ callbacks)).run hwell hnone hqs
  exact ⟨_, t, hstreamed, hsunk, htracks, hopen⟩

end session

/-- The session that the adapter has written is taken by the validator, when its lines pass the
checks of a line, exactly when every test that the platform started it also finished, however
often tests were repeated, skipped or prevented by a container; then the session keeps to the
lifecycle and is complete. -/
theorem stream_valid_iff {host : Sdk.Host} {versions : Versions}
    {callbacks : List (TestPlan × Callback)} {rt : Runtime} {options : ValidateOptions}
    (file : Text) (hwell : WellFormed callbacks) (hwritten : Written host versions callbacks)
    (hsize : host.size = Sdk.eventBytes) (hlimit : host.maxEventBytes ≤ eventLimit options)
    (hparse : ∀ e ∈ (sessionEnded host versions callbacks).sunk,
      rt.parse (stringifyEvent e) = .ok (eventToObject e))
    (hvalidate : ∀ e ∈ (sessionEnded host versions callbacks).sunk,
      rt.validate e.knownType (eventToObject e) = none) :
    (ErrorFree (feedAll rt options [⟨(sessionEnded host versions callbacks).sunk.map stringifyEvent,
        file, true⟩]).diagnostics ↔ ∀ k, ¬ LeftOpen k callbacks) ∧
      ((∀ k, ¬ LeftOpen k callbacks) →
        LifecycleLaw (runLog rt options [⟨(sessionEnded host versions callbacks).sunk.map
          stringifyEvent, file, true⟩]) ∧
        Complete (runLog rt options [⟨(sessionEnded host versions callbacks).sunk.map
          stringifyEvent, file, true⟩])) := by
  obtain ⟨ps, t, hstreamed, hsunk, htracks, hopen⟩ := hwritten.streamed hwell hsize
  rw [hsunk] at hparse hvalidate ⊢
  rw [hstreamed.lines]
  have htwin := hstreamed.twin
  have hparse' := hstreamed.forall_stream (fun e e' hnormal he => by
    rw [← stringifyEvent_normal e', ← hnormal, stringifyEvent_normal,
      ← Sdk.Java.eventToObject_of_normal hnormal]
    exact he) hparse
  have hvalidate' := hstreamed.forall_stream (fun e e' hnormal he => by
    rw [← Sdk.Java.knownType_of_normal hnormal, ← Sdk.Java.eventToObject_of_normal hnormal]
    exact he) hvalidate
  have hroles : (ps ++ [Payload.sessionFinished Sdk.Java.emptyOutcome]).map Payload.role =
      ps.map Payload.role ++ [.sessionFinished] := List.map_append
  have htaken : (∀ k, ¬ LeftOpen k callbacks) →
      ErrorFree (feedAll rt options [⟨(Sdk.stream host (ps ++
        [.sessionFinished Sdk.Java.emptyOutcome])).map stringifyEvent, file, true⟩]).diagnostics ∧
      LifecycleLaw (runLog rt options [⟨(Sdk.stream host (ps ++
        [.sessionFinished Sdk.Java.emptyOutcome])).map stringifyEvent, file, true⟩]) ∧
      Complete (runLog rt options [⟨(Sdk.stream host (ps ++
        [.sessionFinished Sdk.Java.emptyOutcome])).map stringifyEvent, file, true⟩]) := by
    intro hclosed
    have hnone : (stateAfter .new callbacks).running = ∅ := by
      refine Set.eq_empty_of_forall_notMem fun a ha => ?_
      obtain ⟨k, o, ho, -⟩ := ha
      exact hclosed k ((hopen k).mp (JsMap.has_iff.mpr ⟨o, ho⟩))
    have hledger := htracks.ledger
    rw [hnone] at hledger
    obtain ⟨hguarded, -, hends, -⟩ := hledger.ended
    rw [← hroles] at hguarded hends
    obtain ⟨herrors, hlog⟩ := Sdk.stream_errorFree file htwin hsize hlimit host.ids_injective
      hparse' hvalidate' hguarded
    have hnumbered : Numbered host.runId host.sessionId
        (Sdk.stream host (ps ++ [.sessionFinished Sdk.Java.emptyOutcome]))
        ((ps ++ [Payload.sessionFinished Sdk.Java.emptyOutcome]).map Payload.role) :=
      Sdk.numbered_stream _
    rw [hlog]
    exact ⟨herrors, hnumbered.law hguarded hends, hnumbered.complete hends⟩
  refine ⟨⟨fun herrors k hleft => ?_, fun hclosed => (htaken hclosed).1⟩,
    fun hclosed => (htaken hclosed).2⟩
  obtain ⟨o, ho⟩ := JsMap.has_iff.mp ((hopen k).mpr hleft)
  obtain ⟨hstarted, hunfinished⟩ := (htracks.ledger.running_iff o.attemptId).mp ⟨k, o, ho, rfl⟩
  have hfinished := Sdk.stream_finished file htwin hsize hlimit host.ids_injective hparse'
    hvalidate' herrors (by rw [hroles]; exact List.mem_append_right _ List.mem_cons_self)
  rw [hroles] at hfinished
  rcases Role.mem_finishedAttempts_concat.mp
    (hfinished o.attemptId (Role.mem_attempts_concat.mpr (.inl hstarted))) with hmem | hmem
  · exact hunfinished hmem
  · cases hmem

/-! ### A run -/

namespace Sample

/-- A sink that takes every event, and attachments of at most a thousand bytes. -/
def host : Sdk.Host :=
  { Sdk.takingHost with
    storeAttachment := fun _ bytes =>
      if bytes.length ≤ 1000 then .ok ⟨List.replicate 64 (unit '0'), bytes.length⟩
      else .error .tooLarge }

def versions : Versions := ⟨none, none, txt "21"⟩

/-- A test that its engine prevents, that is then skipped, and that runs at last. -/
def repeated : List (TestPlan × Callback) :=
  [(plan, .started 0 engine), (plan, .finished 5 engine ⟨.failed, none⟩), (plan, .skipped test none),
    (plan, .started 10 test), (plan, .finished 15 test ⟨.successful, none⟩)]

/-- The same, and the test once more, without its end. -/
def leftOpen : List (TestPlan × Callback) := repeated ++ [(plan, .started 20 test)]

theorem leftOpen_test : LeftOpen test.uniqueId.text leftOpen :=
  leftOpen_concat.mpr (.inl rfl)

theorem not_leftOpen_repeated (k : Text) : ¬ LeftOpen k repeated := by
  have hstarts : ∀ c ∈ repeated, ∀ k, c.2.starts = some k → k = test.uniqueId.text := by
    intro c hc k hk
    simp only [repeated, List.mem_cons, List.not_mem_nil, or_false] at hc
    rcases hc with rfl | rfl | rfl | rfl | rfl
    · cases hk
    · cases hk
    · cases hk
    · exact (Option.some.inj hk).symm
    · cases hk
  intro hleft
  obtain ⟨p, c, q, hsplit, hstart, -⟩ := id hleft
  obtain rfl := hstarts c (by rw [hsplit]; simp) k hstart
  rcases (@leftOpen_concat _ repeated.dropLast _).mp hleft with hlast | ⟨-, hlast⟩
  · cases hlast
  · exact hlast rfl

/-- What is reported is the engine or the test. -/
theorem reported {c : TestPlan × Callback} (hc : c ∈ leftOpen) : c.1 = plan ∧
    ∀ id ∈ c.2.reports c.1, id = engine ∨ id = test := by
  have hbelow : ∀ container, ∀ id ∈ plan.getDescendants container, id = engine ∨ id = test :=
    fun container id hid => .inr ((plan.mem_getDescendants container id).mp hid).1
  simp only [leftOpen, repeated, List.cons_append, List.nil_append, List.mem_cons,
    List.not_mem_nil, or_false] at hc
  rcases hc with rfl | rfl | rfl | rfl | rfl | rfl
  · exact ⟨rfl, fun id hid => .inl (List.mem_singleton.mp hid)⟩
  · exact ⟨rfl, hbelow engine⟩
  · exact ⟨rfl, List.forall_mem_cons.mpr ⟨.inr rfl, hbelow test⟩⟩
  · exact ⟨rfl, fun id hid => .inr (List.mem_singleton.mp hid)⟩
  · exact ⟨rfl, hbelow test⟩
  · exact ⟨rfl, fun id hid => .inr (List.mem_singleton.mp hid)⟩

theorem histories {c c' : TestPlan × Callback} (hc : c ∈ leftOpen) (hc' : c' ∈ leftOpen) :
    ∀ id ∈ c.2.reports c.1, ∀ id' ∈ c'.2.reports c'.1,
      executionId id = executionId id' → derive c.1 id = derive c'.1 id' := by
  obtain ⟨hplan, hids⟩ := reported hc
  obtain ⟨hplan', hids'⟩ := reported hc'
  have happart : executionId engine ≠ executionId test := by decide
  intro id hid id' hid' hsame
  rw [hplan, hplan']
  rcases hids id hid with rfl | rfl
  · rcases hids' id' hid' with rfl | rfl
    · rfl
    · exact absurd hsame happart
  · rcases hids' id' hid' with rfl | rfl
    · exact absurd hsame.symm happart
    · rfl

theorem wellFormed_repeated : WellFormed repeated := by
  have hconcat : ∀ (cs : List (TestPlan × Callback)) (c : TestPlan × Callback),
      WellFormed cs → cs ++ [c] ⊆ leftOpen → (∀ k, c.2.starts = some k → ¬ LeftOpen k cs) →
      WellFormed (cs ++ [c]) :=
    fun cs c hwell hsub hstarts => hwell.concat hstarts
      (fun _ hc' => histories (hsub (by simp)) (hsub hc'))
  have hnil : WellFormed [] :=
    ⟨fun p c q k heq _ => absurd heq (by simp), fun c hc => absurd hc List.not_mem_nil⟩
  have hprevented := hconcat _ (plan, .finished 5 engine ⟨.failed, none⟩)
    (hconcat [] (plan, .started 0 engine) hnil (by simp [leftOpen, repeated])
      (fun k hk => by cases hk)) (by simp [leftOpen, repeated]) (fun k hk => by cases hk)
  have hskipped := hconcat _ (plan, .skipped test none) hprevented (by simp [leftOpen, repeated])
    (fun k hk => by cases hk)
  have hstarted := hconcat _ (plan, .started 10 test) hskipped (by simp [leftOpen, repeated])
    (fun k _ => not_leftOpen_of_starts (by simp [Callback.starts, engine, TestIdentifier.isContainer]))
  exact hconcat _ (plan, .finished 15 test ⟨.successful, none⟩) hstarted
    (by simp [leftOpen, repeated]) (fun k hk => by cases hk)

theorem wellFormed_leftOpen : WellFormed leftOpen :=
  wellFormed_repeated.concat (fun k _ => not_leftOpen_repeated k)
    (fun _ hc' => histories (by simp [leftOpen]) hc')

theorem safeSizes : Sdk.Java.SafeSizes host := by
  intro n content stored hstore
  simp only [host] at hstore
  split_ifs at hstore with hle
  obtain rfl := Except.ok.inj hstore
  unfold isSafe
  dsimp only
  omega

/-- A call that hands the session a plain payload, or none. -/
def isPlain : Call → Bool
  | .emit p => allNumbersMembers isPlainSafe (writePayload p)
  | _ => true

/-- What is evaluated of a session that takes all of its calls. -/
def Takes (cs : List (TestPlan × Callback)) : Prop :=
  Sdk.Kept .new (Sdk.Java.start host (sessionStarted versions)) ∧
    Sdk.Java.WritesAll host (Sdk.Java.start host (sessionStarted versions)).2 (callsOf .new cs) ∧
    Sdk.Kept (sessionReported host versions cs)
      (Sdk.Java.close host (sessionReported host versions cs)) ∧
    (callsOf .new cs).all isPlain = true ∧ isSafe (((callsOf .new cs).length + 2 : ℕ) : ℤ)

theorem Takes.written {cs : List (TestPlan × Callback)} (h : Takes cs) :
    Written host versions cs where
  starts := h.1
  serves := h.2.1
  closes := h.2.2.1
  plain _ hp := List.all_eq_true.mp h.2.2.2.1 _ hp
  sizes := safeSizes
  count := h.2.2.2.2

theorem takes_repeated : Takes repeated := by
  unfold Takes
  decide +kernel

theorem takes_leftOpen : Takes leftOpen := by
  unfold Takes
  decide +kernel

end Sample

/-- A session whose tests were prevented, skipped and run is taken; a test that starts again and
does not finish spoils it. -/
theorem stream_valid_repeated :
    ErrorFree (feedAll QeReport.Sample.runtime QeReport.Sample.options
      [⟨(sessionEnded Sample.host Sample.versions Sample.repeated).sunk.map stringifyEvent,
        txt "s", true⟩]).diagnostics ∧
    ¬ ErrorFree (feedAll QeReport.Sample.runtime QeReport.Sample.options
      [⟨(sessionEnded Sample.host Sample.versions Sample.leftOpen).sunk.map stringifyEvent,
        txt "s", true⟩]).diagnostics := by
  have hrepeated := @stream_valid_iff _ _ _ QeReport.Sample.runtime QeReport.Sample.options (txt "s")
    Sample.wellFormed_repeated Sample.takes_repeated.written rfl (by decide)
    (fun e _ => Sdk.parse_stringifyEvent e) (fun _ _ => rfl)
  have hleftOpen := @stream_valid_iff _ _ _ QeReport.Sample.runtime QeReport.Sample.options (txt "s")
    Sample.wellFormed_leftOpen Sample.takes_leftOpen.written rfl (by decide)
    (fun e _ => Sdk.parse_stringifyEvent e) (fun _ _ => rfl)
  exact ⟨hrepeated.1.mpr Sample.not_leftOpen_repeated,
    fun herrors => hleftOpen.1.mp herrors _ Sample.leftOpen_test⟩

end QeReport.Junit

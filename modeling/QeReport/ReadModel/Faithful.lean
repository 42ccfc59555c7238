import QeReport.ReadModel.Facts
import QeReport.Validator.Lifecycle

/-! # Projection loses and invents nothing

`Faithful run events` says that the projected run shows the facts of the events, each once and
where it belongs, and no other.  Since the projector looks for the target of an event among the
events of lower sessions and sequences, a valid run is projected faithfully exactly when the
event that starts an attempt or a step is in no higher session than those that name it. -/

namespace QeReport

open GuardedLog

/-! ### What a faithful projection is -/

def ProjectedRun.attempts (run : ProjectedRun) : List Attempt :=
  run.executions.flatMap (fun x => x.attempts)

/-- The run shows the facts of the events, with one execution for each execution id and the
executions of each session listed on it. -/
structure Faithful (run : ProjectedRun) (events : List Event) : Prop where
  facts : run.facts.Perm (events.flatMap Event.facts)
  executions : (run.executions.map (fun x => x.executionId)).Nodup
  sessionsNodup : ∀ s ∈ run.sessions, s.executionIds.Nodup
  executionIds : ∀ s ∈ run.sessions, ∀ x, x ∈ s.executionIds ↔
    ∃ t ∈ run.executions, t.executionId = x ∧ ∃ a ∈ t.attempts, a.sessionId = s.sessionId

/-- Everything the run shows as started it shows as finished. -/
def ProjectedRun.recomputedComplete (run : ProjectedRun) : Bool :=
  run.sessions.all (fun s => s.finished) &&
    run.attempts.all (fun a => a.finished && a.steps.all (fun s => s.finished))

/-- The attempts of an execution with the highest number. -/
def TestExecution.finalAttempts (x : TestExecution) : List Attempt :=
  x.attempts.filter (fun a => x.attempts.all (fun b => b.attemptNumber ≤ a.attemptNumber))

def Attempt.unexpected (a : Attempt) : Bool :=
  (a.status == some .failed && Projector.expected a != .failed) ||
    (a.status == some .passed && Projector.expected a == .failed)

/-- The verdict by the rule of the protocol, from what the run shows. -/
def ProjectedRun.recomputedVerdict (run : ProjectedRun) : Verdict :=
  let finals := run.executions.flatMap TestExecution.finalAttempts
  if !run.recomputedComplete then .incomplete
  else if finals.any Attempt.unexpected || !run.scopeFailures.isEmpty ||
      run.sessions.any (fun s => s.status == some .failed) then .failed
  else if finals.any (fun a => a.status == some .inconclusive) ||
      run.sessions.any (fun s => s.status == some .inconclusive) then .inconclusive
  else .passed

/-- No attempt or step is started in a higher session than that of an event that names it. -/
def TargetsFirst (l : Log) : Prop :=
  (∀ x ∈ l, ∀ y ∈ l, ∀ a, x.startsAttempt = some a → y.namesAttempt = some a →
    compare x.session y.session ≠ .gt) ∧
  ∀ x ∈ l, ∀ y ∈ l, ∀ s, x.startsStep = some s → y.endsStep = some s →
    compare x.session y.session ≠ .gt

instance (l : Log) : Decidable (TargetsFirst l) :=
  inferInstanceAs (Decidable (
    (∀ x ∈ l, ∀ y ∈ l, ∀ a ∈ x.startsAttempt, y.namesAttempt = some a →
      compare x.session y.session ≠ .gt) ∧
    ∀ x ∈ l, ∀ y ∈ l, ∀ s ∈ x.startsStep, y.endsStep = some s →
      compare x.session y.session ≠ .gt))

namespace Projector

/-! ### The facts of the run -/

theorem mapM_eq_ok {α β ε : Type} {f : α → Except ε β} {as : List α} {bs : List β}
    (h : as.mapM f = .ok bs) : List.Forall₂ (fun a b => f a = .ok b) as bs := by
  induction as generalizing bs with
  | nil =>
      cases h
      exact .nil
  | cons a as ih =>
      rw [List.mapM_cons] at h
      cases ha : f a with
      | error e =>
          rw [ha] at h
          cases h
      | ok b =>
          cases hs : as.mapM f with
          | error e =>
              rw [ha, hs] at h
              cases h
          | ok cs =>
              rw [ha, hs] at h
              cases h
              exact .cons ha (ih hs)

theorem sum_map_forall₂ {α β M : Type} [AddCommMonoid M] {f : α → M} {g : β → M} {as : List α}
    {bs : List β} (h : List.Forall₂ (fun a b => g b = f a) as bs) :
    (bs.map g).sum = (as.map f).sum := by
  induction h with
  | nil => rfl
  | cons hab _ ih => rw [List.map_cons, List.sum_cons, hab, ih, List.map_cons, List.sum_cons]

section run
variable {attempts : JsMap Text AttemptState} {sessions : JsMap Text SessionState}
  {xs : List TestExecution} (h : groupExecutions attempts sessions = .ok xs)
include h

theorem executions_forall₂ :
    List.Forall₂ (fun g x => x.executionId = g.1 ∧
      x.attempts = sortBy (fun a b => compare a.attemptNumber b.attemptNumber) (g.2.map attempt))
      (groups attempts) xs :=
  (mapM_eq_ok h).imp (fun _ _ hg => groupExecution_eq_ok hg)

theorem executionIds_eq : xs.map (fun x => x.executionId) = (groups attempts).map Prod.fst := by
  have hforall := executions_forall₂ h
  generalize groups attempts = gs at hforall ⊢
  clear h
  induction hforall with
  | nil => rfl
  | cons hg _ ih => rw [List.map_cons, List.map_cons, hg.1, ih]

theorem executionIds_nodup : (xs.map (fun x => x.executionId)).Nodup := by
  rw [executionIds_eq h]
  exact ((sortBy_perm _).map Prod.fst).nodup_iff.mpr (JsMap.nodup _)

/-- The attempts of the executions are those of the state. -/
theorem executions_facts :
    (xs.flatMap TestExecution.facts : Multiset Fact) = attempts.total attemptFacts := by
  have hone : ∀ g ∈ groups attempts, ∀ x : TestExecution, x.executionId = g.1 →
      x.attempts = sortBy (fun a b => compare a.attemptNumber b.attemptNumber) (g.2.map attempt) →
      (x.facts : Multiset Fact) = (g.2.map attemptFacts).sum := by
    intro g hg x hid hattempts
    rw [TestExecution.facts, coe_flatMap, hattempts, hid,
      ((sortBy_perm _).map _).sum_eq, List.map_map]
    refine congrArg List.sum (List.map_congr_left (fun a ha => ?_))
    rw [(mem_groups hg).1, List.mem_filter, decide_eq_true_eq] at ha
    rw [attemptFacts, ha.2]
    rfl
  have hforall : List.Forall₂ (fun g x => (x.facts : Multiset Fact) = (g.2.map attemptFacts).sum)
      (groups attempts) xs :=
    ((List.forall₂_and_left _ _).mpr ⟨fun _ => id, executions_forall₂ h⟩).imp
      (fun g x hg => hone g hg.1 x hg.2.1 hg.2.2)
  rw [coe_flatMap, sum_map_forall₂ hforall, groups, ((sortBy_perm _).map _).sum_eq]
  have htotal := JsMap.total_groupBy (fun a : AttemptState => a.started.payload.test.executionId) id
    attemptFacts attempts.values
  rw [JsMap.total, JsMap.values, List.map_map] at htotal
  exact htotal

end run

/-- The run shows what the state of the loop shows. -/
theorem runOf_facts {st : State} {xs : List TestExecution}
    (h : groupExecutions st.attempts st.sessions = .ok xs) (projectId runId runDirectory : Text)
    (summary : Summary) :
    ((runOf projectId runId runDirectory summary st xs).facts : Multiset Fact) = st.facts := by
  have hsessions : ((sortBy (fun a b : ProjectedSession => compare a.sessionId b.sessionId)
      (st.sessions.values.map session)).flatMap ProjectedSession.facts : Multiset Fact) =
      st.sessions.total (fun s => ((session s).facts : Multiset Fact)) := by
    rw [coe_flatMap, ((sortBy_perm _).map _).sum_eq, List.map_map]
    rfl
  have hattachments : (((sortBy compareEmitted st.emitted).map (fun e => e.reference)).map
      Fact.attachment : Multiset Fact) =
      (st.emitted.map (fun e => Fact.attachment e.reference) : List Fact) := by
    rw [List.map_map, Multiset.coe_eq_coe]
    exact (sortBy_perm _).map _
  rw [ProjectedRun.facts, ← Multiset.coe_add, ← Multiset.coe_add, ← Multiset.coe_add]
  simp only [runOf]
  rw [hsessions, executions_facts h, hattachments, State.facts]

/-! ### The order of the projector -/

section order
variable {l : Log} (h : Lifecycle l)

theorem mem_known {e : Event} (he : e ∈ ordered (l.filterMap AnyEvent.known?)) : .known e ∈ l :=
  (mem_logOfEvents_ordered.mp (List.mem_map_of_mem he)).1

include h

/-- The events before one in the order are those the comparator puts before it. -/
theorem mem_before_iff (hnodup : l.Nodup) {p s : List Event} {x y : Event}
    (hps : ordered (l.filterMap AnyEvent.known?) = p ++ y :: s) (hx : .known x ∈ l) :
    x ∈ p ↔ compareEvents x y = .lt := by
  have hsorted : (p ++ y :: s).Pairwise (fun a b => compareEvents a b ≠ .gt) := by
    rw [← hps]
    exact sortBy_pairwise _
  have hn : (p ++ y :: s).Nodup := by
    rw [← hps]
    exact (sortBy_perm _).nodup_iff.mpr (known_nodup hnodup)
  have hy : .known y ∈ l := mem_known (by rw [hps]; simp)
  obtain ⟨-, hys, hpy⟩ := List.pairwise_append.mp hsorted
  constructor
  · intro hxp
    cases hc : compareEvents x y with
    | lt => rfl
    | gt => exact absurd hc (hpy x hxp y List.mem_cons_self)
    | eq =>
        rw [compareEvents, Ordering.then_eq_eq] at hc
        have heq : AnyEvent.known x = .known y :=
          eq_of_sequence h hx hy (Std.LawfulEqCmp.eq_of_compare hc.1)
            (Std.LawfulEqCmp.eq_of_compare hc.2)
        cases heq
        exact absurd rfl ((List.nodup_append.mp hn).2.2 x hxp x List.mem_cons_self)
  · intro hlt
    have hmem : x ∈ p ++ y :: s := by
      rw [← hps]
      exact mem_sortBy.mpr (List.mem_filterMap.mpr ⟨_, hx, rfl⟩)
    rcases List.mem_append.mp hmem with hxp | hxs
    · exact hxp
    · rcases List.mem_cons.mp hxs with rfl | hxs
      · rw [show compareEvents x x = .eq from Std.ReflCmp.compare_self] at hlt
        cases hlt
      · exact absurd (Std.OrientedCmp.gt_of_lt hlt) ((List.pairwise_cons.mp hys).1 x hxs)

omit h in
/-- For an event that the log has first, only the sessions decide. -/
theorem compareEvents_lt_iff {rn : Text → Option Text} {p s : Log} {x y : Event} (h : Admissible (Guard rn) (p ++ .known y :: s))
    (hx : .known x ∈ p) : compareEvents x y = .lt ↔ compare x.sessionId y.sessionId ≠ .gt := by
  rw [compareEvents, Ordering.then_eq_lt]
  cases hc : compare x.sessionId y.sessionId with
  | lt => simp
  | gt => simp
  | eq =>
      have hlt := sequence_lt h hx (Std.LawfulEqCmp.eq_of_compare hc)
      have hseq : x.sequence < y.sequence := hlt
      simpa [Nat.compare_eq_lt] using hseq

/-- The session of an event was started before it. -/
theorem startedSession_before (hnodup : l.Nodup) {p s : List Event} {y : Event}
    (hps : ordered (l.filterMap AnyEvent.known?) = p ++ y :: s)
    (hy : (AnyEvent.known y).isSessionStarted = false) :
    y.sessionId ∈ Log.startedSessions (logOfEvents p) := by
  have hyl : .known y ∈ l := mem_known (by rw [hps]; simp)
  obtain ⟨x, hx, hst, hxs⟩ := session_started h (Log.session_mem hyl)
  obtain ⟨P, hP⟩ := AnyEvent.isSessionStarted_iff.mp hst
  obtain ⟨k, rfl, -⟩ := AnyEvent.payload?_eq_some.mp hP
  have hfirst := ((sessionOrder h).first _ hx).mp hst
  have hlater : (AnyEvent.known y).sequence ≠ 1 := fun hone => by
    rw [((sessionOrder h).first _ hyl).mpr hone] at hy
    cases hy
  have hpos := (sequence_le h hyl).1
  have hkp : k ∈ p := by
    rw [mem_before_iff h hnodup hps hx, compareEvents, Ordering.then_eq_lt]
    refine Or.inr ⟨?_, ?_⟩
    · rw [show k.sessionId = y.sessionId from hxs]
      exact Std.ReflCmp.compare_self
    · have hk : k.sequence = 1 := hfirst
      have hy' : y.sequence ≠ 1 := hlater
      have hy1 : 1 ≤ y.sequence := hpos
      rw [Nat.compare_eq_lt]
      omega
  exact List.mem_filterMap.mpr ⟨.known k, List.mem_map_of_mem hkp,
    AnyEvent.startsSession_eq_some.mpr ⟨hst, hxs⟩⟩

/-- In a log, what starts the attempt that an event names stands before it. -/
theorem attempt_before {y : AnyEvent} (hy : y ∈ l) {a : Text} (ha : y.namesAttempt = some a) :
    ∃ q r, l = q ++ y :: r ∧ ∃ x : Event, .known x ∈ q ∧ (AnyEvent.known x).startsAttempt = some a := by
  obtain ⟨q, r, rfl, hg⟩ := Admissible.of_mem h hy
  obtain ⟨x, hx, hxa⟩ := List.mem_filterMap.mp (attempt_of_names (admissible_append.mp h).1 hg ha)
  obtain ⟨P, hP, -⟩ := AnyEvent.startsAttempt_eq_some.mp hxa
  obtain ⟨k, rfl, -⟩ := AnyEvent.payload?_eq_some.mp hP
  exact ⟨q, r, rfl, k, hx, hxa⟩

theorem step_before {y : AnyEvent} (hy : y ∈ l) {s : Text × Text} (hs : y.endsStep = some s) :
    ∃ q r, l = q ++ y :: r ∧ ∃ x : Event, .known x ∈ q ∧ (AnyEvent.known x).startsStep = some s := by
  obtain ⟨q, r, rfl, hg⟩ := Admissible.of_mem h hy
  obtain ⟨P, hP, rfl⟩ := AnyEvent.endsStep_eq_some.mp hs
  have hpay := hg.payload
  rw [PayloadGuard, hP] at hpay
  obtain ⟨x, hx, hxs⟩ := List.mem_filterMap.mp hpay.1
  obtain ⟨Q, hQ, -⟩ := AnyEvent.startsStep_eq_some.mp hxs
  obtain ⟨k, rfl, -⟩ := AnyEvent.payload?_eq_some.mp hQ
  exact ⟨q, r, rfl, k, hx, hxs⟩

section targets
variable (hnodup : l.Nodup)
include hnodup

/-- An event is known to the projector when its targets are in no higher session. -/
theorem attempt_known (ht : TargetsFirst l) {p s : List Event} {y : Event}
    (hps : ordered (l.filterMap AnyEvent.known?) = p ++ y :: s) {a : Text}
    (ha : (AnyEvent.known y).namesAttempt = some a) : a ∈ Log.attempts (logOfEvents p) := by
  have hyl : .known y ∈ l := mem_known (by rw [hps]; simp)
  obtain ⟨q, r, hqr, x, hx, hxa⟩ := attempt_before h hyl ha
  have hxl : .known x ∈ l := hqr ▸ List.mem_append_left _ hx
  have hxp : x ∈ p := by
    rw [mem_before_iff h hnodup hps hxl, compareEvents_lt_iff (hqr ▸ h) hx]
    exact ht.1 _ hxl _ hyl a hxa ha
  exact List.mem_filterMap.mpr ⟨_, List.mem_map_of_mem hxp, hxa⟩

theorem step_known (ht : TargetsFirst l) {p s : List Event} {y : Event}
    (hps : ordered (l.filterMap AnyEvent.known?) = p ++ y :: s) {t : Text × Text}
    (hs : (AnyEvent.known y).endsStep = some t) : StepPlaced (logOfEvents p) t := by
  have hyl : .known y ∈ l := mem_known (by rw [hps]; simp)
  obtain ⟨q, r, hqr, x, hx, hxs⟩ := step_before h hyl hs
  have hxl : .known x ∈ l := hqr ▸ List.mem_append_left _ hx
  have hxp : x ∈ p := by
    rw [mem_before_iff h hnodup hps hxl, compareEvents_lt_iff (hqr ▸ h) hx]
    exact ht.2 _ hxl _ hyl t hxs hs
  obtain ⟨p₁, p₂, rfl⟩ := List.append_of_mem hxp
  refine ⟨logOfEvents p₁, .known x, logOfEvents p₂, by simp [logOfEvents], hxs, ?_⟩
  exact attempt_known h hnodup ht (by simpa using hps) (AnyEvent.namesAttempt_of_startsStep hxs)

theorem known_of_targetsFirst (ht : TargetsFirst l) :
    Admissible Known (logOfEvents (ordered (l.filterMap AnyEvent.known?))) := by
  intro p e s hsplit
  obtain ⟨p', rest, hps, rfl, hrest⟩ := List.map_eq_append_iff.mp hsplit
  obtain ⟨y, s', rfl, rfl, rfl⟩ := List.map_eq_cons_iff.mp hrest
  unfold Known
  split
  · rename_i q hq
    exact startedSession_before h hnodup hps (by simp [AnyEvent.isSessionStarted, hq])
  · rename_i q hq
    exact attempt_known h hnodup ht hps (by simp [AnyEvent.namesAttempt, hq])
  · rename_i q hq
    exact attempt_known h hnodup ht hps (by simp [AnyEvent.namesAttempt, hq])
  · rename_i q hq
    exact step_known h hnodup ht hps (by simp [AnyEvent.endsStep, hq])
  · rename_i q hq
    exact attempt_known h hnodup ht hps (by simp [AnyEvent.namesAttempt, hq])
  · trivial

theorem targetsFirst_of_known
    (hk : Admissible Known (logOfEvents (ordered (l.filterMap AnyEvent.known?)))) :
    TargetsFirst l := by
  have hsplit : ∀ y : Event, .known y ∈ l → ∃ p s,
      ordered (l.filterMap AnyEvent.known?) = p ++ y :: s ∧ Known (logOfEvents p) (.known y) := by
    intro y hy
    have hmem : y ∈ ordered (l.filterMap AnyEvent.known?) :=
      mem_sortBy.mpr (List.mem_filterMap.mpr ⟨_, hy, rfl⟩)
    obtain ⟨p, s, hps⟩ := List.append_of_mem hmem
    exact ⟨p, s, hps, hk (logOfEvents p) _ (logOfEvents s) (by rw [hps]; simp [logOfEvents])⟩
  have hle : ∀ {p s : List Event} {x y : Event},
      ordered (l.filterMap AnyEvent.known?) = p ++ y :: s → .known x ∈ l → .known x ∈ logOfEvents p →
      compare (AnyEvent.known x).session (AnyEvent.known y).session ≠ .gt := by
    intro p s x y hps hx hxp hgt
    obtain ⟨x', hx', hxx⟩ := List.mem_map.mp hxp
    cases hxx
    have hlt := (mem_before_iff h hnodup hps hx).mp hx'
    rw [compareEvents, Ordering.then_eq_lt] at hlt
    rcases hlt with hlt | ⟨heq, -⟩
    · rw [show compare x.sessionId y.sessionId = .gt from hgt] at hlt
      cases hlt
    · rw [show compare x.sessionId y.sessionId = .gt from hgt] at heq
      cases heq
  constructor
  · intro x hx y hy a hxa hya
    have hknown : ∀ k : Event, .known k ∈ l → (AnyEvent.known k).namesAttempt = some a →
        ∃ p s, ordered (l.filterMap AnyEvent.known?) = p ++ k :: s ∧
          a ∈ Log.attempts (logOfEvents p) := by
      intro k hkl hka
      obtain ⟨p, s, hps, hkn⟩ := hsplit k hkl
      refine ⟨p, s, hps, ?_⟩
      unfold Known at hkn
      unfold AnyEvent.namesAttempt at hka
      split at hka
      case h_5 => cases hka
      all_goals
        rename_i q hq
        cases hka
        rw [hq] at hkn
      case h_3 => exact hkn.attempt
      all_goals exact hkn
    cases y with
    | unknown u => cases hya
    | known k =>
        obtain ⟨p, s, hps, hap⟩ := hknown k hy hya
        obtain ⟨w, hw, hwa⟩ := List.mem_filterMap.mp hap
        have hwl : w ∈ l := by
          obtain ⟨w', hw', rfl⟩ := List.mem_map.mp hw
          exact mem_known (by rw [hps]; exact List.mem_append_left _ hw')
        obtain rfl := attempt_unique h hx hwl hxa hwa
        cases x with
        | unknown u => cases hxa
        | known x => exact hle hps hx hw
  · intro x hx y hy t hxt hyt
    cases y with
    | unknown u => cases hyt
    | known k =>
        obtain ⟨p, s, hps, hkn⟩ := hsplit k hy
        obtain ⟨q, hq, rfl⟩ := AnyEvent.endsStep_eq_some.mp hyt
        rw [Known, hq] at hkn
        obtain ⟨w, hw, hwt⟩ := List.mem_filterMap.mp (StepPlaced.step hkn)
        have hwl : w ∈ l := by
          obtain ⟨w', hw', rfl⟩ := List.mem_map.mp hw
          exact mem_known (by rw [hps]; exact List.mem_append_left _ hw')
        obtain rfl := eq_of_nodup_keys (steps_nodup h) hx hwl hxt hwt
        cases x with
        | unknown u => cases hxt
        | known x => exact hle hps hx hw

end targets

end order

/-! ### The executions of a session -/

/-- The execution that an attempt.started event of a session belongs to. -/
def executionIn (s : Text) (e : AnyEvent) : Option Text :=
  match e.payload? with
  | some (.attemptStarted p) => if e.session = s then some p.test.executionId else none
  | _ => none

structure ExecutionsTrack (l : Log) (s : Text) (st : SessionState) : Prop where
  nodup : st.executionIds.Nodup
  mem : ∀ x, x ∈ st.executionIds ↔ x ∈ l.filterMap (executionIn s)

theorem addTo_nodup {set : List Text} (h : set.Nodup) (x : Text) : (addTo set x).Nodup := by
  unfold addTo
  split_ifs with hx
  · exact h
  · exact h.append (List.nodup_singleton x) (by simpa using hx)

theorem mem_addTo {set : List Text} {x y : Text} : y ∈ addTo set x ↔ y ∈ set ∨ y = x := by
  unfold addTo
  split_ifs with hx
  · exact ⟨Or.inl, fun hy => hy.elim id (fun hy => hy ▸ hx)⟩
  · simp

theorem ExecutionsTrack.concat {l : Log} {s : Text} {st : SessionState} {e : AnyEvent}
    (h : ExecutionsTrack l s st) (he : executionIn s e = none) : ExecutionsTrack (l ++ [e]) s st :=
  ⟨h.nodup, fun x => by rw [h.mem, mem_filterMap_concat, he]; simp⟩

theorem executions_projectPayload {l : Log} {st : State} {e : Envelope} {P : Payload}
    (h : st.sessions.Holds (· ∈ l.startedSessions) (ExecutionsTrack l))
    (hopen : (AnyEvent.known ⟨e, P⟩).isSessionStarted = true → e.sessionId ∉ l.sessions) :
    (projectPayload st e P).sessions.Holds (· ∈ Log.startedSessions (l ++ [.known ⟨e, P⟩]))
      (ExecutionsTrack (l ++ [.known ⟨e, P⟩])) := by
  have hkeep : (∀ s, executionIn s (.known ⟨e, P⟩) = none) →
      (AnyEvent.known ⟨e, P⟩).startsSession = none →
      st.sessions.Holds (· ∈ Log.startedSessions (l ++ [.known ⟨e, P⟩]))
        (ExecutionsTrack (l ++ [.known ⟨e, P⟩])) :=
    fun hno hs => h.imp (by simp [hs]) (fun s _ ht => ht.concat (hno s))
  cases P with
  | sessionStarted p =>
      refine h.set (fun s => ?_) (fun s _ _ ht => ht.concat rfl)
        ⟨List.nodup_nil, fun x => iff_of_false List.not_mem_nil (fun hx => ?_)⟩
      · rw [Log.mem_startedSessions_concat]
        simp [AnyEvent.startsSession, AnyEvent.payload?, AnyEvent.session, AnyEvent.envelope, eq_comm]
      · rw [mem_filterMap_concat] at hx
        rcases hx with hx | hx
        · obtain ⟨y, hy, hyx⟩ := List.mem_filterMap.mp hx
          unfold executionIn at hyx
          split at hyx
          · split_ifs at hyx with hys
            exact hopen rfl (hys ▸ Log.session_mem hy)
          · cases hyx
        · cases hx
  | sessionFinished p =>
      refine h.update (fun s => ?_) (fun s _ _ ht => ht.concat rfl)
        (fun ss _ ht => ⟨ht.nodup, (ht.concat rfl).mem⟩)
      rw [Log.mem_startedSessions_concat]
      simp [AnyEvent.startsSession, AnyEvent.payload?]
  | attemptStarted p =>
      refine h.update (fun s => ?_) (fun s _ hne ht => ht.concat ?_)
        (fun ss _ ht => ⟨addTo_nodup ht.nodup _, fun x => ?_⟩)
      · rw [Log.mem_startedSessions_concat]
        simp [AnyEvent.startsSession, AnyEvent.payload?]
      · exact if_neg (Ne.symm hne)
      · rw [mem_addTo, ht.mem, mem_filterMap_concat]
        refine or_congr_right ?_
        simp [executionIn, AnyEvent.payload?, AnyEvent.session, AnyEvent.envelope, eq_comm]
  | runFinished => exact hkeep (fun _ => rfl) rfl
  | attemptFinished p => exact hkeep (fun _ => rfl) rfl
  | stepStarted p => exact hkeep (fun _ => rfl) rfl
  | stepFinished p => exact hkeep (fun _ => rfl) rfl
  | attachmentAdded p => exact hkeep (fun _ => rfl) rfl
  | scopeFailed p => exact hkeep (fun _ => rfl) rfl

/-- Each session lists the executions of its attempts, when it is started before them. -/
theorem projectEvents_executions {events : List Event}
    (h : Admissible (fun l e => e.isSessionStarted = true → e.session ∉ Log.sessions l)
      (logOfEvents events)) :
    (projectEvents events).sessions.Holds (· ∈ Log.startedSessions (logOfEvents events))
      (ExecutionsTrack (logOfEvents events)) := by
  induction events using List.reverseRecOn with
  | nil => exact JsMap.holds_empty (fun _ => List.not_mem_nil)
  | append_singleton events e ih =>
      rw [logOfEvents_concat] at h ⊢
      obtain ⟨hl, he⟩ := admissible_concat.mp h
      rw [projectEvents_concat]
      exact executions_projectPayload (ih hl) he

theorem ordered_opens {l : Log} (h : Lifecycle l) (hnodup : l.Nodup) :
    Admissible (fun p e => e.isSessionStarted = true → e.session ∉ Log.sessions p)
      (logOfEvents (ordered (l.filterMap AnyEvent.known?))) := by
  intro p e s hsplit hst hmem
  obtain ⟨p', rest, hps, rfl, hrest⟩ := List.map_eq_append_iff.mp hsplit
  obtain ⟨y, s', rfl, rfl, rfl⟩ := List.map_eq_cons_iff.mp hrest
  obtain ⟨x, hx, hxs⟩ := List.mem_map.mp hmem
  obtain ⟨k, hk, rfl⟩ := List.mem_map.mp hx
  have hkl : .known k ∈ l := mem_known (by rw [hps]; exact List.mem_append_left _ hk)
  have hyl : .known y ∈ l := mem_known (by rw [hps]; simp)
  have hlt := (mem_before_iff h hnodup hps hkl).mp hk
  have hone : y.sequence = 1 := ((sessionOrder h).first _ hyl).mp hst
  have hpos : 1 ≤ k.sequence := (sequence_le h hkl).1
  have hsame : compare k.sessionId y.sessionId = .eq := by
    rw [show k.sessionId = y.sessionId from hxs]
    exact Std.ReflCmp.compare_self
  rw [compareEvents, hsame] at hlt
  have hseq : k.sequence < y.sequence := Nat.compare_eq_lt.mp hlt
  omega

end Projector

end QeReport

import QeReport.ReadModel.Assembly
import QeReport.ReadModel.Faithful

/-! # Flakiness

An execution is flaky when it was tried at least twice, every attempt of it finished, the attempt
with the highest number passed as expected and another one failed against expectation.  The
projector looks at every part of this rule but one: it does not ask the attempts between the first
and the last to have finished.

So the flag is exact (`flakiness_exact_iff`) as long as no execution recovers around an attempt
that was left unfinished, and then `getFlakiness` counts the flaky executions of its runs. -/

namespace QeReport

open GuardedLog Projector

/-! ### The rule -/

/-- The attempt ended with the status, and was expected to pass. -/
def Attempt.Ended (a : Attempt) (s : Status) : Prop := a.status = some s ∧ expected a = .passed

instance (a : Attempt) (s : Status) : Decidable (a.Ended s) :=
  inferInstanceAs (Decidable (_ ∧ _))

/-- The attempt with the highest number passed as expected, and another one failed although it was
expected to pass. -/
def Recovers (as : List Attempt) : Prop :=
  ∃ f ∈ as, (∀ a ∈ as, a.attemptNumber ≤ f.attemptNumber) ∧ f.Ended .passed ∧
    ∃ b ∈ as, b ≠ f ∧ b.Ended .failed

instance (as : List Attempt) : Decidable (Recovers as) :=
  inferInstanceAs (Decidable (∃ f ∈ as, _))

/-- The rule, whatever the flag says. -/
def TestExecution.FlakyByRule (x : TestExecution) : Prop :=
  2 ≤ x.attempts.length ∧ (∀ a ∈ x.attempts, a.finished = true) ∧ Recovers x.attempts

instance (x : TestExecution) : Decidable x.FlakyByRule :=
  inferInstanceAs (Decidable (_ ∧ _ ∧ _))

/-! ### The flag -/

/-- The fold finds an attempt with the highest number. -/
theorem foldl_laterAttempt (rest : List Attempt) (first : Attempt) :
    rest.foldl laterAttempt first ∈ first :: rest ∧
      ∀ a ∈ first :: rest, a.attemptNumber ≤ (rest.foldl laterAttempt first).attemptNumber := by
  induction rest generalizing first with
  | nil => simp
  | cons a rest ih =>
      rw [List.foldl_cons]
      obtain ⟨hmem, hmax⟩ := ih (laterAttempt first a)
      have hle : first.attemptNumber ≤ (laterAttempt first a).attemptNumber ∧
          a.attemptNumber ≤ (laterAttempt first a).attemptNumber := by
        unfold laterAttempt
        split_ifs <;> omega
      have hone : laterAttempt first a = a ∨ laterAttempt first a = first := by
        unfold laterAttempt
        split_ifs
        · exact .inl rfl
        · exact .inr rfl
      refine ⟨?_, fun b hb => ?_⟩
      · rcases List.mem_cons.mp hmem with hmem | hmem
        · rw [hmem]
          rcases hone with hone | hone <;> simp [hone]
        · simp [hmem]
      · have htop := hmax _ List.mem_cons_self
        simp only [List.mem_cons] at hb
        rcases hb with rfl | rfl | hb
        · omega
        · omega
        · exact hmax b (List.mem_cons_of_mem _ hb)

/-- An attempt with a status has finished. -/
def Attempt.Honest (a : Attempt) : Prop := ∀ s, a.status = some s → a.finished = true

theorem isFlaky_iff {as : List Attempt} (hnodup : (as.map (fun a => a.attemptNumber)).Nodup)
    (hhonest : ∀ a ∈ as, a.Honest) : isFlaky as = true ↔ 2 ≤ as.length ∧ Recovers as := by
  match as with
  | [] => simp [isFlaky]
  | [a] => simp [isFlaky]
  | first :: second :: rest =>
      obtain ⟨hmem, hmax⟩ := foldl_laterAttempt (second :: rest) first
      have htop : ∀ f ∈ first :: second :: rest,
          (∀ a ∈ first :: second :: rest, a.attemptNumber ≤ f.attemptNumber) →
          f = (second :: rest).foldl laterAttempt first := fun f hf hfmax =>
        List.inj_on_of_nodup_map hnodup hf hmem (le_antisymm (hmax f hf) (hfmax _ hmem))
      simp only [isFlaky]
      generalize (second :: rest).foldl laterAttempt first = final at hmem hmax htop ⊢
      have hlen : 2 ≤ (first :: second :: rest).length := by simp
      simp only [hlen, true_and]
      constructor
      · intro h
        split_ifs at h with hfin hst
        rw [not_or, not_not, not_not] at hst
        obtain ⟨b, hb, hflags⟩ := List.any_eq_true.mp h
        simp only [Bool.and_eq_true, bne_iff_ne, beq_iff_eq] at hflags
        exact ⟨final, hmem, hmax, hst, b, hb, hflags.1.1.1, hflags.1.2, hflags.2⟩
      · rintro ⟨f, hf, hfmax, hpassed, b, hb, hne, hfailed⟩
        obtain rfl := htop f hf hfmax
        have hfinished := hhonest f hf _ hpassed.1
        rw [if_neg (by simp [hfinished]), if_neg (by simp [hpassed.1, hpassed.2])]
        refine List.any_eq_true.mpr ⟨b, hb, ?_⟩
        simp [hne, hhonest b hb _ hfailed.1, hfailed.1, hfailed.2]

namespace Projector

/-- What the loop over the groups puts into an execution next to its attempts. -/
theorem groupExecution_flags {sessions : JsMap Text SessionState} {id : Text}
    {states : List AttemptState} {x : TestExecution} (h : groupExecution sessions id states = .ok x) :
    x.complete = x.attempts.all (fun a => a.finished) ∧ x.flaky = isFlaky x.attempts := by
  unfold groupExecution at h
  dsimp only at h
  split at h
  · cases h
  · split at h
    · cases h
    · split at h
      · cases h
      · split_ifs at h
        cases h
        exact ⟨rfl, rfl⟩

theorem attempt_honest (a : AttemptState) : (attempt a).Honest := by
  intro s hs
  obtain ⟨f, hf, -⟩ := Option.map_eq_some_iff.mp hs
  simp [attempt, hf]

/-- The flag of a projected execution follows the rule, completeness apart. -/
theorem flaky_of_group {l : Log} (h : Lifecycle l) {g : Text × List AttemptState}
    (hg : g ∈ groups (projected l).attempts) {sessions : JsMap Text SessionState}
    {x : TestExecution} (hx : groupExecution sessions g.1 g.2 = .ok x) :
    x.flaky = true ↔ 2 ≤ x.attempts.length ∧ Recovers x.attempts := by
  rw [(groupExecution_flags hx).2]
  have hperm : x.attempts.Perm (g.2.map attempt) := by
    rw [(groupExecution_eq_ok hx).2]
    exact sortBy_perm _
  refine isFlaky_iff ((hperm.map _).nodup_iff.mpr ?_) (fun a ha => ?_)
  · rw [List.map_map]
    exact group_numbers_nodup h hg
  · obtain ⟨st, -, rfl⟩ := List.mem_map.mp (hperm.mem_iff.mp ha)
    exact attempt_honest st

end Projector

/-! ### How the events end an attempt -/

/-- The payload of an attempt.started event. -/
def Event.startedAttempt (e : Event) : Option AttemptStartedPayload :=
  match e.payload with
  | .attemptStarted p => some p
  | _ => none

/-- The payload of the attempt.finished event of an attempt. -/
def Event.finishedAttempt (id : Text) (e : Event) : Option AttemptFinishedPayload :=
  match e.payload with
  | .attemptFinished p => if p.attemptId = id then some p else none
  | _ => none

/-- The attempts that the events start. -/
def startedAttempts (events : List Event) : List AttemptStartedPayload :=
  events.filterMap Event.startedAttempt

/-- How an attempt ends in the events of a run: by its attempt.finished event, when that comes
after its attempt.started event. -/
def endOf (events : List Event) (id : Text) : Option AttemptFinishedPayload :=
  (events.dropWhile (fun e => e.startedAttempt.all (fun p => p.attemptId ≠ id))).findSome?
    (Event.finishedAttempt id)

/-- The attempt ended with the status, and was expected to pass. -/
def EndedBy (s : Status) (ended : Option AttemptFinishedPayload) : Prop :=
  ended.map (fun p => p.status) = some s ∧
    (ended.bind (fun p => p.expectedStatus)).getD .passed = .passed

instance (s : Status) (ended : Option AttemptFinishedPayload) : Decidable (EndedBy s ended) :=
  inferInstanceAs (Decidable (_ ∧ _))

/-- An execution of the events has an attempt that does not end, although its attempt with the
highest number passed as expected and another one failed against expectation. -/
def RecoversUnfinished (events : List Event) : Prop :=
  ∃ f ∈ startedAttempts events,
    (∀ a ∈ startedAttempts events, a.test.executionId = f.test.executionId →
      a.attemptNumber ≤ f.attemptNumber) ∧
    EndedBy .passed (endOf events f.attemptId) ∧
    (∃ b ∈ startedAttempts events, b.test.executionId = f.test.executionId ∧
      EndedBy .failed (endOf events b.attemptId)) ∧
    ∃ u ∈ startedAttempts events, u.test.executionId = f.test.executionId ∧
      endOf events u.attemptId = none

instance (events : List Event) : Decidable (RecoversUnfinished events) :=
  inferInstanceAs (Decidable (∃ f ∈ startedAttempts events, _))

/-! ### What the projector keeps of the ends -/

section ends
variable {events : List Event} {e : Event} {id : Text}

theorem not_started_iff {e : Event} :
    (e.startedAttempt.all (fun p => decide (p.attemptId ≠ id))) = true ↔
      (AnyEvent.known e).startsAttempt ≠ some id := by
  obtain ⟨e, P⟩ := e
  cases P <;> simp [Event.startedAttempt, AnyEvent.startsAttempt, AnyEvent.payload?]

theorem dropWhile_ne_nil (h : id ∈ Log.attempts (logOfEvents events)) :
    events.dropWhile (fun e => e.startedAttempt.all (fun p => decide (p.attemptId ≠ id))) ≠ [] := by
  intro hnil
  obtain ⟨x, hx, hxid⟩ := List.mem_filterMap.mp h
  obtain ⟨k, hk, rfl⟩ := List.mem_map.mp hx
  exact not_started_iff.mp (List.dropWhile_eq_nil_iff.mp hnil k hk) hxid

/-- An attempt that is started ends with its first attempt.finished event from then on. -/
theorem endOf_concat (h : id ∈ Log.attempts (logOfEvents events)) :
    endOf (events ++ [e]) id = (endOf events id).or (e.finishedAttempt id) := by
  have hne := dropWhile_ne_nil h
  rw [endOf, List.dropWhile_append, if_neg (by simpa using hne), List.findSome?_append, endOf]
  cases he : e.finishedAttempt id <;> simp [he]

theorem endOf_start (h : id ∉ Log.attempts (logOfEvents events))
    (he : e.finishedAttempt id = none) : endOf (events ++ [e]) id = none := by
  have hnil : events.dropWhile
      (fun e => e.startedAttempt.all (fun p => decide (p.attemptId ≠ id))) = [] := by
    rw [List.dropWhile_eq_nil_iff]
    intro k hk
    rw [not_started_iff]
    intro hkid
    exact h (List.mem_filterMap.mpr ⟨_, List.mem_map_of_mem hk, hkid⟩)
  rw [endOf, List.dropWhile_append, if_pos (by rw [hnil]; rfl), List.findSome?_eq_none_iff]
  intro k hk
  rw [List.mem_singleton.mp ((List.dropWhile_sublist _).subset hk), he]

theorem endOf_eq_none (h : id ∉ Log.finishedAttempts (logOfEvents events)) :
    endOf events id = none := by
  rw [endOf, List.findSome?_eq_none_iff]
  intro k hk
  have hmem : k ∈ events := (List.dropWhile_sublist _).subset hk
  obtain ⟨k, P⟩ := k
  cases P with
  | attemptFinished p =>
      refine if_neg (fun hp => ?_)
      exact h (List.mem_filterMap.mpr ⟨_, List.mem_map_of_mem hmem, congrArg some hp⟩)
  | _ => rfl

end ends

namespace Projector

/-- What the state holds of an attempt: the payload that started it, and how it ended. -/
structure Concluded (events : List Event) (id : Text) (a : AttemptState) : Prop where
  key : a.started.payload.attemptId = id
  started : a.started.payload ∈ startedAttempts events
  finished : a.finished.map (fun f => f.payload) = endOf events id

theorem Concluded.mem {events : List Event} {id : Text} {a : AttemptState}
    (h : Concluded events id a) : id ∈ Log.attempts (logOfEvents events) := by
  obtain ⟨e, he, hp⟩ := List.mem_filterMap.mp h.started
  refine List.mem_filterMap.mpr ⟨_, List.mem_map_of_mem he, ?_⟩
  obtain ⟨e, P⟩ := e
  cases P with
  | attemptStarted p =>
      cases hp
      exact congrArg some h.key
  | _ => cases hp

theorem Concluded.concat {events : List Event} {id : Text} {a : AttemptState} {e : Event}
    (h : Concluded events id a) (he : e.finishedAttempt id = none) :
    Concluded (events ++ [e]) id a := by
  refine ⟨h.key, ?_, ?_⟩
  · rw [startedAttempts, List.filterMap_append]
    exact List.mem_append_left _ h.started
  · rw [endOf_concat h.mem, he, h.finished, Option.or_none]

/-- A step or an attachment of an attempt changes neither its start nor its end. -/
theorem Concluded.change {events : List Event} {id : Text} {a a' : AttemptState}
    (h : Concluded events id a) (hs : a'.started = a.started) (hf : a'.finished = a.finished) :
    Concluded events id a' := by
  refine ⟨?_, ?_, ?_⟩
  · rw [hs]
    exact h.key
  · rw [hs]
    exact h.started
  · rw [hf]
    exact h.finished

theorem finishStep_keeps (a : AttemptState) (e : EventOf StepFinishedPayload) :
    (a.finishStep e).started = a.started ∧ (a.finishStep e).finished = a.finished := by
  unfold AttemptState.finishStep
  split <;> exact ⟨rfl, rfl⟩

/-- The state after some events concludes the attempts as they do. -/
def Concludes (events : List Event) (st : State) : Prop :=
  st.attempts.Holds (· ∈ Log.attempts (logOfEvents events)) (Concluded events)

section step
variable {events : List Event} {st : State} {e : Envelope}

theorem mem_attempts_concat {P : Payload} (hs : (AnyEvent.known ⟨e, P⟩).startsAttempt = none)
    (k : Text) : k ∈ Log.attempts (logOfEvents (events ++ [⟨e, P⟩])) ↔
      k ∈ Log.attempts (logOfEvents events) := by
  rw [logOfEvents_concat, Log.mem_attempts_concat, hs]
  simp

/-- An event that neither starts nor finishes an attempt, and at most adds to the steps and the
attachments of one. -/
theorem Concludes.touch (h : Concludes events st) {P : Payload} (id : Text)
    {f : AttemptState → AttemptState}
    (hf : ∀ a, (f a).started = a.started ∧ (f a).finished = a.finished)
    (hs : (AnyEvent.known ⟨e, P⟩).startsAttempt = none)
    (he : ∀ id, (⟨e, P⟩ : Event).finishedAttempt id = none) :
    (st.attempts.update id f).Holds (· ∈ Log.attempts (logOfEvents (events ++ [⟨e, P⟩])))
      (Concluded (events ++ [⟨e, P⟩])) :=
  JsMap.Holds.update h (mem_attempts_concat hs) (fun k _ _ hk => hk.concat (he k))
    (fun a _ ha => (ha.concat (he _)).change (hf a).1 (hf a).2)

/-- An event that leaves the attempts alone. -/
theorem Concludes.keep (h : Concludes events st) {P : Payload}
    (hs : (AnyEvent.known ⟨e, P⟩).startsAttempt = none)
    (he : ∀ id, (⟨e, P⟩ : Event).finishedAttempt id = none) :
    st.attempts.Holds (· ∈ Log.attempts (logOfEvents (events ++ [⟨e, P⟩])))
      (Concluded (events ++ [⟨e, P⟩])) :=
  JsMap.Holds.imp h (mem_attempts_concat hs) (fun k _ hk => hk.concat (he k))

theorem Concludes.attemptStarted (h : Concludes events st) (p : AttemptStartedPayload)
    (hnew : p.attemptId ∉ Log.attempts (logOfEvents events)) :
    Concludes (events ++ [⟨e, .attemptStarted p⟩]) (projectPayload st e (.attemptStarted p)) := by
  refine JsMap.Holds.set h (fun k => ?_) (fun k _ _ hk => hk.concat rfl) ⟨rfl, ?_, ?_⟩
  · rw [logOfEvents_concat, Log.mem_attempts_concat]
    simp [AnyEvent.startsAttempt, AnyEvent.payload?, eq_comm]
  · simp [startedAttempts, Event.startedAttempt]
  · exact (endOf_start hnew rfl).symm

theorem Concludes.attemptFinished (h : Concludes events st) (p : AttemptFinishedPayload)
    (hnew : p.attemptId ∉ Log.finishedAttempts (logOfEvents events)) :
    Concludes (events ++ [⟨e, .attemptFinished p⟩]) (projectPayload st e (.attemptFinished p)) := by
  refine JsMap.Holds.update h (mem_attempts_concat rfl) (fun k _ hne hk => hk.concat ?_)
    (fun a _ ha => ⟨ha.key, ?_, ?_⟩)
  · exact if_neg (Ne.symm hne)
  · rw [startedAttempts, List.filterMap_append]
    exact List.mem_append_left _ ha.started
  · rw [endOf_concat ha.mem, endOf_eq_none hnew]
    exact (if_pos rfl).symm

theorem Concludes.projectEvent {k : Event} (h : Concludes events st)
    (hnew : Once (logOfEvents events) (.known k)) :
    Concludes (events ++ [k]) (projectEvent st k) := by
  obtain ⟨e, P⟩ := k
  have h' : Concludes events { st with runId := some (st.runId.getD e.runId) } := h
  unfold QeReport.Projector.projectEvent
  cases P with
  | attemptStarted p => exact h'.attemptStarted p (hnew.startsAttempt _ rfl)
  | attemptFinished p => exact h'.attemptFinished p (hnew.endsAttempt _ rfl)
  | stepStarted p => exact h'.touch p.attemptId (fun a => ⟨rfl, rfl⟩) rfl (fun _ => rfl)
  | stepFinished p =>
      exact h'.touch p.attemptId (fun a => finishStep_keeps a _) rfl (fun _ => rfl)
  | attachmentAdded p => exact h'.touch p.attemptId (fun a => ⟨rfl, rfl⟩) rfl (fun _ => rfl)
  | sessionStarted p => exact h'.keep rfl (fun _ => rfl)
  | sessionFinished p => exact h'.keep rfl (fun _ => rfl)
  | runFinished => exact h'.keep rfl (fun _ => rfl)
  | scopeFailed p => exact h'.keep rfl (fun _ => rfl)

end step

theorem projectEvents_concludes {events : List Event} (h : Admissible Once (logOfEvents events)) :
    Concludes events (projectEvents events) := by
  induction events using List.reverseRecOn with
  | nil => exact JsMap.holds_empty (fun _ => List.not_mem_nil)
  | append_singleton events e ih =>
      rw [logOfEvents_concat] at h
      obtain ⟨hl, he⟩ := admissible_concat.mp h
      rw [projectEvents_concat]
      exact (ih hl).projectEvent he

/-! ### Executions and events -/

theorem attempt_ended {events : List Event} {id : Text} {a : AttemptState}
    (h : Concluded events id a) (s : Status) :
    (attempt a).Ended s ↔ EndedBy s (endOf events id) := by
  rw [← h.finished]
  cases hf : a.finished with
  | none => simp [Attempt.Ended, EndedBy, attempt, hf]
  | some f => simp [Attempt.Ended, EndedBy, attempt, expected, hf]

theorem attempt_finished {events : List Event} {id : Text} {a : AttemptState}
    (h : Concluded events id a) : (attempt a).finished = (endOf events id).isSome := by
  rw [← h.finished, Option.isSome_map]
  rfl

/-- A valid log and the executions that its projection groups. -/
structure Grouped (l : Log) (events : List Event) (xs : List TestExecution) : Prop where
  lifecycle : Lifecycle l
  events_eq : events = ordered (l.filterMap AnyEvent.known?)
  groups_ok : groupExecutions (projected l).attempts (projected l).sessions = .ok xs

namespace Grouped
variable {l : Log} {events : List Event} {xs : List TestExecution} (h : Grouped l events xs)
include h

theorem concluded {id : Text} {a : AttemptState} (ha : (projected l).attempts.get? id = some a) :
    Concluded events id a := by
  have hall := projectEvents_concludes (ordered_once h.lifecycle)
  rw [← h.events_eq] at hall
  rw [projected, ← h.events_eq] at ha
  exact (hall.some id a ha).2

theorem concluded_value {a : AttemptState} (ha : a ∈ (projected l).attempts.values) :
    Concluded events a.started.payload.attemptId a := by
  obtain ⟨id, hid⟩ := JsMap.mem_values.mp ha
  have hc := h.concluded hid
  rw [hc.key]
  exact hc

/-- The state holds every attempt that the events start. -/
theorem exists_value {p : AttemptStartedPayload} (hp : p ∈ startedAttempts events) :
    ∃ a ∈ (projected l).attempts.values, a.started.payload = p := by
  obtain ⟨e, he, hep⟩ := List.mem_filterMap.mp hp
  have hpay : e.payload = .attemptStarted p := by
    obtain ⟨e, P⟩ := e
    cases P with
    | attemptStarted q => rw [Option.some.inj hep]
    | _ => cases hep
  have hmem : AnyEvent.known e ∈ l := by
    rw [h.events_eq] at he
    exact mem_known he
  have hstarts : (AnyEvent.known e).startsAttempt = some p.attemptId := by
    simp [AnyEvent.startsAttempt, AnyEvent.payload?, hpay]
  have hid : p.attemptId ∈
      Log.attempts (logOfEvents (ordered (l.filterMap AnyEvent.known?))) :=
    List.mem_filterMap.mpr ⟨_, mem_logOfEvents_ordered.mpr ⟨hmem, e, rfl⟩, hstarts⟩
  cases hget : (projected l).attempts.get? p.attemptId with
  | none => exact absurd hid ((projected_tracks h.lifecycle).attempts.none _ hget)
  | some a =>
      have hval : a ∈ (projected l).attempts.values := JsMap.mem_values.mpr ⟨_, hget⟩
      have hkey := (h.concluded hget).key
      have hsame : startEvent a = .known e :=
        eq_of_nodup_keys (attempts_nodup h.lifecycle) (startEvent_mem h.lifecycle hval) hmem
          (congrArg some hkey) hstarts
      refine ⟨a, hval, ?_⟩
      have heq := congrArg AnyEvent.payload? hsame
      simp only [startEvent, AnyEvent.payload?, hpay, Option.some.injEq,
        Payload.attemptStarted.injEq] at heq
      exact heq

/-- The attempts of an execution are those of its group. -/
theorem group {x : TestExecution} (hx : x ∈ xs) :
    ∃ g ∈ groups (projected l).attempts,
      groupExecution (projected l).sessions g.1 g.2 = .ok x := by
  obtain ⟨g, hg, hgx⟩ := mem_of_forall₂ (mapM_eq_ok h.groups_ok) hx
  exact ⟨g, hg, hgx⟩

/-- Every attempt of the state is in an execution. -/
theorem execution {a : AttemptState} (ha : a ∈ (projected l).attempts.values) :
    ∃ x ∈ xs, x.executionId = a.started.payload.test.executionId := by
  have hkey : a.started.payload.test.executionId ∈ xs.map (fun x => x.executionId) := by
    rw [executionIds_eq h.groups_ok]
    refine ((sortBy_perm _).map Prod.fst).mem_iff.mpr ?_
    rw [JsMap.mem_keys, JsMap.get?_groupBy, if_pos (List.mem_map_of_mem ha)]
    rfl
  obtain ⟨x, hx, hid⟩ := List.mem_map.mp hkey
  exact ⟨x, hx, hid⟩

/-- What an execution shows is what the events say of the attempts of its id. -/
theorem mem_attempts {x : TestExecution} (hx : x ∈ xs) {A : Attempt} :
    A ∈ x.attempts ↔ ∃ a ∈ (projected l).attempts.values,
      a.started.payload.test.executionId = x.executionId ∧ attempt a = A := by
  obtain ⟨g, hg, hgx⟩ := h.group hx
  obtain ⟨hid, hattempts⟩ := groupExecution_eq_ok hgx
  rw [hattempts, mem_sortBy, List.mem_map, (mem_groups hg).1]
  simp only [List.mem_filter, decide_eq_true_eq, hid, and_assoc]

theorem flaky_iff {x : TestExecution} (hx : x ∈ xs) :
    x.flaky = true ↔ 2 ≤ x.attempts.length ∧ Recovers x.attempts := by
  obtain ⟨g, hg, hgx⟩ := h.group hx
  exact flaky_of_group h.lifecycle hg hgx

theorem complete_iff {x : TestExecution} (hx : x ∈ xs) :
    x.complete = true ↔ ∀ a ∈ x.attempts, a.finished = true := by
  obtain ⟨g, hg, hgx⟩ := h.group hx
  rw [(groupExecution_flags hgx).1, List.all_eq_true]

/-- Some execution recovers around an unfinished attempt exactly when the events do. -/
theorem recoversUnfinished_iff :
    RecoversUnfinished events ↔
      ∃ x ∈ xs, Recovers x.attempts ∧ ∃ u ∈ x.attempts, u.finished = false := by
  constructor
  · rintro ⟨f, hf, hmax, hpassed, ⟨b, hb, hbx, hfailed⟩, u, hu, hux, hopen⟩
    obtain ⟨fa, hfa, rfl⟩ := h.exists_value hf
    obtain ⟨ba, hba, rfl⟩ := h.exists_value hb
    obtain ⟨ua, hua, rfl⟩ := h.exists_value hu
    obtain ⟨x, hx, hxid⟩ := h.execution hfa
    have hfx : attempt fa ∈ x.attempts := (h.mem_attempts hx).mpr ⟨fa, hfa, hxid.symm, rfl⟩
    have hbx' : attempt ba ∈ x.attempts :=
      (h.mem_attempts hx).mpr ⟨ba, hba, hbx.trans hxid.symm, rfl⟩
    have hux' : attempt ua ∈ x.attempts :=
      (h.mem_attempts hx).mpr ⟨ua, hua, hux.trans hxid.symm, rfl⟩
    have hpassed' := (attempt_ended (h.concluded_value hfa) .passed).mpr hpassed
    have hfailed' := (attempt_ended (h.concluded_value hba) .failed).mpr hfailed
    refine ⟨x, hx, ⟨attempt fa, hfx, ?_, hpassed', attempt ba, hbx', ?_, hfailed'⟩,
      attempt ua, hux', ?_⟩
    · intro A hA
      obtain ⟨a, ha, hax, rfl⟩ := (h.mem_attempts hx).mp hA
      exact hmax _ (h.concluded_value ha).started (hax.trans hxid)
    · intro hsame
      rw [hsame] at hfailed'
      cases hpassed'.1.symm.trans hfailed'.1
    · rw [attempt_finished (h.concluded_value hua), hopen]
      rfl
  · rintro ⟨x, hx, ⟨F, hF, hmax, hpassed, B, hB, -, hfailed⟩, U, hU, hopen⟩
    obtain ⟨fa, hfa, hfx, rfl⟩ := (h.mem_attempts hx).mp hF
    obtain ⟨ba, hba, hbx, rfl⟩ := (h.mem_attempts hx).mp hB
    obtain ⟨ua, hua, hux, rfl⟩ := (h.mem_attempts hx).mp hU
    refine ⟨fa.started.payload, (h.concluded_value hfa).started, ?_,
      (attempt_ended (h.concluded_value hfa) .passed).mp hpassed,
      ⟨ba.started.payload, (h.concluded_value hba).started, hbx.trans hfx.symm,
        (attempt_ended (h.concluded_value hba) .failed).mp hfailed⟩,
      ua.started.payload, (h.concluded_value hua).started, hux.trans hfx.symm, ?_⟩
    · intro p hp hpx
      obtain ⟨a, ha, rfl⟩ := h.exists_value hp
      exact hmax _ ((h.mem_attempts hx).mpr ⟨a, ha, hpx.trans hfx, rfl⟩)
    · rw [attempt_finished (h.concluded_value hua)] at hopen
      exact Option.isSome_eq_false_iff.mp hopen |> Option.isNone_iff_eq_none.mp

/-- The flags follow the rule exactly when no execution recovers around an unfinished attempt. -/
theorem flags_iff :
    (∀ x ∈ xs, (x.flaky = true ↔ x.FlakyByRule)) ↔ ¬ RecoversUnfinished events := by
  rw [h.recoversUnfinished_iff]
  constructor
  · rintro hflags ⟨x, hx, hrec, u, hu, hopen⟩
    have hlen : 2 ≤ x.attempts.length := by
      obtain ⟨f, hf, -, -, b, hb, hne, -⟩ := hrec
      match hxs : x.attempts, hf, hb with
      | [a], hf, hb => exact absurd ((List.mem_singleton.mp hb).trans (List.mem_singleton.mp hf).symm) hne
      | _ :: _ :: _, _, _ => simp
    have hrule := (hflags x hx).mp ((h.flaky_iff hx).mpr ⟨hlen, hrec⟩)
    rw [hrule.2.1 u hu] at hopen
    cases hopen
  · intro hnone x hx
    rw [h.flaky_iff hx, TestExecution.FlakyByRule]
    refine ⟨fun ⟨hlen, hrec⟩ => ⟨hlen, fun a ha => ?_, hrec⟩, fun hr => ⟨hr.1, hr.2.2⟩⟩
    by_contra hopen
    exact hnone ⟨x, hx, hrec, a, ha, by simpa using hopen⟩

end Grouped

end Projector

/-! ### Counting -/

/-- An execution of a run that belongs to the history of a test. -/
def TestExecution.isOf (projectId runnerName historicalId : Text) (run : ProjectedRun)
    (x : TestExecution) : Bool :=
  run.projectId = projectId && x.runnerName = some runnerName &&
    x.test.historicalId = some historicalId

/-- The executions of a test that are flaky by the rule, over the runs of the model. -/
def ReadModel.flakyExecutions (m : ReadModel) (projectId runnerName historicalId : Text) :
    List (Text × Text) :=
  m.runs.flatMap (fun run =>
    (run.executions.filter (fun x =>
      x.isOf projectId runnerName historicalId run && x.FlakyByRule)).map
      (fun x => (run.runId, x.executionId)))

/-- `getFlakiness` lists and counts exactly the flaky executions. -/
def ReadModel.CountsFlaky (m : ReadModel) : Prop :=
  ∀ projectId runnerName historicalId f,
    m.getFlakiness projectId runnerName historicalId = .ok f →
    (f.flaky.map (fun o => (o.runId, o.executionId))).Perm
      (m.flakyExecutions projectId runnerName historicalId) ∧
    f.flakyOccurrences = (m.flakyExecutions projectId runnerName historicalId).length ∧
    (f.everFlaky = true ↔ m.flakyExecutions projectId runnerName historicalId ≠ [])

theorem historyKey_injective {p r h p' r' h' : Text} (heq : historyKey p r h = historyKey p' r' h') :
    p = p' ∧ r = r' ∧ h = h' := by
  have hparts := stringsKey_injective heq
  simpa using hparts

/-- The key under which an occurrence is kept. -/
def ExecutionOccurrence.key (o : ExecutionOccurrence) : Text :=
  historyKey o.projectId o.runnerName o.historicalId

theorem key_eq_iff {o : ExecutionOccurrence} {p r h : Text} :
    o.key = historyKey p r h ↔ o.projectId = p ∧ o.runnerName = r ∧ o.historicalId = h :=
  ⟨historyKey_injective, fun ⟨hp, hr, hh⟩ => by rw [ExecutionOccurrence.key, hp, hr, hh]⟩

/-- The flaky occurrences of a run under a key are its flaky executions of the test. -/
theorem flaky_occurrencesOf {run : ProjectedRun} {os : List ExecutionOccurrence}
    (h : historyOccurrencesOf run = .ok os) (projectId runnerName historicalId : Text) :
    ((os.filter (fun o => o.key = historyKey projectId runnerName historicalId)).filter
        (fun o => o.flaky)).map (fun o => (o.runId, o.executionId)) =
      (run.executions.filter (fun x =>
        x.isOf projectId runnerName historicalId run && x.flaky)).map
        (fun x => (run.runId, x.executionId)) := by
  unfold historyOccurrencesOf at h
  dsimp only at h
  obtain ⟨lists, hlists, rfl⟩ := map_eq_ok.mp h
  have hall := mapM_eq_ok hlists
  clear hlists h
  generalize run.executions = xs at hall
  induction hall with
  | nil => rfl
  | @cons x o xs os hx _ ih =>
      rw [List.flatten_cons, List.filter_append, List.filter_append, List.map_append, ih,
        List.filter_cons]
      clear ih
      cases hh : x.test.historicalId with
      | none =>
          simp only [hh] at hx
          cases hx
          simp [TestExecution.isOf, hh]
      | some hid =>
          cases hr : x.runnerName with
          | none =>
              simp only [hh, hr] at hx
              cases hx
              simp [TestExecution.isOf, hr]
          | some rid =>
              simp only [hh, hr] at hx
              cases ha : x.attempts with
              | nil =>
                  simp only [ha] at hx
                  cases hx
              | cons first rest =>
                  simp only [ha] at hx
                  cases hx
                  by_cases hkey : run.projectId = projectId ∧ rid = runnerName ∧ hid = historicalId
                  · cases hf : x.flaky <;>
                      simp [TestExecution.isOf, key_eq_iff, hh, hr, hkey]
                  · have hno : x.isOf projectId runnerName historicalId run = false := by
                      rw [Bool.eq_false_iff]
                      intro hyes
                      simp only [TestExecution.isOf, hh, hr, Bool.and_eq_true, decide_eq_true_eq,
                        Option.some.injEq] at hyes
                      exact hkey ⟨hyes.1.1, hyes.1.2, hyes.2⟩
                    simp [key_eq_iff, hkey, hno]

theorem sortOccurrences_perm {l l' : List ExecutionOccurrence} (h : sortOccurrences l = .ok l') :
    l'.Perm l := by
  unfold sortOccurrences at h
  split_ifs at h with hlen
  · cases h
    exact .rfl
  · obtain ⟨ps, hps, rfl⟩ := map_eq_ok.mp h
    have hall : ps.map Prod.snd = l := by
      have hpairs := mapM_eq_ok hps
      clear hps h hlen
      induction hpairs with
      | nil => rfl
      | cons hp _ ih =>
          obtain ⟨i, -, rfl⟩ := map_eq_ok.mp hp
          rw [List.map_cons, ih]
    rw [← hall]
    exact (sortBy_perm _).map _

/-- The occurrences kept under a key, in some order. -/
theorem buildHistory_get? {accepted : List ProjectedRun}
    {history : JsMap Text (List ExecutionOccurrence)} (h : buildHistory accepted = .ok history) :
    ∃ os, accepted.mapM historyOccurrencesOf = .ok os ∧ ∀ key,
      ((history.get? key).getD []).Perm (os.flatten.filter (fun o => o.key = key)) := by
  obtain ⟨os, hos, h⟩ := bind_eq_ok.mp h
  refine ⟨os, hos, fun key => ?_⟩
  have hget := JsMap.get?_groupBy ExecutionOccurrence.key id os.flatten key
  obtain ⟨hmem, hno⟩ := JsMap.get?_foldlM_set (JsMap.nodup _) h key
  change (JsMap.groupBy ExecutionOccurrence.key id os.flatten).get? key = _ at hget
  split_ifs at hget with hkey
  · obtain ⟨v, hv, hfound⟩ := hmem _ (JsMap.mem_entries.mpr hget)
    rw [hfound]
    refine (sortOccurrences_perm hv).trans ?_
    rw [List.map_id]
  · have hout : key ∉ (JsMap.groupBy ExecutionOccurrence.key id os.flatten).entries.map Prod.fst :=
      JsMap.get?_eq_none.mp hget
    rw [hno hout]
    change (((JsMap.groupBy ExecutionOccurrence.key id os.flatten).get? key).getD []).Perm _
    rw [hget, List.filter_eq_nil_iff.mpr (fun o ho hk =>
      hkey (List.mem_map.mpr ⟨o, ho, of_decide_eq_true hk⟩))]
    exact .rfl

/-- Only runs that were given are accepted. -/
theorem mem_accepted {runs : List ProjectedRun} {run : ProjectedRun}
    (h : run ∈ (acceptRuns runs).accepted.values) : run ∈ runs := by
  have hfold : ∀ (l : List (Text × List ProjectedRun)) (st : Assembling),
      (∀ e ∈ l, ∀ r ∈ e.2, r ∈ runs) → (∀ r ∈ st.accepted.values, r ∈ runs) →
      ∀ r ∈ (l.foldl assembleKey st).accepted.values, r ∈ runs := by
    intro l
    induction l with
    | nil => exact fun _ _ hst => hst
    | cons e l ih =>
        intro st hl hst
        refine ih _ (fun e' he' => hl e' (List.mem_cons_of_mem _ he')) ?_
        have he := hl e List.mem_cons_self
        unfold assembleKey
        split
        · exact hst
        · rename_i one hone
          split
          · exact hst
          · intro r hr
            obtain ⟨k, hk⟩ := JsMap.mem_values.mp hr
            rw [JsMap.get?_set] at hk
            split_ifs at hk
            · cases hk
              exact he _ (by rw [hone]; exact List.mem_singleton_self _)
            · exact hst r (JsMap.mem_values.mpr ⟨k, hk⟩)
        · exact hst
  refine hfold _ _ (fun e he r hr => ?_) (by simp [JsMap.values, JsMap.empty]) run h
  rw [sortedCandidates_eq] at he
  obtain ⟨k, -, rfl⟩ := List.mem_map.mp he
  exact ((candidatesOf_candidatesAt runs k).sound r hr).1

/-- A model whose runs have exact flags counts them exactly. -/
theorem countsFlaky {runs : List ProjectedRun} {b : ReadModelBuild} (hb : assemble runs = .ok b)
    (hexact : ∀ run ∈ runs, ∀ x ∈ run.executions, (x.flaky = true ↔ x.FlakyByRule)) :
    b.model.CountsFlaky := by
  intro projectId runnerName historicalId f hf
  obtain ⟨history, hhistory, hb⟩ := bind_eq_ok.mp hb
  cases hb
  obtain ⟨os, hos, hget⟩ := buildHistory_get? hhistory
  obtain ⟨t, ht, hf⟩ := bind_eq_ok.mp hf
  cases hf
  obtain ⟨-, -, ht⟩ := bind_eq_ok.mp ht
  cases ht
  have hruns : ((ReadModel.mk (acceptRuns runs).accepted history
      (freezeBlobs (acceptRuns runs).blobs)).runs).Perm (acceptRuns runs).accepted.values :=
    sortBy_perm _
  have hlist : (((os.flatten.filter (fun o => o.key = historyKey projectId runnerName historicalId)).filter
      (fun o => o.flaky)).map (fun o => (o.runId, o.executionId))) =
      (acceptRuns runs).accepted.values.flatMap (fun run =>
        (run.executions.filter (fun x => x.isOf projectId runnerName historicalId run &&
          x.FlakyByRule)).map (fun x => (run.runId, x.executionId))) := by
    have hpairs := mapM_eq_ok hos
    have hin : ∀ run ∈ (acceptRuns runs).accepted.values, run ∈ runs := fun _ => mem_accepted
    revert hin
    generalize (acceptRuns runs).accepted.values = accepted at hpairs
    intro hin
    clear hos hget
    induction hpairs with
    | nil => rfl
    | @cons run o accepted os ho _ ih =>
        rw [List.flatten_cons, List.filter_append, List.filter_append, List.map_append,
          List.flatMap_cons, ih (fun r hr => hin r (List.mem_cons_of_mem _ hr)),
          flaky_occurrencesOf ho]
        congr 2
        refine List.filter_congr (fun x hx => ?_)
        rw [Bool.eq_iff_iff, Bool.and_eq_true, Bool.and_eq_true, decide_eq_true_eq,
          hexact run (hin run List.mem_cons_self) x hx]
  have hperm : (((((history.get? (historyKey projectId runnerName historicalId)).getD []).filter
      (fun o => o.flaky)).map (fun o => (o.runId, o.executionId)))).Perm
      ((ReadModel.mk (acceptRuns runs).accepted history
        (freezeBlobs (acceptRuns runs).blobs)).flakyExecutions projectId runnerName historicalId) := by
    refine (((hget _).filter _).map _).trans ?_
    rw [hlist]
    exact (hruns.flatMap_right _).symm
  have hlen := hperm.length_eq
  rw [List.length_map] at hlen
  refine ⟨hperm, hlen, ?_⟩
  rw [decide_eq_true_eq, hlen, gt_iff_lt, List.length_pos_iff]

/-! ### Valid runs -/

/-- The run is the projection of a valid report with these accepted events, by session and
sequence. -/
def ProjectedFrom (run : ProjectedRun) (events : List Event) : Prop :=
  ∃ rt fs options calls projectId runDirectory,
    (reportOf rt fs options calls).valid = true ∧
    events = ordered (snapshotOf rt fs options calls).events ∧
    projectRun projectId runDirectory (snapshotOf rt fs options calls) = .ok run

theorem grouped_of_projected {run : ProjectedRun} {events : List Event}
    (h : ProjectedFrom run events) : ∃ l, Grouped l events run.executions := by
  obtain ⟨rt, fs, options, calls, projectId, runDirectory, hvalid, hevents, hrun⟩ := h
  have hne : (snapshotOf rt fs options calls).events ≠ [] := by
    intro hnil
    have hreport : (snapshotOf rt fs options calls).report.valid = true := hvalid
    simp [projectRun, hreport, hnil, ordered, projectEvents, State.start, sortBy] at hrun
  have hv := (valid_iff rt fs options calls).mp hvalid
  have hsnap := snapshot_events hv hne
  obtain ⟨runId, xs, hxs, hok⟩ :=
    projectRun_eq hv.lifecycle hvalid hsnap hne projectId runDirectory
  rw [hrun] at hok
  cases hok
  exact ⟨runLog rt options calls, hv.lifecycle, by rw [hevents, hsnap], hxs⟩

/-- The flags of valid runs follow the rule, no incomplete execution is flagged, and any model of
them counts the flaky executions, exactly when in no run an execution recovers around an attempt
that does not end. -/
theorem flakiness_exact_iff (sources : List (ProjectedRun × List Event))
    (hsources : ∀ s ∈ sources, ProjectedFrom s.1 s.2) :
    ((∀ s ∈ sources, ∀ x ∈ s.1.executions,
        (x.flaky = true ↔ x.FlakyByRule) ∧ (x.complete = false → x.flaky = false)) ∧
      ∀ b, assemble (sources.map Prod.fst) = .ok b → b.model.CountsFlaky) ↔
    ∀ s ∈ sources, ¬ RecoversUnfinished s.2 := by
  constructor
  · rintro ⟨hflags, -⟩ s hs
    obtain ⟨l, hl⟩ := grouped_of_projected (hsources s hs)
    exact hl.flags_iff.mp (fun x hx => (hflags s hs x hx).1)
  · intro hnone
    have hexact : ∀ s ∈ sources, ∀ x ∈ s.1.executions, (x.flaky = true ↔ x.FlakyByRule) := by
      intro s hs
      obtain ⟨l, hl⟩ := grouped_of_projected (hsources s hs)
      exact hl.flags_iff.mpr (hnone s hs)
    refine ⟨fun s hs x hx => ⟨hexact s hs x hx, fun hopen => ?_⟩, fun b hb => ?_⟩
    · obtain ⟨l, hl⟩ := grouped_of_projected (hsources s hs)
      rw [Bool.eq_false_iff]
      intro hflaky
      have hall := (hl.complete_iff hx).mpr ((hexact s hs x hx).mp hflaky).2.1
      rw [hopen] at hall
      cases hall
    · refine countsFlaky hb (fun run hrun => ?_)
      obtain ⟨s, hs, rfl⟩ := List.mem_map.mp hrun
      exact hexact s hs

namespace Sample

/-- An execution that fails, is cut off and passes, in a session that is still open. -/
def cutOff : List FeedCall :=
  [file "1" (sessionFrom "s" 1
    [sessionStarted, attemptStarted "t1" "t" 1, attemptFinished "t1" .failed,
      attemptStarted "t2" "t" 2, attemptStarted "t3" "t" 3, attemptFinished "t3" .passed])]

/-- The run that a report projects to, an empty one when it projects to none. -/
def projectedRun (calls : List FeedCall) : ProjectedRun :=
  ((projectRun (txt "p") (txt "d") (snapshotOf runtime noFiles options calls)).toOption).getD
    (runAt [] [] [])

/-- The projected run of a report and its events in order. -/
def source (calls : List FeedCall) : ProjectedRun × List Event :=
  (projectedRun calls, ordered (snapshotOf runtime noFiles options calls).events)

theorem projectedFrom_source {calls : List FeedCall}
    (hvalid : (reportOf runtime noFiles options calls).valid = true)
    (hok : (projectRun (txt "p") (txt "d") (snapshotOf runtime noFiles options calls)).isOk = true) :
    ProjectedFrom (source calls).1 (source calls).2 := by
  refine ⟨runtime, noFiles, options, calls, txt "p", txt "d", hvalid, rfl, ?_⟩
  unfold source projectedRun
  revert hok
  cases projectRun (txt "p") (txt "d") (snapshotOf runtime noFiles options calls) with
  | error e => exact nofun
  | ok run => exact fun _ => rfl

end Sample

/-- A plain recovery, each attempt in a session of its own. -/
theorem flakiness_exact_forked :
    (∀ s ∈ [Sample.source Sample.forked], ∀ x ∈ s.1.executions,
        (x.flaky = true ↔ x.FlakyByRule) ∧ (x.complete = false → x.flaky = false)) ∧
      ∀ b, assemble ([Sample.source Sample.forked].map Prod.fst) = .ok b →
        b.model.CountsFlaky := by
  obtain ⟨hvalid, hok, hnone⟩ :
      (reportOf Sample.runtime Sample.noFiles Sample.options Sample.forked).valid = true ∧
        (projectRun (txt "p") (txt "d") (snapshotOf Sample.runtime Sample.noFiles Sample.options
          Sample.forked)).isOk = true ∧
        ¬ RecoversUnfinished (Sample.source Sample.forked).2 := by
    decide +kernel
  exact (flakiness_exact_iff [Sample.source Sample.forked] (List.forall_mem_singleton.mpr
    (Sample.projectedFrom_source hvalid hok))).mpr (List.forall_mem_singleton.mpr hnone)

/-- The cut-off execution is flagged although one of its attempts never ended. -/
theorem flakiness_exact_cutOff :
    ¬ ∀ run events, ProjectedFrom run events → ∀ x ∈ run.executions,
      (x.flaky = true ↔ x.FlakyByRule) ∧ (x.complete = false → x.flaky = false) := by
  intro h
  obtain ⟨hvalid, hok, hflags⟩ :
      (reportOf Sample.runtime Sample.noFiles Sample.options Sample.cutOff).valid = true ∧
        (projectRun (txt "p") (txt "d") (snapshotOf Sample.runtime Sample.noFiles Sample.options
          Sample.cutOff)).isOk = true ∧
        ¬ ∀ x ∈ (Sample.source Sample.cutOff).1.executions,
          (x.flaky = true ↔ x.FlakyByRule) ∧ (x.complete = false → x.flaky = false) := by
    decide +kernel
  exact hflags (h _ _ (Sample.projectedFrom_source hvalid hok))

end QeReport

import QeReport.Adapters.ScopePath
import QeReport.Sdk.Conformance
import QeReport.Sdk.Rules
import QeReport.Validator.Ledger

/-! # The stream of the Playwright reporter

The runner may leave attempts and steps open, repeat the start of an open attempt, and end or name
what is not open.  What the reporter keeps is a ledger of its stream all the same (`Tracks`), and
`onEnd` closes what is in it, so that the validator takes the written session and finds it
complete (`stream_closed`). -/

namespace QeReport.Playwright

open Sdk (Request YieldsAll yieldsAll_append yieldsAll_emit yieldsAll_emits)
open Role (Ledger)

/-! ### Callbacks -/

namespace Callback

/-- The attempt that a callback begins. -/
def begins : Callback → Option Text
  | .testBegin test result => some (attemptId test result)
  | _ => none

/-- The attempt that a callback ends. -/
def ends : Callback → Option Text
  | .testEnd test result => some (attemptId test result)
  | _ => none

/-- The step object that a callback begins, with its attempt. -/
def beginsStep : Callback → Option (Text × ℕ)
  | .stepBegin test result step => some (attemptId test result, step.key)
  | _ => none

end Callback

/-- What the runner keeps to: an attempt that ended does not begin again, a step object begins
once in an attempt, and the id of a test tells its place. -/
structure WellFormed (platform : Platform) (rootDir : Text) (cs : List Callback) : Prop where
  attempts : ∀ id b e b', [b, e, b'].Sublist cs → b.begins = some id → e.ends = some id →
    b'.begins ≠ some id
  steps : (cs.filterMap Callback.beginsStep).Nodup
  places : ∀ test result test' result', .testBegin test result ∈ cs →
    .testBegin test' result' ∈ cs → test.id = test'.id →
    hierarchy platform test rootDir = hierarchy platform test' rootDir

theorem WellFormed.sublist {platform : Platform} {rootDir : Text} {cs cs' : List Callback}
    (h : WellFormed platform rootDir cs) (hs : cs'.Sublist cs) : WellFormed platform rootDir cs' where
  attempts id b e b' hbe := h.attempts id b e b' (hbe.trans hs)
  steps := h.steps.sublist (hs.filterMap _)
  places _ _ _ _ ht ht' := h.places _ _ _ _ (hs.subset ht) (hs.subset ht')

/-- No attempt begins again when each begins once. -/
theorem not_begins_again {cs : List Callback} (h : (cs.filterMap Callback.begins).Nodup) {id : Text}
    {b e b' : Callback} (hsub : [b, e, b'].Sublist cs) (hb : b.begins = some id) :
    b'.begins ≠ some id := by
  intro hb'
  have hpair : [b, b'].Sublist [b, e, b'] := by simp
  have hids := h.sublist ((hpair.trans hsub).filterMap Callback.begins)
  rw [List.filterMap_cons_some hb, List.filterMap_cons_some hb'] at hids
  exact absurd hids (by simp)

theorem attemptId_inj {test test' : TestCase} {result result' : TestResult}
    (h : attemptId test result = attemptId test' result') :
    test.id = test'.id ∧ result.retry = result'.retry := by
  obtain ⟨hid, hretry⟩ := numbered_inj h
  exact ⟨hid, Nat.succ_injective hretry⟩

theorem stepId_inj {attempt : Text} {m n : ℕ} (h : stepId attempt m = stepId attempt n) : m = n :=
  natText_injective (List.append_cancel_left h)

/-! ### The ledger of the reporter -/

/-- The ids of the open steps. -/
def OpenAttempt.stepIds (a : OpenAttempt) : List Text := a.steps.values.map OpenStep.id

namespace Reporter

/-- The open attempts. -/
def running (r : Reporter) : Set Text := {id | r.attempts.has id = true}

/-- The open steps of the open attempts. -/
def stepping (r : Reporter) : Set (Text × Text) :=
  {x | ∃ a, r.attempts.get? x.1 = some a ∧ x.2 ∈ a.stepIds}

variable {r : Reporter}

theorem mem_running {id : Text} : id ∈ r.running ↔ ∃ a, r.attempts.get? id = some a := JsMap.has_iff

theorem stepping_iff {id : Text} {a : OpenAttempt} (h : r.attempts.get? id = some a) (s : Text) :
    (id, s) ∈ r.stepping ↔ s ∈ a.stepIds := by
  constructor
  · rintro ⟨a', ha', hs⟩
    rwa [Option.some.inj (h.symm.trans ha')]
  · exact fun hs => ⟨a, h, hs⟩

/-- An attempt is put under its id. -/
theorem running_set (id : Text) (a : OpenAttempt) (fs : List Failure) (ts : List Text) :
    (⟨r.attempts.set id a, fs, ts⟩ : Reporter).running = insert id r.running := by
  ext id'
  rw [Set.mem_insert_iff, mem_running, mem_running, JsMap.get?_set]
  by_cases h : id' = id
  · simp [h]
  · simp [h]

theorem running_set_of_mem {id : Text} (h : id ∈ r.running) (a : OpenAttempt) (fs : List Failure)
    (ts : List Text) : (⟨r.attempts.set id a, fs, ts⟩ : Reporter).running = r.running := by
  rw [running_set, Set.insert_eq_of_mem h]

theorem mem_stepping_set (id : Text) (a : OpenAttempt) (fs : List Failure) (ts : List Text)
    (x : Text × Text) : x ∈ (⟨r.attempts.set id a, fs, ts⟩ : Reporter).stepping ↔
      if x.1 = id then x.2 ∈ a.stepIds else x ∈ r.stepping := by
  change (∃ a', (r.attempts.set id a).get? x.1 = some a' ∧ x.2 ∈ a'.stepIds) ↔ _
  rw [JsMap.get?_set]
  split_ifs with h
  · simp
  · rfl

theorem stepping_set_of_none {id : Text} {a : OpenAttempt} (h : r.attempts.get? id = none)
    (ha : a.stepIds = []) (fs : List Failure) (ts : List Text) :
    (⟨r.attempts.set id a, fs, ts⟩ : Reporter).stepping = r.stepping := by
  ext x
  rw [mem_stepping_set]
  split_ifs with hx
  · constructor
    · exact fun hs => absurd hs (by simp [ha])
    · rintro ⟨a', ha', -⟩
      rw [hx, h] at ha'
      cases ha'
  · exact Iff.rfl

theorem stepping_set_start {id s : Text} {a a' : OpenAttempt} (h : r.attempts.get? id = some a)
    (ha : a'.stepIds = a.stepIds ++ [s]) (fs : List Failure) (ts : List Text) :
    (⟨r.attempts.set id a', fs, ts⟩ : Reporter).stepping = insert (id, s) r.stepping := by
  ext ⟨id', t⟩
  rw [mem_stepping_set, Set.mem_insert_iff, Prod.mk.injEq]
  split_ifs with hx
  · obtain rfl : id' = id := hx
    rw [stepping_iff h, ha, List.mem_append, List.mem_singleton]
    tauto
  · tauto

theorem stepping_set_end {id s : Text} {a a' : OpenAttempt} (h : r.attempts.get? id = some a)
    (ha : ∀ t, t ∈ a'.stepIds ↔ t ∈ a.stepIds ∧ t ≠ s) (fs : List Failure) (ts : List Text) :
    (⟨r.attempts.set id a', fs, ts⟩ : Reporter).stepping = r.stepping \ {(id, s)} := by
  ext ⟨id', t⟩
  rw [mem_stepping_set, Set.mem_sdiff, Set.mem_singleton_iff, Prod.mk.injEq]
  split_ifs with hx
  · obtain rfl : id' = id := hx
    rw [stepping_iff h, ha]
    tauto
  · tauto

theorem running_erase (id : Text) (fs : List Failure) (ts : List Text) :
    (⟨r.attempts.erase id, fs, ts⟩ : Reporter).running = r.running \ {id} := by
  ext id'
  rw [Set.mem_sdiff, Set.mem_singleton_iff, mem_running, mem_running, JsMap.get?_erase]
  by_cases h : id' = id
  · simp [h]
  · simp [h]

theorem stepping_erase (id : Text) (fs : List Failure) (ts : List Text) :
    (⟨r.attempts.erase id, fs, ts⟩ : Reporter).stepping = {x ∈ r.stepping | x.1 ≠ id} := by
  ext x
  change (∃ a', (r.attempts.erase id).get? x.1 = some a' ∧ x.2 ∈ a'.stepIds) ↔ _
  rw [JsMap.get?_erase]
  split_ifs with h
  · simp [h]
  · simp [h, stepping]

end Reporter

/-- What holds of an open attempt, after the callbacks `seen` and the roles `rs`. -/
structure OpenAttempt.Kept (seen : List Callback) (rs : List Role) (id : Text) (a : OpenAttempt) :
    Prop where
  named : a.id = id
  distinct : a.stepIds.Nodup
  keys : ∀ k, a.steps.has k = true → (id, k) ∈ seen.filterMap Callback.beginsStep
  numbered : ∀ s, (id, s) ∈ Role.steps rs → ∃ n ≤ a.stepCount, s = stepId id n

/-- The attempts of a stream come from callbacks. -/
structure Origins (platform : Platform) (rootDir : Text) (seen : List Callback) (rs : List Role) :
    Prop where
  begun : ∀ id x n h s, .attemptStarted id x n h s ∈ rs → ∃ test result,
    .testBegin test result ∈ seen ∧ id = attemptId test result ∧ x = test.id ∧
      n = result.retry + 1 ∧ h = some (historicalId (hierarchy platform test rootDir)) ∧ s = .stable
  ended : ∀ id ∈ Role.finishedAttempts rs, ∃ b e, [b, e].Sublist seen ∧ b.begins = some id ∧
    e.ends = some id

/-- The reporter keeps a ledger of its stream. -/
structure Tracks (platform : Platform) (rootDir : Text) (seen : List Callback) (r : Reporter)
    (rs : List Role) : Prop where
  ledger : Ledger rs r.running r.stepping
  kept : ∀ id a, r.attempts.get? id = some a → a.Kept seen rs id
  origins : Origins platform rootDir seen rs

/-! ### What requests yield -/

section yields
variable {host : Sdk.Outside}

/-- Attachments are handed on for the attempt and step they were given, or not at all. -/
theorem yieldsAll_attach {id : Text} {step : Option Text} {as : List Attachment}
    {ps : List Payload} (h : YieldsAll host (as.flatMap (attach id step)) ps) :
    ∀ q ∈ ps.map Payload.role, q = .attachmentAdded id step := by
  induction as generalizing ps with
  | nil =>
      cases h with
      | nil => exact fun q hq => absurd hq List.not_mem_nil
  | cons a as ih =>
      obtain ⟨qs, qs', rfl, hqs, hqs'⟩ := yieldsAll_append h
      rw [List.map_append]
      intro q hq
      rcases List.mem_append.mp hq with hq | hq
      · obtain ⟨p, hp, rfl⟩ := List.mem_map.mp hq
        unfold attach at hqs
        dsimp only at hqs
        split at hqs
        · cases hqs with
          | cons hr hs =>
              cases hs
              cases hr with
              | attached _ =>
                  obtain rfl : p = _ := by simpa using hp
                  rfl
              | notAttached => cases hp
        · cases hqs with
          | cons hr hs =>
              cases hs
              cases hr with
              | attachedFile _ =>
                  obtain rfl : p = _ := by simpa using hp
                  rfl
              | notAttachedFile => cases hp
        · cases hqs
          cases hp
      · exact ih hqs' q hq

end yields

/-! ### One callback -/

section callback
variable {host : Sdk.Outside} {platform : Platform} {config : Config} {seen : List Callback}
  {r : Reporter} {rs : List Role} {ps : List Payload}

theorem OpenAttempt.Kept.later {id : Text} {a : OpenAttempt} (h : a.Kept seen rs id) (c : Callback)
    {qs : List Role} (hqs : ∀ q ∈ qs, ∀ s, q.startsStep ≠ some (id, s)) :
    a.Kept (seen ++ [c]) (rs ++ qs) id where
  named := h.named
  distinct := h.distinct
  keys k hk := by
    rw [List.filterMap_append, List.mem_append]
    exact .inl (h.keys k hk)
  numbered s hs := by
    rw [Role.steps, List.filterMap_append, List.mem_append] at hs
    rcases hs with hs | hs
    · exact h.numbered s hs
    · obtain ⟨q, hq, hstart⟩ := List.mem_filterMap.mp hs
      exact absurd hstart (hqs q hq s)

theorem Origins.later {rootDir : Text} (h : Origins platform rootDir seen rs) (c : Callback)
    {qs : List Role} (hqs : ∀ q ∈ qs, q.startsAttempt = none ∧ q.endsAttempt = none) :
    Origins platform rootDir (seen ++ [c]) (rs ++ qs) where
  begun id x n hid s hmem := by
    rcases List.mem_append.mp hmem with hmem | hmem
    · obtain ⟨test, result, hseen, hrest⟩ := h.begun id x n hid s hmem
      exact ⟨test, result, List.mem_append_left _ hseen, hrest⟩
    · exact absurd (hqs _ hmem).1 (by simp [Role.startsAttempt])
  ended id hmem := by
    rw [Role.finishedAttempts, List.filterMap_append, List.mem_append] at hmem
    rcases hmem with hmem | hmem
    · obtain ⟨b, e, hbe, hrest⟩ := h.ended id hmem
      exact ⟨b, e, hbe.trans (List.sublist_append_left _ _), hrest⟩
    · obtain ⟨q, hq, hend⟩ := List.mem_filterMap.mp hmem
      rw [(hqs q hq).2] at hend
      cases hend

/-- A callback that changes nothing. -/
theorem Tracks.ignored {rootDir : Text} (h : Tracks platform rootDir seen r rs) (c : Callback) :
    Tracks platform rootDir (seen ++ [c]) r rs where
  ledger := h.ledger
  kept id a ha := by
    have hnone : ∀ q ∈ ([] : List Role), ∀ s, q.startsStep ≠ some (id, s) := by simp
    have hkept := (h.kept id a ha).later c hnone
    rwa [List.append_nil] at hkept
  origins := by
    have hnone : ∀ q ∈ ([] : List Role), q.startsAttempt = none ∧ q.endsAttempt = none := by simp
    have horigins := h.origins.later c hnone
    rwa [List.append_nil] at horigins

theorem Tracks.testBegin {test : TestCase} {result : TestResult}
    (h : Tracks platform config.roots.rootDir seen r rs)
    (hwell : WellFormed platform config.roots.rootDir (seen ++ [.testBegin test result]))
    (hy : YieldsAll host (onTestBegin platform config r test result).1 ps) :
    Tracks platform config.roots.rootDir (seen ++ [.testBegin test result])
      (onTestBegin platform config r test result).2 (rs ++ ps.map Payload.role) := by
  unfold onTestBegin at hy ⊢
  dsimp only at hy ⊢
  split_ifs at hy ⊢ with hhas
  · cases hy
    rw [List.map_nil, List.append_nil]
    exact h.ignored _
  · obtain rfl := yieldsAll_emit hy
    have hnone : r.attempts.get? (attemptId test result) = none := by
      rw [Bool.not_eq_true, JsMap.has, Option.isSome_eq_false_iff, Option.isNone_iff_eq_none] at hhas
      exact hhas
    have hnew : attemptId test result ∉ Role.attempts rs := by
      intro hmem
      have hfinished : attemptId test result ∈ Role.finishedAttempts rs := by
        by_contra hopen
        exact hhas ((h.ledger.running_iff _).mpr ⟨hmem, hopen⟩)
      obtain ⟨b, e, hbe, hb, he⟩ := h.origins.ended _ hfinished
      exact hwell.attempts _ b e _ (hbe.append (List.Sublist.refl [_])) hb he rfl
    have hagrees : Role.Agrees rs test.id (result.retry + 1)
        (some (historicalId (hierarchy platform test config.roots.rootDir))) .stable := by
      intro id n hid s hmem
      obtain ⟨test', result', hseen, rfl, htest, rfl, rfl, rfl⟩ := h.origins.begun _ _ _ _ _ hmem
      have hplace := hwell.places test' result' test result (List.mem_append_left _ hseen)
        (by simp) htest.symm
      refine ⟨fun hretry => hnew ?_, by rw [hplace], rfl⟩
      have hsame : attemptId test result = attemptId test' result' := by
        rw [attemptId, attemptId, htest, hretry]
      rw [hsame]
      exact List.mem_filterMap.mpr ⟨_, hmem, rfl⟩
    refine ⟨?_, fun id a ha => ?_, ⟨fun id x n hid s hmem => ?_, fun id hmem => ?_⟩⟩
    · rw [Reporter.running_set, Reporter.stepping_set_of_none hnone rfl]
      exact h.ledger.startAttempt hnew hagrees
    · dsimp only at ha
      rw [JsMap.get?_set] at ha
      split_ifs at ha with hid
      · obtain rfl := Option.some.inj ha
        obtain rfl := hid
        refine ⟨rfl, List.nodup_nil, fun k hk => absurd hk (by simp [JsMap.has]), fun s hs => ?_⟩
        rcases Role.mem_steps_concat.mp hs with hs | hs
        · exact absurd (Role.attempts_of_step h.ledger.guarded hs) hnew
        · cases hs
      · refine (h.kept id a ha).later _ fun q hq s => ?_
        obtain rfl := List.mem_singleton.mp hq
        exact fun heq => by cases heq
    · rcases List.mem_append.mp hmem with hmem | hmem
      · obtain ⟨test', result', hseen, hrest⟩ := h.origins.begun id x n hid s hmem
        exact ⟨test', result', List.mem_append_left _ hseen, hrest⟩
      · obtain ⟨rfl, rfl, rfl, rfl, rfl⟩ := Role.attemptStarted.inj (List.mem_singleton.mp hmem)
        exact ⟨test, result, by simp, rfl, rfl, rfl, rfl, rfl⟩
    · rcases Role.mem_finishedAttempts_concat.mp hmem with hmem | hmem
      · obtain ⟨b, e, hbe, hrest⟩ := h.origins.ended id hmem
        exact ⟨b, e, hbe.trans (List.sublist_append_left _ _), hrest⟩
      · cases hmem

theorem Tracks.stepBegin {test : TestCase} {result : TestResult} {step : TestStep}
    (h : Tracks platform config.roots.rootDir seen r rs)
    (hwell : WellFormed platform config.roots.rootDir (seen ++ [.stepBegin test result step]))
    (hy : YieldsAll host (onStepBegin platform config r test result step).1 ps) :
    Tracks platform config.roots.rootDir (seen ++ [.stepBegin test result step])
      (onStepBegin platform config r test result step).2 (rs ++ ps.map Payload.role) := by
  unfold onStepBegin at hy ⊢
  cases ha : r.attempts.get? (attemptId test result) with
  | none =>
      rw [ha] at hy
      cases hy
      rw [List.map_nil, List.append_nil]
      exact h.ignored _
  | some a =>
      rw [ha] at hy
      dsimp only at hy ⊢
      obtain rfl := yieldsAll_emit hy
      have hkept := h.kept _ a ha
      have hid : a.id = attemptId test result := hkept.named
      have hnew : (attemptId test result, stepId a.id (a.stepCount + 1)) ∉ Role.steps rs := by
        intro hmem
        obtain ⟨n, hn, heq⟩ := hkept.numbered _ hmem
        rw [hid] at heq
        have := stepId_inj heq
        omega
      have hparent : ∀ t, (step.parent.bind a.steps.get?).map OpenStep.id = some t →
          (attemptId test result, t) ∈ r.stepping := by
        intro t ht
        obtain ⟨opened, hopened, rfl⟩ := Option.map_eq_some_iff.mp ht
        obtain ⟨k, -, hk⟩ := Option.bind_eq_some_iff.mp hopened
        refine (Reporter.stepping_iff ha _).mpr (List.mem_map_of_mem ?_)
        exact JsMap.mem_values.mpr ⟨k, hk⟩
      have hfresh : a.steps.get? step.key = none := by
        by_contra hopen
        have hsteps := hwell.steps
        rw [List.filterMap_append, List.nodup_append] at hsteps
        refine hsteps.2.2 _ (hkept.keys step.key ?_) _ (List.mem_singleton_self _) rfl
        exact Option.isSome_iff_ne_none.mpr hopen
      have hids : ∀ phase, OpenAttempt.stepIds { a with
          stepCount := a.stepCount + 1
          steps := a.steps.set step.key ⟨stepId a.id (a.stepCount + 1), phase⟩ } =
            a.stepIds ++ [stepId a.id (a.stepCount + 1)] := by
        intro phase
        rw [OpenAttempt.stepIds, JsMap.values_set_of_none _ hfresh, List.map_append]
        rfl
      have hledger := h.ledger.startStep (Reporter.mem_running.mpr ⟨a, ha⟩) hnew hparent
      refine ⟨?_, fun id a' ha' => ?_, h.origins.later _ fun q hq => ?_⟩
      · rw [Reporter.running_set_of_mem (Reporter.mem_running.mpr ⟨a, ha⟩),
          Reporter.stepping_set_start ha (hids _)]
        rw [← hid] at hledger ⊢
        exact hledger
      · rw [JsMap.get?_set] at ha'
        split_ifs at ha' with hsame
        · obtain rfl := Option.some.inj ha'
          obtain rfl := hsame
          refine ⟨hid, ?_, fun k hk => ?_, fun s hs => ?_⟩
          · rw [hids, List.nodup_append]
            refine ⟨hkept.distinct, List.nodup_singleton _, ?_⟩
            rintro s hs t ht rfl
            rw [List.mem_singleton.mp ht] at hs
            exact hnew ((h.ledger.stepping_iff _).mp ((Reporter.stepping_iff ha _).mpr hs)).1
          · rw [List.filterMap_append, List.mem_append]
            obtain ⟨opened, hopened⟩ := JsMap.has_iff.mp hk
            rw [JsMap.get?_set] at hopened
            split_ifs at hopened with hkey
            · rw [hkey]
              exact .inr (List.mem_singleton_self _)
            · exact .inl (hkept.keys k (JsMap.has_iff.mpr ⟨opened, hopened⟩))
          · rcases Role.mem_steps_concat.mp hs with hs | hs
            · obtain ⟨n, hn, rfl⟩ := hkept.numbered s hs
              exact ⟨n, Nat.le_succ_of_le hn, rfl⟩
            · obtain ⟨-, rfl⟩ := Prod.mk.inj (Option.some.inj hs)
              exact ⟨a.stepCount + 1, le_rfl, by rw [hid]⟩
        · refine (h.kept id a' ha').later _ fun q hq s => ?_
          obtain rfl := List.mem_singleton.mp hq
          intro heq
          exact hsame ((Prod.mk.inj (Option.some.inj heq)).1.symm.trans hid)
      · obtain rfl := List.mem_singleton.mp hq
        exact ⟨rfl, rfl⟩

theorem Tracks.stepEnd {test : TestCase} {result : TestResult} {step : TestStep}
    (h : Tracks platform config.roots.rootDir seen r rs)
    (hy : YieldsAll host (onStepEnd platform config r test result step).1 ps) :
    Tracks platform config.roots.rootDir (seen ++ [.stepEnd test result step])
      (onStepEnd platform config r test result step).2 (rs ++ ps.map Payload.role) := by
  unfold onStepEnd at hy ⊢
  cases ha : r.attempts.get? (attemptId test result) with
  | none =>
      rw [ha] at hy
      cases hy
      rw [List.map_nil, List.append_nil]
      exact h.ignored _
  | some a =>
      rw [ha] at hy
      dsimp only at hy ⊢
      cases ho : a.steps.get? step.key with
      | none =>
          rw [ho] at hy
          cases hy
          rw [List.map_nil, List.append_nil]
          exact h.ignored _
      | some opened =>
          rw [ho] at hy
          dsimp only at hy ⊢
          obtain ⟨qs, qs', rfl, hattached, hend⟩ := yieldsAll_append hy
          obtain rfl := yieldsAll_emit hend
          have hkept := h.kept _ a ha
          have hid : a.id = attemptId test result := hkept.named
          have hmem : opened.id ∈ a.stepIds :=
            List.mem_map_of_mem (JsMap.mem_values.mpr ⟨step.key, ho⟩)
          have hopen : (a.id, opened.id) ∈ r.stepping := by
            rw [hid]
            exact (Reporter.stepping_iff ha _).mpr hmem
          have hroles := yieldsAll_attach hattached
          have hledger := (h.ledger.attachAll (h.ledger.within _ hopen)
            (fun s hs => Option.some.inj hs ▸ hopen) hroles).finishStep hopen
          rw [List.map_append, ← List.append_assoc]
          have hquiet : ∀ q ∈ qs.map Payload.role ++ [.stepFinished a.id opened.id],
              (q.startsAttempt = none ∧ q.endsAttempt = none) ∧ q.startsStep = none := by
            intro q hq
            rcases List.mem_append.mp hq with hq | hq
            · rw [hroles q hq]
              exact ⟨⟨rfl, rfl⟩, rfl⟩
            · rw [List.mem_singleton.mp hq]
              exact ⟨⟨rfl, rfl⟩, rfl⟩
          refine ⟨?_, fun id a' ha' => ?_, ?_⟩
          · rw [Reporter.running_set_of_mem (Reporter.mem_running.mpr ⟨a, ha⟩),
              Reporter.stepping_set_end (s := opened.id) ha]
            · rw [← hid]
              exact hledger
            · exact fun t => JsMap.mem_map_values_erase hkept.distinct ho t
          · rw [JsMap.get?_set] at ha'
            rw [List.append_assoc]
            split_ifs at ha' with hsame
            · obtain rfl := Option.some.inj ha'
              obtain rfl := hsame
              have hlater := hkept.later (.stepEnd test result step) fun q hq s =>
                by rw [(hquiet q hq).2]; simp
              refine ⟨hid, ?_, fun k hk => ?_, hlater.numbered⟩
              · exact hkept.distinct.sublist ((JsMap.values_erase_sublist _ _).map _)
              · obtain ⟨o, hko⟩ := JsMap.has_iff.mp hk
                rw [JsMap.get?_erase] at hko
                split_ifs at hko
                exact hlater.keys k (JsMap.has_iff.mpr ⟨o, hko⟩)
            · exact (h.kept id a' ha').later _ fun q hq s => by rw [(hquiet q hq).2]; simp
          · rw [List.append_assoc]
            exact h.origins.later _ fun q hq => (hquiet q hq).1

/-- The steps that an attempt leaves open are closed. -/
theorem closeOpenSteps_eq (a : OpenAttempt) :
    ∃ l : List Payload, closeOpenSteps a = l.map (fun p => .call (.emit p)) ∧
      l.map Payload.role = a.stepIds.map (Role.stepFinished a.id) :=
  ⟨a.steps.values.map (fun opened => .stepFinished
      ⟨opened.id, a.id, .inconclusive, some (txt "unfinished"), none, none⟩),
    by rw [closeOpenSteps, List.map_map]; rfl,
    by rw [OpenAttempt.stepIds, List.map_map, List.map_map]; rfl⟩

theorem Tracks.testEnd {test : TestCase} {result : TestResult}
    (h : Tracks platform config.roots.rootDir seen r rs)
    (hy : YieldsAll host (onTestEnd platform config r test result).1 ps) :
    Tracks platform config.roots.rootDir (seen ++ [.testEnd test result])
      (onTestEnd platform config r test result).2 (rs ++ ps.map Payload.role) := by
  unfold onTestEnd at hy ⊢
  cases ha : r.attempts.get? (attemptId test result) with
  | none =>
      rw [ha] at hy
      cases hy
      rw [List.map_nil, List.append_nil]
      exact h.ignored _
  | some a =>
      rw [ha] at hy
      dsimp only at hy ⊢
      obtain ⟨qs, qs', rfl, hbefore, hend⟩ := yieldsAll_append hy
      obtain ⟨ls, as, rfl, hclosed, hattached⟩ := yieldsAll_append hbefore
      obtain rfl := yieldsAll_emit hend
      obtain ⟨l, hl, hlroles⟩ := closeOpenSteps_eq a
      rw [hl] at hclosed
      obtain rfl := yieldsAll_emits hclosed
      have hkept := h.kept _ a ha
      have hid : a.id = attemptId test result := hkept.named
      have hrunning : a.id ∈ r.running := by
        rw [hid]
        exact Reporter.mem_running.mpr ⟨a, ha⟩
      have hsteps : ∀ s, s ∈ a.stepIds ↔ (a.id, s) ∈ r.stepping := by
        intro s
        rw [hid]
        exact (Reporter.stepping_iff ha s).symm
      have hroles := yieldsAll_attach hattached
      have hledger := ((h.ledger.closeSteps hkept.distinct hsteps).attachAll hrunning
        (fun s hs => by cases hs) hroles).finishAttempt hrunning fun s hs => hs.2 rfl
      have heq : (ls ++ as ++ [Payload.attemptFinished
          { attemptId := a.id
            status := (status result.status).getD .inconclusive
            rawStatus := some result.status
            expectedStatus := expectedStatus test.expectedStatus
            durationMs := some (durationMs result.duration)
            failures := if attemptFailures platform config a result = [] then none
              else some (attemptFailures platform config a result) }]).map Payload.role =
          a.stepIds.map (Role.stepFinished a.id) ++ as.map Payload.role ++
            [.attemptFinished a.id] := by
        rw [List.map_append, List.map_append, hlroles]
        rfl
      rw [heq]
      have hquiet : ∀ q ∈ a.stepIds.map (Role.stepFinished a.id) ++ as.map Payload.role ++
          [.attemptFinished a.id], q.startsAttempt = none ∧ q.startsStep = none ∧
            ∀ b, q.endsAttempt = some b → b = a.id := by
        intro q hq
        rw [List.mem_append, List.mem_append, List.mem_map, List.mem_singleton] at hq
        rcases hq with (⟨s, -, rfl⟩ | hq) | rfl
        · exact ⟨rfl, rfl, fun b hb => by cases hb⟩
        · rw [hroles q hq]
          exact ⟨rfl, rfl, fun b hb => by cases hb⟩
        · exact ⟨rfl, rfl, fun b hb => (Option.some.inj hb).symm⟩
      refine ⟨?_, fun id a' ha' => ?_, ⟨fun id x n hd s hmem => ?_, fun id hmem => ?_⟩⟩
      · rw [Reporter.running_erase, Reporter.stepping_erase, ← hid]
        simpa only [List.append_assoc] using hledger
      · rw [JsMap.get?_erase] at ha'
        split_ifs at ha'
        exact (h.kept id a' ha').later _ fun q hq s => by rw [(hquiet q hq).2.1]; simp
      · rcases List.mem_append.mp hmem with hmem | hmem
        · obtain ⟨test', result', hseen, hrest⟩ := h.origins.begun id x n hd s hmem
          exact ⟨test', result', List.mem_append_left _ hseen, hrest⟩
        · exact absurd (hquiet _ hmem).1 (by simp [Role.startsAttempt])
      · rw [Role.finishedAttempts, List.filterMap_append, List.mem_append] at hmem
        rcases hmem with hmem | hmem
        · obtain ⟨b, e, hbe, hrest⟩ := h.origins.ended id hmem
          exact ⟨b, e, hbe.trans (List.sublist_append_left _ _), hrest⟩
        · obtain ⟨q, hq, hqe⟩ := List.mem_filterMap.mp hmem
          obtain rfl := (hquiet q hq).2.2 id hqe
          obtain ⟨q', hstarted, hstart⟩ :=
            List.mem_filterMap.mp ((h.ledger.running_iff _).mp hrunning).1
          cases q' with
          | attemptStarted b x n hd s =>
              obtain rfl := Option.some.inj hstart
              obtain ⟨test', result', hseen, hb, -⟩ := h.origins.begun _ _ _ _ _ hstarted
              refine ⟨.testBegin test' result', .testEnd test result, ?_, ?_, ?_⟩
              · exact (List.singleton_sublist.mpr hseen).append (List.Sublist.refl [_])
              · rw [Callback.begins, ← hb]
              · rw [Callback.ends, hid]
          | _ => cases hstart

theorem Tracks.error {e : TestError} (h : Tracks platform config.roots.rootDir seen r rs)
    (hy : YieldsAll host (onError platform config r e).1 ps) :
    Tracks platform config.roots.rootDir (seen ++ [.error e])
      (onError platform config r e).2 (rs ++ ps.map Payload.role) := by
  unfold onError at hy ⊢
  dsimp only at hy ⊢
  have hignored := h.ignored (.error e)
  cases hfile : fileScopeOf platform config e with
  | some file =>
      rw [hfile] at hy
      obtain rfl := yieldsAll_emit hy
      refine ⟨h.ledger.failScope, fun id a ha => ?_, h.origins.later _ fun q hq => ?_⟩
      · refine (h.kept id a ha).later _ fun q hq s => ?_
        obtain rfl := List.mem_singleton.mp hq
        exact fun heq => by cases heq
      · obtain rfl := List.mem_singleton.mp hq
        exact ⟨rfl, rfl⟩
  | none =>
      rw [hfile] at hy
      dsimp only at hy ⊢
      cases hphase : invocationPhase platform config e with
      | some phase =>
          rw [hphase] at hy
          cases hy
          rw [List.map_nil, List.append_nil]
          dsimp only
          split_ifs
          · exact ⟨hignored.ledger, hignored.kept, hignored.origins⟩
          · exact hignored
      | none =>
          rw [hphase] at hy
          cases hy
          rw [List.map_nil, List.append_nil]
          exact hignored

/-- What one callback does to the ledger. -/
theorem Tracks.handle {c : Callback} (h : Tracks platform config.roots.rootDir seen r rs)
    (hwell : WellFormed platform config.roots.rootDir (seen ++ [c]))
    (hy : YieldsAll host (handle platform config r c).1 ps) :
    Tracks platform config.roots.rootDir (seen ++ [c]) (handle platform config r c).2
      (rs ++ ps.map Payload.role) := by
  cases c with
  | testBegin test result => exact h.testBegin hwell hy
  | stepBegin test result step => exact h.stepBegin hwell hy
  | stepEnd test result step => exact h.stepEnd hy
  | testEnd test result => exact h.testEnd hy
  | error e => exact h.error hy

end callback

/-! ### All callbacks -/

section run
variable {host : Sdk.Outside} {platform : Platform} {config : Config} {seen : List Callback}
  {r : Reporter} {rs : List Role} {ps : List Payload}

theorem Tracks.run {cs : List Callback} (h : Tracks platform config.roots.rootDir seen r rs)
    (hwell : WellFormed platform config.roots.rootDir (seen ++ cs))
    (hy : YieldsAll host (requestsOf platform config r cs) ps) :
    Tracks platform config.roots.rootDir (seen ++ cs) (stateAfter platform config r cs)
      (rs ++ ps.map Payload.role) := by
  induction cs generalizing seen r rs ps with
  | nil =>
      cases hy
      rwa [List.append_nil, List.map_nil, List.append_nil]
  | cons c cs ih =>
      obtain ⟨qs, qs', rfl, hc, hcs⟩ := yieldsAll_append hy
      have hsplit : seen ++ c :: cs = seen ++ [c] ++ cs := by simp
      rw [hsplit] at hwell ⊢
      have hone := h.handle (hwell.sublist (List.sublist_append_left _ _)) hc
      rw [List.map_append, ← List.append_assoc]
      exact ih hone hwell hcs

/-- `onEnd` closes the attempts that are still open. -/
theorem Tracks.closed {rootDir : Text} (h : Tracks platform rootDir seen r rs)
    (hy : YieldsAll host (closeOpenAttempts r) ps) : ∃ S, Ledger (rs ++ ps.map Payload.role) ∅ S := by
  have hkept : ∀ a ∈ r.attempts.values, r.attempts.get? a.id = some a ∧ a.stepIds.Nodup := by
    intro a ha
    obtain ⟨id, hid⟩ := JsMap.mem_values.mp ha
    have hkept := h.kept id a hid
    rw [hkept.named]
    exact ⟨hid, hkept.distinct⟩
  obtain ⟨l, hl, hroles⟩ : ∃ l : List Payload,
      closeOpenAttempts r = l.map (fun p => .call (.emit p)) ∧ l.map Payload.role =
        r.attempts.values.flatMap (fun a =>
          a.stepIds.map (Role.stepFinished a.id) ++ [.attemptFinished a.id]) := by
    unfold closeOpenAttempts
    induction r.attempts.values with
    | nil => exact ⟨[], rfl, rfl⟩
    | cons a as ih =>
        obtain ⟨l, hl, hroles⟩ := ih
        obtain ⟨ls, hls, hlroles⟩ := closeOpenSteps_eq a
        refine ⟨ls ++ .attemptFinished ⟨a.id, .inconclusive, some (txt "unfinished"), none, none,
          none⟩ :: l, ?_, ?_⟩
        · rw [List.flatMap_cons, hl, hls]
          simp
        · rw [List.flatMap_cons, ← hroles, List.map_append, hlroles]
          simp [Payload.role]
  rw [hl] at hy
  obtain rfl := yieldsAll_emits hy
  have hnodup : (r.attempts.values.map OpenAttempt.id).Nodup := by
    have heq : r.attempts.values.map OpenAttempt.id = r.attempts.entries.map Prod.fst := by
      rw [JsMap.values, List.map_map]
      refine List.map_congr_left fun e he => ?_
      exact (h.kept e.1 e.2 (JsMap.mem_entries.mp he)).named
    rw [heq]
    exact r.attempts.nodup
  have hclosed := h.ledger.closeAll (l := r.attempts.values.map (fun a => (a.id, a.stepIds)))
    (by rwa [List.map_map]) ?_ ?_ ?_
  · rw [List.flatMap_map] at hclosed
    have hnone : {id ∈ r.running | id ∉
        (r.attempts.values.map (fun a => (a.id, a.stepIds))).map Prod.fst} = ∅ := by
      refine Set.eq_empty_of_forall_notMem fun id hid => hid.2 ?_
      obtain ⟨a, ha⟩ := Reporter.mem_running.mp hid.1
      rw [List.map_map]
      refine List.mem_map.mpr ⟨a, JsMap.mem_values.mpr ⟨id, ha⟩, ?_⟩
      exact (h.kept id a ha).named
    rw [hnone] at hclosed
    rw [hroles]
    exact ⟨_, hclosed⟩
  · intro x hx
    obtain ⟨a, ha, rfl⟩ := List.mem_map.mp hx
    exact Reporter.mem_running.mpr ⟨a, (hkept a ha).1⟩
  · intro x hx
    obtain ⟨a, ha, rfl⟩ := List.mem_map.mp hx
    exact (hkept a ha).2
  · intro x hx s
    obtain ⟨a, ha, rfl⟩ := List.mem_map.mp hx
    exact (Reporter.stepping_iff (hkept a ha).1 s).symm

/-! ### The requests -/

theorem attach_ordinary (id : Text) (step : Option Text) (a : Attachment) :
    ∀ q ∈ attach id step a, q.isOrdinary = true := by
  intro q hq
  unfold attach at hq
  dsimp only at hq
  split at hq
  · rw [List.mem_singleton.mp hq]
    rfl
  · rw [List.mem_singleton.mp hq]
    rfl
  · cases hq

theorem closeOpenSteps_ordinary (a : OpenAttempt) :
    ∀ q ∈ closeOpenSteps a, q.isOrdinary = true := by
  intro q hq
  obtain ⟨opened, -, rfl⟩ := List.mem_map.mp hq
  rfl

theorem handle_ordinary (c : Callback) :
    ∀ q ∈ (handle platform config r c).1, q.isOrdinary = true := by
  intro q hq
  cases c with
  | testBegin test result =>
      unfold handle onTestBegin at hq
      dsimp only at hq
      split_ifs at hq
      · cases hq
      · rw [List.mem_singleton.mp hq]
        rfl
  | stepBegin test result step =>
      unfold handle onStepBegin at hq
      dsimp only at hq
      split at hq
      · cases hq
      · rw [List.mem_singleton.mp hq]
        rfl
  | stepEnd test result step =>
      unfold handle onStepEnd at hq
      dsimp only at hq
      split at hq
      · cases hq
      · split at hq
        · cases hq
        · rcases List.mem_append.mp hq with hq | hq
          · obtain ⟨a, -, hq⟩ := List.mem_flatMap.mp hq
            exact attach_ordinary _ _ a q hq
          · rw [List.mem_singleton.mp hq]
            rfl
  | testEnd test result =>
      unfold handle onTestEnd at hq
      dsimp only at hq
      split at hq
      · cases hq
      · rcases List.mem_append.mp hq with hq | hq
        · rcases List.mem_append.mp hq with hq | hq
          · exact closeOpenSteps_ordinary _ q hq
          · obtain ⟨a, -, hq⟩ := List.mem_flatMap.mp hq
            exact attach_ordinary _ _ a q hq
        · rw [List.mem_singleton.mp hq]
          rfl
  | error e =>
      unfold handle onError at hq
      dsimp only at hq
      split at hq
      · rw [List.mem_singleton.mp hq]
        rfl
      · split at hq
        · cases hq
        · cases hq

theorem requestsOf_ordinary (cs : List Callback) :
    ∀ q ∈ requestsOf platform config r cs, q.isOrdinary = true := by
  induction cs generalizing r with
  | nil => exact fun q hq => by cases hq
  | cons c cs ih =>
      intro q hq
      rcases List.mem_append.mp hq with hq | hq
      · exact handle_ordinary c q hq
      · exact ih q hq

theorem closeOpenAttempts_ordinary : ∀ q ∈ closeOpenAttempts r, q.isOrdinary = true := by
  intro q hq
  obtain ⟨a, -, hq⟩ := List.mem_flatMap.mp hq
  rcases List.mem_append.mp hq with hq | hq
  · exact closeOpenSteps_ordinary a q hq
  · rw [List.mem_singleton.mp hq]
    rfl

end run

/-! ### The session -/

section session
variable (host : Sdk.Outside) (platform : Platform) (process : Process) (fullConfig : FullConfig)
  (callbacks : List Callback) (raw : Text)

/-- The session writes all that the reporter hands it. -/
structure Written : Prop where
  starts : Sdk.Kept .new (Sdk.start host (startPayload process fullConfig))
  serves : Sdk.WritesAll host (Sdk.start host (startPayload process fullConfig)).2
    (requestsOf platform (beginConfig platform process fullConfig) .new callbacks ++
      closeOpenAttempts (stateAfter platform (beginConfig platform process fullConfig) .new
        callbacks))
  finishes : Sdk.Kept (sessionClosed host platform process fullConfig callbacks)
    (sessionFinish host platform process fullConfig callbacks raw)
  finishesRun : process.runIdGenerated = true →
    Sdk.Kept (sessionFinish host platform process fullConfig callbacks raw).2
      (Sdk.finishRun host (sessionFinish host platform process fullConfig callbacks raw).2)

instance : Decidable (Written host platform process fullConfig callbacks raw) :=
  decidable_of_iff (_ ∧ _ ∧ _ ∧ (_ → _))
    ⟨fun h => ⟨h.1, h.2.1, h.2.2.1, h.2.2.2⟩,
      fun h => ⟨h.starts, h.serves, h.finishes, h.finishesRun⟩⟩

variable {host platform process fullConfig callbacks raw}

/-- The reporter has nothing open before its first callback. -/
theorem tracks_new (rootDir : Text) :
    Tracks platform rootDir [] .new [.sessionStarted true] where
  ledger := by
    have hrunning : Reporter.new.running = ∅ := by
      ext id
      simp [Reporter.mem_running, Reporter.new]
    have hstepping : Reporter.new.stepping = ∅ := by
      ext x
      simp [Reporter.stepping, Reporter.new]
    rw [hrunning, hstepping]
    exact Role.ledger_begun
  kept id a ha := by simp [Reporter.new] at ha
  origins := ⟨by simp, by simp [Role.finishedAttempts, Role.endsAttempt]⟩

/-- The written payloads keep to the roles of a session, and leave nothing open. -/
theorem Written.streamed (h : Written host platform process fullConfig callbacks raw)
    (hwell : WellFormed platform fullConfig.rootDir callbacks) :
    ∃ ps, Sdk.Streamed host (sessionFinishRun host platform process fullConfig callbacks raw) ps ∧
      (sessionEnded host platform process fullConfig callbacks raw).sunk =
        (sessionFinishRun host platform process fullConfig callbacks raw).sunk ∧
      GuardedLog.Admissible Role.RoleGuard (ps.map Payload.role) ∧
      Role.Closed (ps.map Payload.role) ∧
      (.runFinished ∈ ps.map Payload.role ↔ process.runIdGenerated = true) := by
  obtain ⟨-, hactive, hstarted⟩ := Sdk.emit_kept Sdk.streamed_new rfl rfl h.starts
  obtain ⟨hserved, qs, hqs, hstreamed⟩ := Sdk.serve_yields hstarted hactive
    (fun q hq => (List.mem_append.mp hq).elim (requestsOf_ordinary callbacks q)
      (closeOpenAttempts_ordinary q)) h.serves
  obtain ⟨ps, ps', rfl, hcallbacks, hclosing⟩ := yieldsAll_append hqs
  have hnew : Tracks platform (beginConfig platform process fullConfig).roots.rootDir [] .new
      [.sessionStarted true] := tracks_new fullConfig.rootDir
  have htracks := hnew.run (by rwa [List.nil_append]) hcallbacks
  obtain ⟨S, hledger⟩ := htracks.closed hclosing
  obtain ⟨hfinish, hfinish', hclosed, hclosed'⟩ := hledger.ended
  obtain ⟨hanswer, hlifecycle, hfinished⟩ := Sdk.finish_kept hstreamed hserved h.finishes
  have hroles : ([] ++ [Payload.sessionStarted (startPayload process fullConfig)] ++
      (ps ++ ps')).map Payload.role =
        [.sessionStarted true] ++ ps.map Payload.role ++ ps'.map Payload.role := by
    rw [List.map_append, List.map_append, List.map_append, ← List.append_assoc]
    rfl
  have hrun : sessionFinishRun host platform process fullConfig callbacks raw =
      if process.runIdGenerated then
        (Sdk.finishRun host (sessionFinish host platform process fullConfig callbacks raw).2).2
      else (sessionFinish host platform process fullConfig callbacks raw).2 := by
    have htrue : (sessionFinish host platform process fullConfig callbacks raw).1 = .ok true :=
      hanswer
    unfold sessionFinishRun
    dsimp only
    rw [htrue]
    rfl
  cases hgenerated : process.runIdGenerated with
  | false =>
      rw [hgenerated, if_neg Bool.false_ne_true] at hrun
      rw [hrun]
      refine ⟨_, hfinished, ?_, ?_, ?_, ?_⟩
      · unfold sessionEnded
        rw [hrun]
        exact Sdk.close_sunk (fun hactive => by cases hlifecycle.symm.trans hactive)
      · rw [List.map_append, hroles]
        exact hfinish
      · rw [List.map_append, hroles]
        exact hclosed
      · rw [List.map_append, hroles]
        refine ⟨fun hmem => ?_, fun h => by cases h⟩
        rcases List.mem_append.mp hmem with hmem | hmem
        · exact absurd hmem hledger.isOpen.run
        · simp [Payload.role] at hmem
  | true =>
      rw [hgenerated, if_pos rfl] at hrun
      obtain ⟨hended, hdone⟩ := Sdk.finishRun_kept hfinished hlifecycle (h.finishesRun hgenerated)
      rw [hrun]
      refine ⟨_, hdone, ?_, ?_, ?_, ?_⟩
      · unfold sessionEnded
        rw [hrun]
        exact Sdk.close_sunk (fun hactive => by cases hended.symm.trans hactive)
      · rw [List.append_assoc, List.map_append, hroles]
        exact hfinish'
      · rw [List.append_assoc, List.map_append, hroles]
        exact hclosed'
      · simp [Payload.role]

end session

section read
variable {host : Sdk.Outside} {platform : Platform} {process : Process} {fullConfig : FullConfig}
  {callbacks : List Callback} {raw : Text} {rt : Runtime} {options : ValidateOptions}

/-- A written stream whose lines pass the checks of a line is taken without an error, and its
events are numbered by roles that keep to their guard and leave nothing open. -/
theorem Written.read (file : Text)
    (hwritten : Written host platform process fullConfig callbacks raw)
    (hwell : WellFormed platform fullConfig.rootDir callbacks)
    (hsize : host.size = Sdk.eventBytes) (hlimit : host.maxEventBytes ≤ eventLimit options)
    (hids : Function.Injective host.ids)
    (hparse : ∀ e ∈ (sessionEnded host platform process fullConfig callbacks raw).sunk,
      rt.parse (stringifyEvent e) = .ok (eventToObject e))
    (hvalidate : ∀ e ∈ (sessionEnded host platform process fullConfig callbacks raw).sunk,
      rt.validate e.knownType (eventToObject e) = none) :
    ErrorFree (feedAll rt options [⟨(sessionEnded host platform process fullConfig callbacks
        raw).sunk.map stringifyEvent, file, true⟩]).diagnostics ∧
      runLog rt options [⟨(sessionEnded host platform process fullConfig callbacks raw).sunk.map
        stringifyEvent, file, true⟩] =
          (sessionEnded host platform process fullConfig callbacks raw).sunk ∧
      ∃ rs, Numbered host.runId host.sessionId
          (sessionEnded host platform process fullConfig callbacks raw).sunk rs ∧
        GuardedLog.Admissible Role.RoleGuard rs ∧ Role.Closed rs ∧
        (.runFinished ∈ rs ↔ process.runIdGenerated = true) := by
  obtain ⟨ps, hstreamed, hsunk, hguarded, hclosed, hrun⟩ := hwritten.streamed hwell
  rw [hsunk] at hparse hvalidate ⊢
  have hnumbered : Numbered host.runId host.sessionId
      (sessionFinishRun host platform process fullConfig callbacks raw).sunk
      (ps.map Payload.role) := by
    rw [hstreamed.sunk]
    exact Sdk.numbered_stream ps
  obtain ⟨herrors, hlog⟩ := Sdk.stream_errorFree file hstreamed hsize hlimit hids hparse hvalidate
    hguarded
  exact ⟨herrors, hlog, _, hnumbered, hguarded, hclosed, hrun⟩

/-- Whatever attempts and steps the runner leaves open, repeats or ends without a start, the
session that the reporter has written is taken by the validator without an error when its lines
pass the checks of a line, it keeps to the lifecycle of a run, and everything that it starts it
finishes; the run is finished exactly when its id was made here. -/
theorem stream_closed (file : Text) (hwell : WellFormed platform fullConfig.rootDir callbacks)
    (hwritten : Written host platform process fullConfig callbacks raw)
    (hsize : host.size = Sdk.eventBytes) (hlimit : host.maxEventBytes ≤ eventLimit options)
    (hids : Function.Injective host.ids)
    (hparse : ∀ e ∈ (sessionEnded host platform process fullConfig callbacks raw).sunk,
      rt.parse (stringifyEvent e) = .ok (eventToObject e))
    (hvalidate : ∀ e ∈ (sessionEnded host platform process fullConfig callbacks raw).sunk,
      rt.validate e.knownType (eventToObject e) = none) :
    ErrorFree (feedAll rt options [⟨(sessionEnded host platform process fullConfig callbacks
        raw).sunk.map stringifyEvent, file, true⟩]).diagnostics ∧
      runLog rt options [⟨(sessionEnded host platform process fullConfig callbacks raw).sunk.map
        stringifyEvent, file, true⟩] =
          (sessionEnded host platform process fullConfig callbacks raw).sunk ∧
      LifecycleLaw (sessionEnded host platform process fullConfig callbacks raw).sunk ∧
      Complete (sessionEnded host platform process fullConfig callbacks raw).sunk ∧
      ((∃ e ∈ (sessionEnded host platform process fullConfig callbacks raw).sunk,
        e.isRunFinished = true) ↔ process.runIdGenerated = true) := by
  obtain ⟨herrors, hlog, rs, hnumbered, hguarded, hclosed, hrun⟩ :=
    hwritten.read file hwell hsize hlimit hids hparse hvalidate
  refine ⟨herrors, hlog, hnumbered.law hguarded hclosed, hnumbered.complete hclosed, ?_⟩
  rw [← hrun, hnumbered.mem]
  refine exists_congr fun e => and_congr_right fun _ => ?_
  rw [AnyEvent.role?_eq_some, AnyEvent.isRunFinished_iff]
  constructor
  · exact fun he => ⟨_, he, rfl⟩
  · rintro ⟨p, hp, hrole⟩
    rw [hp, Payload.role_eq_runFinished hrole]

/-- No event of it is out of place, and each attempt and step that it starts it finishes once, the
steps and the attachments before their attempt. -/
theorem stream_settled (file : Text) (hwell : WellFormed platform fullConfig.rootDir callbacks)
    (hwritten : Written host platform process fullConfig callbacks raw)
    (hsize : host.size = Sdk.eventBytes) (hlimit : host.maxEventBytes ≤ eventLimit options)
    (hids : Function.Injective host.ids)
    (hparse : ∀ e ∈ (sessionEnded host platform process fullConfig callbacks raw).sunk,
      rt.parse (stringifyEvent e) = .ok (eventToObject e))
    (hvalidate : ∀ e ∈ (sessionEnded host platform process fullConfig callbacks raw).sunk,
      rt.validate e.knownType (eventToObject e) = none) :
    ErrorFree (feedAll rt options [⟨(sessionEnded host platform process fullConfig callbacks
        raw).sunk.map stringifyEvent, file, true⟩]).diagnostics ∧
      Settled (sessionEnded host platform process fullConfig callbacks raw).sunk := by
  obtain ⟨herrors, -, rs, hnumbered, hguarded, hclosed, -⟩ :=
    hwritten.read file hwell hsize hlimit hids hparse hvalidate
  exact ⟨herrors, hnumbered.settled hguarded hclosed⟩

end read

/-! ### A run -/

namespace Sample

def process : Process := ⟨txt "/repo", txt "v22.0.0", true⟩

def fullConfig : FullConfig := ⟨txt "/repo", none, none, none, txt "1.50.0", 1, none⟩

/-- A step with an attachment. -/
def attached : TestStep :=
  ⟨1, none, txt "click", txt "pw:api", none, 3, none, [⟨1, txt "log", txt "text/plain", some [104],
    none⟩]⟩

/-- A step of it that never ends. -/
def nested : TestStep := ⟨2, some 1, txt "wait", txt "pw:api", none, 0, none, []⟩

/-- A test that never ends. -/
def unfinished : TestCase := { test none with id := txt "id2" }

/-- An attempt that leaves a step open, and one that stays open itself. -/
def callbacks : List Callback :=
  [.testBegin (test none) result, .stepBegin (test none) result attached,
    .stepBegin (test none) result nested, .stepEnd (test none) result attached,
    .testEnd (test none) result, .testBegin unfinished result]

theorem wellFormed : WellFormed platform fullConfig.rootDir callbacks where
  attempts id b e b' hsub hb _ := not_begins_again (by decide) hsub hb
  steps := by decide
  places t r t' r' ht ht' hid := by
    simp only [callbacks, List.mem_cons, List.not_mem_nil, or_false, Callback.testBegin.injEq,
      reduceCtorEq, false_or] at ht ht'
    rcases ht with ⟨rfl, -⟩ | ⟨rfl, -⟩
    · rcases ht' with ⟨rfl, -⟩ | ⟨rfl, -⟩
      · rfl
      · exact absurd hid (by decide)
    · rcases ht' with ⟨rfl, -⟩ | ⟨rfl, -⟩
      · exact absurd hid (by decide)
      · rfl

/-- The session takes all of it, and the schema every event. -/
theorem written : Written Sdk.takingHost platform process fullConfig callbacks (txt "passed") ∧
    ∀ e ∈ (sessionEnded Sdk.takingHost platform process fullConfig callbacks (txt "passed")).sunk,
      Sdk.Sample.schemaRuntime.validate e.knownType (eventToObject e) = none := by
  decide +kernel

/-- A host with the default redactor. -/
def redactingHost : Sdk.Host :=
  { Sdk.plainHost maxEventBytes le_rfl (fun _ => true) with
    redactText := Sdk.Redactor.redactText }

/-- A test with a tag of the longest length, in which a short password stands. -/
def tagged : TestCase :=
  { test none with tags := [txt "@pwd=a" ++ List.replicate 122 (unit ',')] }

def taggedCallbacks : List Callback := [.testBegin tagged result, .testEnd tagged result]

end Sample

/-- A step and an attempt that the runner leaves open are closed. -/
theorem stream_closed_unfinished :
    ErrorFree (feedAll Sdk.Sample.schemaRuntime QeReport.Sample.options
      [⟨(sessionEnded Sdk.takingHost Sample.platform Sample.process Sample.fullConfig
        Sample.callbacks (txt "passed")).sunk.map stringifyEvent, txt "s", true⟩]).diagnostics ∧
      Complete (sessionEnded Sdk.takingHost Sample.platform Sample.process Sample.fullConfig
        Sample.callbacks (txt "passed")).sunk := by
  obtain ⟨hwritten, hvalid⟩ := Sample.written
  obtain ⟨herrors, -, -, hcomplete, -⟩ := @stream_closed _ _ _ _ _ _ Sdk.Sample.schemaRuntime
    QeReport.Sample.options (txt "s") Sample.wellFormed hwritten rfl (by decide)
    Sdk.takingHost.ids_injective (fun e _ => Sdk.Sample.parse_schemaRuntime e) hvalid
  exact ⟨herrors, hcomplete⟩

/-- They are closed once, the step before its attempt. -/
theorem stream_settled_unfinished :
    Settled (sessionEnded Sdk.takingHost Sample.platform Sample.process Sample.fullConfig
      Sample.callbacks (txt "passed")).sunk :=
  (@stream_settled _ _ _ _ _ _ Sdk.Sample.schemaRuntime QeReport.Sample.options (txt "s")
    Sample.wellFormed Sample.written.1 rfl (by decide) Sdk.takingHost.ids_injective
    (fun e _ => Sdk.Sample.parse_schemaRuntime e) Sample.written.2).2

/-- The tag is longer than the schema allows when it is redacted, so that the start of the attempt
is no event to the validator, and its end is out of place. -/
theorem stream_settled_lengthened :
    WellFormed Sample.platform Sample.fullConfig.rootDir Sample.taggedCallbacks ∧
      Written Sample.redactingHost Sample.platform Sample.process Sample.fullConfig
        Sample.taggedCallbacks (txt "passed") ∧
      ∃ d ∈ (feedAll Sdk.Sample.schemaRuntime QeReport.Sample.options
        [⟨(sessionEnded Sample.redactingHost Sample.platform Sample.process Sample.fullConfig
          Sample.taggedCallbacks (txt "passed")).sunk.map stringifyEvent, txt "s",
            true⟩]).diagnostics, d.code = .lifecycleInvalid := by
  refine ⟨⟨fun id b e b' hsub hb _ => not_begins_again (by decide) hsub hb, by decide, ?_⟩,
    by decide +kernel⟩
  intro t r t' r' ht ht' _
  simp only [Sample.taggedCallbacks, List.mem_cons, List.not_mem_nil, or_false,
    Callback.testBegin.injEq, reduceCtorEq] at ht ht'
  rw [ht.1, ht'.1]

end QeReport.Playwright

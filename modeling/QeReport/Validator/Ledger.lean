import QeReport.Validator.OneSession

/-! # What a producer has open

A producer that keeps its open attempts and open steps can tell from them alone what it may write
next.  `Ledger` says that such a record agrees with the roles written so far; there is one rule for
each role, and a producer that closes everything and then ends its session has written a stream
that the validator takes (`Ledger.ended`). -/

namespace QeReport.Role

open GuardedLog

/-- The attempts in `running` and the steps in `stepping` are those that the roles leave open. -/
structure Ledger (rs : List Role) (running : Set Text) (stepping : Set (Text × Text)) : Prop where
  isOpen : Open rs
  runner : .sessionStarted true ∈ rs
  guarded : Admissible RoleGuard rs
  running_iff : ∀ a, a ∈ running ↔ Running rs a
  stepping_iff : ∀ x, x ∈ stepping ↔ x ∈ steps rs ∧ x ∉ finishedSteps rs
  within : ∀ x ∈ stepping, x.1 ∈ running

/-! ### One role more -/

section concat
variable {rs : List Role} {r : Role}

theorem mem_attempts_concat {a : Text} :
    a ∈ attempts (rs ++ [r]) ↔ a ∈ attempts rs ∨ r.startsAttempt = some a := by
  rw [attempts, List.filterMap_append, List.mem_append]
  simp [attempts]

theorem mem_finishedAttempts_concat {a : Text} :
    a ∈ finishedAttempts (rs ++ [r]) ↔ a ∈ finishedAttempts rs ∨ r.endsAttempt = some a := by
  rw [finishedAttempts, List.filterMap_append, List.mem_append]
  simp [finishedAttempts]

theorem mem_steps_concat {x : Text × Text} :
    x ∈ steps (rs ++ [r]) ↔ x ∈ steps rs ∨ r.startsStep = some x := by
  rw [steps, List.filterMap_append, List.mem_append]
  simp [steps]

theorem mem_finishedSteps_concat {x : Text × Text} :
    x ∈ finishedSteps (rs ++ [r]) ↔ x ∈ finishedSteps rs ∨ r.endsStep = some x := by
  rw [finishedSteps, List.filterMap_append, List.mem_append]
  simp [finishedSteps]

theorem Open.concat (h : Open rs) (hs : r ≠ .sessionFinished) (hr : r ≠ .runFinished) :
    Open (rs ++ [r]) := by
  refine ⟨by simp, ?_, ?_⟩
  · rw [List.mem_append, List.mem_singleton, not_or]
    exact ⟨h.session, hs.symm⟩
  · rw [List.mem_append, List.mem_singleton, not_or]
    exact ⟨h.run, hr.symm⟩

end concat

/-- What is finished was started. -/
theorem attempts_of_finished {rs : List Role} (h : Admissible RoleGuard rs) {a : Text}
    (ha : a ∈ finishedAttempts rs) : a ∈ attempts rs := by
  obtain ⟨r, hr, hend⟩ := List.mem_filterMap.mp ha
  obtain ⟨p, s, rfl⟩ := List.append_of_mem hr
  have hguard := h p r s rfl
  cases r with
  | attemptFinished b =>
      obtain rfl := Option.some.inj hend
      rw [attempts, List.filterMap_append, List.mem_append]
      exact .inl hguard.2.1.1
  | _ => cases hend

theorem steps_of_finished {rs : List Role} (h : Admissible RoleGuard rs) {x : Text × Text}
    (hx : x ∈ finishedSteps rs) : x ∈ steps rs := by
  obtain ⟨r, hr, hend⟩ := List.mem_filterMap.mp hx
  obtain ⟨p, s, rfl⟩ := List.append_of_mem hr
  have hguard := h p r s rfl
  cases r with
  | stepFinished a t =>
      obtain rfl := Option.some.inj hend
      rw [steps, List.filterMap_append, List.mem_append]
      exact .inl hguard.2.1
  | _ => cases hend

/-- A step is started in an attempt that was started. -/
theorem attempts_of_step {rs : List Role} (h : Admissible RoleGuard rs) {x : Text × Text}
    (hx : x ∈ steps rs) : x.1 ∈ attempts rs := by
  obtain ⟨r, hr, hstart⟩ := List.mem_filterMap.mp hx
  obtain ⟨p, s, rfl⟩ := List.append_of_mem hr
  have hguard := h p r s rfl
  cases r with
  | stepStarted a t parent =>
      obtain rfl := Option.some.inj hstart
      rw [attempts, List.filterMap_append, List.mem_append]
      exact .inl hguard.2.1.1
  | _ => cases hstart

/-! ### The rules -/

/-- The session has begun. -/
theorem ledger_begun : Ledger [.sessionStarted true] ∅ ∅ where
  isOpen := ⟨by simp, by simp, by simp⟩
  runner := List.mem_singleton_self _
  guarded := by
    rw [← List.nil_append [Role.sessionStarted true], admissible_concat]
    exact ⟨admissible_nil, rfl⟩
  running_iff a := by simp [Running, attempts, startsAttempt]
  stepping_iff x := by simp [steps, startsStep]
  within x hx := hx.elim

section rules
variable {rs : List Role} {R : Set Text} {S : Set (Text × Text)} (h : Ledger rs R S)
include h

theorem Ledger.startAttempt {a x : Text} {n : ℕ} {id : Option Text} {st : HistoricalIdStability}
    (hnew : a ∉ attempts rs) (hagrees : Agrees rs x n id st) :
    Ledger (rs ++ [.attemptStarted a x n id st]) (insert a R) S where
  isOpen := h.isOpen.concat (by simp) (by simp)
  runner := List.mem_append_left _ h.runner
  guarded := admissible_concat.mpr ⟨h.guarded, h.isOpen, fun _ => h.runner, hnew, hagrees⟩
  running_iff b := by
    have hfresh : a ∉ finishedAttempts rs := fun hf => hnew (attempts_of_finished h.guarded hf)
    rw [Set.mem_insert_iff, h.running_iff, Running, Running, mem_attempts_concat,
      mem_finishedAttempts_concat]
    simp only [startsAttempt, endsAttempt, Option.some.injEq, reduceCtorEq, or_false]
    constructor
    · rintro (rfl | ⟨hb, hf⟩)
      · exact ⟨.inr rfl, hfresh⟩
      · exact ⟨.inl hb, hf⟩
    · rintro ⟨hb | rfl, hf⟩
      · exact .inr ⟨hb, hf⟩
      · exact .inl rfl
  stepping_iff y := by
    rw [h.stepping_iff, mem_steps_concat, mem_finishedSteps_concat]
    simp [startsStep, endsStep]
  within y hy := Set.mem_insert_of_mem _ (h.within y hy)

theorem Ledger.finishAttempt {a : Text} (ha : a ∈ R) (hclosed : ∀ s, (a, s) ∉ S) :
    Ledger (rs ++ [.attemptFinished a]) (R \ {a}) S where
  isOpen := h.isOpen.concat (by simp) (by simp)
  runner := List.mem_append_left _ h.runner
  guarded := by
    refine admissible_concat.mpr ⟨h.guarded, h.isOpen, (h.running_iff a).mp ha, fun s hs => ?_⟩
    by_contra hopen
    exact hclosed s ((h.stepping_iff _).mpr ⟨hs, hopen⟩)
  running_iff b := by
    rw [Set.mem_sdiff, Set.mem_singleton_iff, h.running_iff, Running, Running, mem_attempts_concat,
      mem_finishedAttempts_concat]
    simp only [startsAttempt, endsAttempt, Option.some.injEq, reduceCtorEq, or_false, not_or,
      and_assoc, eq_comm (a := a)]
  stepping_iff y := by
    rw [h.stepping_iff, mem_steps_concat, mem_finishedSteps_concat]
    simp [startsStep, endsStep]
  within y hy := by
    refine ⟨h.within y hy, fun heq => ?_⟩
    obtain ⟨b, s⟩ := y
    obtain rfl := Set.mem_singleton_iff.mp heq
    exact hclosed s hy

theorem Ledger.startStep {a s : Text} {parent : Option Text} (ha : a ∈ R) (hnew : (a, s) ∉ steps rs)
    (hparent : ∀ t, parent = some t → (a, t) ∈ S) :
    Ledger (rs ++ [.stepStarted a s parent]) R (insert (a, s) S) where
  isOpen := h.isOpen.concat (by simp) (by simp)
  runner := List.mem_append_left _ h.runner
  guarded := admissible_concat.mpr ⟨h.guarded, h.isOpen, (h.running_iff a).mp ha, hnew,
    fun t ht => ((h.stepping_iff _).mp (hparent t ht)).1⟩
  running_iff b := by
    rw [h.running_iff, Running, Running, mem_attempts_concat, mem_finishedAttempts_concat]
    simp [startsAttempt, endsAttempt]
  stepping_iff y := by
    have hfresh : (a, s) ∉ finishedSteps rs := fun hf => hnew (steps_of_finished h.guarded hf)
    rw [Set.mem_insert_iff, h.stepping_iff, mem_steps_concat, mem_finishedSteps_concat]
    simp only [startsStep, endsStep, Option.some.injEq, reduceCtorEq, or_false]
    constructor
    · rintro (rfl | ⟨hy, hf⟩)
      · exact ⟨.inr rfl, hfresh⟩
      · exact ⟨.inl hy, hf⟩
    · rintro ⟨hy | rfl, hf⟩
      · exact .inr ⟨hy, hf⟩
      · exact .inl rfl
  within y hy := by
    rcases Set.mem_insert_iff.mp hy with rfl | hy
    · exact ha
    · exact h.within y hy

theorem Ledger.finishStep {a s : Text} (hs : (a, s) ∈ S) :
    Ledger (rs ++ [.stepFinished a s]) R (S \ {(a, s)}) where
  isOpen := h.isOpen.concat (by simp) (by simp)
  runner := List.mem_append_left _ h.runner
  guarded := admissible_concat.mpr ⟨h.guarded, h.isOpen, (h.stepping_iff _).mp hs⟩
  running_iff b := by
    rw [h.running_iff, Running, Running, mem_attempts_concat, mem_finishedAttempts_concat]
    simp [startsAttempt, endsAttempt]
  stepping_iff y := by
    rw [Set.mem_sdiff, Set.mem_singleton_iff, h.stepping_iff, mem_steps_concat,
      mem_finishedSteps_concat]
    simp only [startsStep, endsStep, Option.some.injEq, reduceCtorEq, or_false, not_or, and_assoc,
      eq_comm (a := (a, s))]
  within y hy := h.within y hy.1

theorem Ledger.attach {a : Text} {step : Option Text} (ha : a ∈ R)
    (hstep : ∀ s, step = some s → (a, s) ∈ S) : Ledger (rs ++ [.attachmentAdded a step]) R S where
  isOpen := h.isOpen.concat (by simp) (by simp)
  runner := List.mem_append_left _ h.runner
  guarded := admissible_concat.mpr ⟨h.guarded, h.isOpen, (h.running_iff a).mp ha,
    fun s hs => ((h.stepping_iff _).mp (hstep s hs)).1⟩
  running_iff b := by
    rw [h.running_iff, Running, Running, mem_attempts_concat, mem_finishedAttempts_concat]
    simp [startsAttempt, endsAttempt]
  stepping_iff y := by
    rw [h.stepping_iff, mem_steps_concat, mem_finishedSteps_concat]
    simp [startsStep, endsStep]
  within := h.within

theorem Ledger.failScope : Ledger (rs ++ [.scopeFailed]) R S where
  isOpen := h.isOpen.concat (by simp) (by simp)
  runner := List.mem_append_left _ h.runner
  guarded := admissible_concat.mpr ⟨h.guarded, h.isOpen⟩
  running_iff b := by
    rw [h.running_iff, Running, Running, mem_attempts_concat, mem_finishedAttempts_concat]
    simp [startsAttempt, endsAttempt]
  stepping_iff y := by
    rw [h.stepping_iff, mem_steps_concat, mem_finishedSteps_concat]
    simp [startsStep, endsStep]
  within := h.within

/-- An attempt that is started and finished at once. -/
theorem Ledger.reportAttempt {a x : Text} {n : ℕ} {id : Option Text} {st : HistoricalIdStability}
    (hnew : a ∉ attempts rs) (hagrees : Agrees rs x n id st) :
    Ledger (rs ++ [.attemptStarted a x n id st, .attemptFinished a]) R S := by
  have hfresh : a ∉ R := fun ha => hnew ((h.running_iff a).mp ha).1
  have hended := (h.startAttempt hnew hagrees).finishAttempt (Set.mem_insert a R)
    fun s hs => hfresh (h.within _ hs)
  rw [Set.insert_sdiff_of_mem _ (Set.mem_singleton a), Set.sdiff_singleton_eq_self hfresh] at hended
  simpa only [List.append_assoc, List.singleton_append, List.cons_append, List.nil_append] using hended

/-! ### Several roles -/

/-- Any number of attachments in one place. -/
theorem Ledger.attachAll {a : Text} {step : Option Text} (ha : a ∈ R)
    (hstep : ∀ s, step = some s → (a, s) ∈ S) {qs : List Role}
    (hqs : ∀ q ∈ qs, q = .attachmentAdded a step) : Ledger (rs ++ qs) R S := by
  induction qs using List.reverseRecOn with
  | nil => rwa [List.append_nil]
  | append_singleton qs q ih =>
      obtain rfl := hqs q (by simp)
      rw [← List.append_assoc]
      exact (ih fun q hq => hqs q (List.mem_append_left _ hq)).attach ha hstep

/-- The steps of an attempt end one after the other. -/
theorem Ledger.finishSteps {a : Text} {l : List Text} (hl : l.Nodup) (hs : ∀ s ∈ l, (a, s) ∈ S) :
    Ledger (rs ++ l.map (Role.stepFinished a)) R {x ∈ S | ∀ s ∈ l, x ≠ (a, s)} := by
  induction l using List.reverseRecOn with
  | nil => simpa using h
  | append_singleton l s ih =>
      obtain ⟨hl, -, hnew⟩ := List.nodup_append.mp hl
      have hmem : (a, s) ∈ {x ∈ S | ∀ t ∈ l, x ≠ (a, t)} := by
        refine ⟨hs s (by simp), fun t ht heq => ?_⟩
        exact hnew t ht s (List.mem_singleton_self s) (Prod.mk.inj heq).2.symm
      have hstep := (ih hl fun t ht => hs t (List.mem_append_left _ ht)).finishStep hmem
      rw [List.map_append, List.map_singleton, ← List.append_assoc]
      convert hstep using 1
      ext x
      simp only [Set.mem_ofPred_eq, Set.mem_sdiff, Set.mem_singleton_iff, List.mem_append,
        List.mem_singleton, or_imp, forall_and, forall_eq, and_assoc]

/-- An attempt ends after all of its steps. -/
theorem Ledger.closeSteps {a : Text} {l : List Text} (hl : l.Nodup)
    (hs : ∀ s, s ∈ l ↔ (a, s) ∈ S) :
    Ledger (rs ++ l.map (Role.stepFinished a)) R {x ∈ S | x.1 ≠ a} := by
  convert h.finishSteps hl (fun s hmem => (hs s).mp hmem) using 1
  ext ⟨b, t⟩
  simp only [Set.mem_ofPred_eq, ne_eq, Prod.mk.injEq, not_and]
  refine and_congr_right fun hmem => ⟨fun hne s _ heq => absurd heq hne, fun hall heq => ?_⟩
  subst heq
  exact hall t ((hs t).mpr hmem) rfl rfl

/-- Attempts end one after the other, each after its steps. -/
theorem Ledger.closeAll {l : List (Text × List Text)} (hl : (l.map Prod.fst).Nodup)
    (hattempts : ∀ x ∈ l, x.1 ∈ R) (hnodup : ∀ x ∈ l, x.2.Nodup)
    (hsteps : ∀ x ∈ l, ∀ s, s ∈ x.2 ↔ (x.1, s) ∈ S) :
    Ledger (rs ++ l.flatMap (fun x => x.2.map (Role.stepFinished x.1) ++ [.attemptFinished x.1]))
      {a ∈ R | a ∉ l.map Prod.fst} {y ∈ S | y.1 ∉ l.map Prod.fst} := by
  induction l using List.reverseRecOn with
  | nil => simpa using h
  | append_singleton l x ih =>
      rw [List.map_append, List.nodup_append] at hl
      have hx : x ∈ l ++ [x] := by simp
      have hfresh : x.1 ∉ l.map Prod.fst := fun hmem => hl.2.2 _ hmem _ (by simp) rfl
      have hbefore := ih hl.1 (fun y hy => hattempts y (List.mem_append_left _ hy))
        (fun y hy => hnodup y (List.mem_append_left _ hy))
        (fun y hy => hsteps y (List.mem_append_left _ hy))
      have hclosed := hbefore.closeSteps (a := x.1) (hnodup x hx) fun s => by
        rw [hsteps x hx s]
        exact ⟨fun hs => ⟨hs, hfresh⟩, And.left⟩
      have hended := hclosed.finishAttempt (a := x.1) ⟨hattempts x hx, hfresh⟩
        fun s hs => hs.2 rfl
      rw [List.flatMap_append, List.flatMap_singleton, ← List.append_assoc, ← List.append_assoc]
      convert hended using 1
      · ext a
        simp only [Set.mem_ofPred_eq, Set.mem_sdiff, Set.mem_singleton_iff, List.map_append,
          List.map_singleton, List.mem_append, List.mem_singleton, not_or, and_assoc]
      · ext y
        simp only [Set.mem_ofPred_eq, List.map_append, List.map_singleton, List.mem_append,
          List.mem_singleton, not_or, and_assoc, ne_eq]

end rules

/-! ### The end -/

/-- With no attempt open the session may end, and run.finished may follow. -/
theorem Ledger.ended {rs : List Role} {S : Set (Text × Text)} (h : Ledger rs ∅ S) :
    Admissible RoleGuard (rs ++ [.sessionFinished]) ∧
      Admissible RoleGuard (rs ++ [.sessionFinished, .runFinished]) ∧
      Closed (rs ++ [.sessionFinished]) ∧ Closed (rs ++ [.sessionFinished, .runFinished]) := by
  have hattempts : ∀ a ∈ attempts rs, a ∈ finishedAttempts rs := by
    intro a ha
    by_contra hopen
    exact (h.running_iff a).mpr ⟨ha, hopen⟩
  have hsteps : ∀ x ∈ steps rs, x ∈ finishedSteps rs := by
    intro x hx
    by_contra hopen
    exact h.within x ((h.stepping_iff x).mpr ⟨hx, hopen⟩)
  have hended : Admissible RoleGuard (rs ++ [.sessionFinished]) :=
    admissible_concat.mpr ⟨h.guarded, h.isOpen, hattempts⟩
  have hclosed : Closed (rs ++ [.sessionFinished]) := by
    refine ⟨by simp, fun a ha => ?_, fun x hx => ?_⟩
    · rcases mem_attempts_concat.mp ha with ha | ha
      · exact mem_finishedAttempts_concat.mpr (.inl (hattempts a ha))
      · cases ha
    · rcases mem_steps_concat.mp hx with hx | hx
      · exact mem_finishedSteps_concat.mpr (.inl (hsteps x hx))
      · cases hx
  have hsplit : rs ++ [.sessionFinished, .runFinished] =
      rs ++ [.sessionFinished] ++ [.runFinished] := by simp
  rw [hsplit]
  refine ⟨hended, admissible_concat.mpr ⟨hended, by simp, ?_⟩, hclosed, by simp, fun a ha => ?_,
    fun x hx => ?_⟩
  · rw [List.mem_append, not_or]
    exact ⟨h.isOpen.run, by simp⟩
  · rcases mem_attempts_concat.mp ha with ha | ha
    · exact mem_finishedAttempts_concat.mpr (.inl (hclosed.attempts a ha))
    · cases ha
  · rcases mem_steps_concat.mp hx with hx | hx
    · exact mem_finishedSteps_concat.mpr (.inl (hclosed.steps x hx))
    · cases hx

end QeReport.Role

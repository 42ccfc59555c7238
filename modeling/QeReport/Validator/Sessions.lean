import QeReport.Validator.Log

/-! # The sessions of a log

Inside a session the sequence is the position: `sequence_lt` turns the order of the log into the
order of sequences and back.  When the events of each attempt are in one session
(`SameSession`), the guard looks at the events of its own session only, apart from the relation
`Rel` with the others: `guard_decomposes`. -/

namespace QeReport

open GuardedLog

/-! ### Sequences -/

section sequences
variable {rn : Text → Option Text} {l : Log}

theorem sequence_ofSession (h : Admissible (Guard rn) l) (s : Text) :
    (l.ofSession s).map AnyEvent.sequence = List.range' 1 (l.ofSession s).length := by
  induction l using List.reverseRecOn with
  | nil => rfl
  | append_singleton l e ih =>
      obtain ⟨hl, hg⟩ := admissible_concat.mp h
      rw [Log.ofSession_concat]
      split_ifs with hs
      · rw [List.map_append, ih hl, List.length_append, List.length_singleton, List.range'_1_concat]
        simp [hg.sequence, hs, Nat.add_comm]
      · rw [List.append_nil]
        exact ih hl

theorem sequence_le (h : Admissible (Guard rn) l) {x : AnyEvent} (hx : x ∈ l) :
    1 ≤ x.sequence ∧ x.sequence ≤ (l.ofSession x.session).length := by
  have hmem : x.sequence ∈ (l.ofSession x.session).map AnyEvent.sequence :=
    List.mem_map_of_mem (mem_ofClass.mpr ⟨hx, rfl⟩)
  rw [sequence_ofSession h, List.mem_range'_1] at hmem
  omega

/-- An earlier event of a session has the lower sequence. -/
theorem sequence_lt {p s : Log} {x e : AnyEvent} (h : Admissible (Guard rn) (p ++ e :: s))
    (hx : x ∈ p) (hs : x.session = e.session) : x.sequence < e.sequence := by
  have hp := (admissible_append.mp h).1
  have hle := (sequence_le hp hx).2
  have hseq := (h p e s rfl).sequence
  rw [hs] at hle
  omega

/-- An event of a session with a lower sequence stands before. -/
theorem mem_of_sequence_lt {p s : Log} {x e : AnyEvent} (h : Admissible (Guard rn) (p ++ e :: s))
    (hx : x ∈ p ++ e :: s) (hs : x.session = e.session) (hlt : x.sequence < e.sequence) : x ∈ p := by
  rcases List.mem_append.mp hx with hp | hr
  · exact hp
  · rcases List.mem_cons.mp hr with rfl | hr
    · exact absurd hlt (lt_irrefl _)
    · obtain ⟨t, u, rfl⟩ := List.append_of_mem hr
      have h' : Admissible (Guard rn) ((p ++ e :: t) ++ x :: u) := by simpa using h
      exact absurd (sequence_lt h' (by simp) hs.symm) (by omega)

/-- An event of a session is determined by its sequence. -/
theorem eq_of_sequence (h : Admissible (Guard rn) l) {x y : AnyEvent} (hx : x ∈ l) (hy : y ∈ l)
    (hs : x.session = y.session) (hseq : x.sequence = y.sequence) : x = y := by
  obtain ⟨p, s, rfl⟩ := List.append_of_mem hy
  rcases List.mem_append.mp hx with hp | hr
  · exact absurd (sequence_lt h hp hs) (by omega)
  · rcases List.mem_cons.mp hr with rfl | hr
    · rfl
    · obtain ⟨t, u, rfl⟩ := List.append_of_mem hr
      have h' : Admissible (Guard rn) ((p ++ y :: t) ++ x :: u) := by simpa using h
      exact absurd (sequence_lt h' (by simp) hs.symm) (by omega)

end sequences

/-! ### Attempts and their sessions -/

namespace AnyEvent

/-- The attempt an event is about. -/
def attempt? (e : AnyEvent) : Option Text :=
  match e.startsAttempt with
  | some a => some a
  | none => e.namesAttempt

section
variable {e : AnyEvent} {a : Text}

theorem attempt?_of_starts (h : e.startsAttempt = some a) : e.attempt? = some a := by
  rw [attempt?, h]

theorem attempt?_of_names (h : e.namesAttempt = some a) : e.attempt? = some a := by
  have hs : e.startsAttempt = none := by
    unfold namesAttempt at h
    unfold startsAttempt
    split at h <;> simp_all
  rw [attempt?, hs, h]

theorem attempt?_eq_some : e.attempt? = some a ↔ e.startsAttempt = some a ∨ e.namesAttempt = some a := by
  refine ⟨fun h => ?_, fun h => h.elim attempt?_of_starts attempt?_of_names⟩
  unfold attempt? at h
  cases hs : e.startsAttempt with
  | none =>
      rw [hs] at h
      exact Or.inr h
  | some b =>
      rw [hs] at h
      exact Or.inl h

theorem namesAttempt_of_endsAttempt (h : e.endsAttempt = some a) : e.namesAttempt = some a := by
  obtain ⟨p, hp, rfl⟩ := endsAttempt_eq_some.mp h
  simp [namesAttempt, hp]

theorem namesAttempt_of_startsStep {s : Text × Text} (h : e.startsStep = some s) :
    e.namesAttempt = some s.1 := by
  obtain ⟨p, hp, rfl⟩ := startsStep_eq_some.mp h
  simp [namesAttempt, hp]

theorem namesAttempt_of_endsStep {s : Text × Text} (h : e.endsStep = some s) :
    e.namesAttempt = some s.1 := by
  obtain ⟨p, hp, rfl⟩ := endsStep_eq_some.mp h
  simp [namesAttempt, hp]

end

end AnyEvent

/-- Events about one attempt are in one session. -/
def SameSession (x y : AnyEvent) : Prop :=
  ∀ a, x.attempt? = some a → y.attempt? = some a → x.session = y.session

/-- Every step, attachment and attempt.finished event is in the session of its attempt. -/
def AttemptsLocal (l : Log) : Prop :=
  ∀ x ∈ l, ∀ y ∈ l, ∀ a, x.startsAttempt = some a → y.namesAttempt = some a → x.session = y.session

instance (l : Log) : Decidable (AttemptsLocal l) :=
  inferInstanceAs (Decidable (∀ x ∈ l, ∀ y ∈ l, ∀ a ∈ x.startsAttempt,
    y.namesAttempt = some a → x.session = y.session))

section names
variable {rn : Text → Option Text} {l : Log}

/-- An event that names an attempt comes after the event that started it. -/
theorem attempt_of_names {p : Log} {e : AnyEvent} {a : Text} (hp : Admissible (Guard rn) p)
    (hg : Guard rn p e) (ha : e.namesAttempt = some a) : a ∈ p.attempts := by
  have hpay := hg.payload
  unfold AnyEvent.namesAttempt at ha
  unfold PayloadGuard at hpay
  split at ha
  case h_5 => cases ha
  all_goals
    rename_i q hq
    cases ha
    rw [hq] at hpay
  case h_3 => exact steps_subset hp _ hpay.1
  all_goals exact hpay.1

theorem sameSession_of_local (h : Admissible (Guard rn) l) (hl : AttemptsLocal l) {x y : AnyEvent}
    (hx : x ∈ l) (hy : y ∈ l) : SameSession x y := by
  have hstart : ∀ z ∈ l, ∀ a, z.attempt? = some a →
      ∃ w ∈ l, w.startsAttempt = some a ∧ w.session = z.session := by
    intro z hz a ha
    rcases AnyEvent.attempt?_eq_some.mp ha with hs | hn
    · exact ⟨z, hz, hs, rfl⟩
    · obtain ⟨p, s, rfl, hg⟩ := h.of_mem hz
      obtain ⟨w, hw, hwa⟩ :=
        List.mem_filterMap.mp (attempt_of_names (admissible_append.mp h).1 hg hn)
      have hwl : w ∈ p ++ z :: s := List.mem_append_left _ hw
      exact ⟨w, hwl, hwa, hl w hwl z hz a hwa hn⟩
  intro a hxa hya
  obtain ⟨w, hw, hwa, hwx⟩ := hstart x hx a hxa
  obtain ⟨v, hv, hva, hvy⟩ := hstart y hy a hya
  rw [← hwx, ← hvy, attempt_unique h hw hv hwa hva]

end names

/-! ### The guard of a session -/

/-- What an event must respect of the events of other sessions. -/
structure Rel (rn : Text → Option Text) (x y : AnyEvent) : Prop where
  runId : x.envelope.runId = y.envelope.runId
  runFinished : ¬ (x.isRunFinished = true ∧ y.isRunFinished = true)
  attempts : ∀ p q, x.payload? = some (.attemptStarted p) → y.payload? = some (.attemptStarted q) →
    p.attemptId ≠ q.attemptId ∧
      (p.test.executionId = q.test.executionId → Compatible rn x.session y.session p q)

theorem Compatible.symm {rn : Text → Option Text} {s t : Text} {p q : AttemptStartedPayload}
    (h : Compatible rn s t p q) : Compatible rn t s q p :=
  ⟨h.number.symm, h.historicalId.symm, h.stability.symm, h.runner.symm⟩

theorem Rel.symm {rn : Text → Option Text} {x y : AnyEvent} (h : Rel rn x y) : Rel rn y x where
  runId := h.runId.symm
  runFinished := fun hxy => h.runFinished hxy.symm
  attempts := fun p q hp hq =>
    ⟨(h.attempts q p hq hp).1.symm, fun he => ((h.attempts q p hq hp).2 he.symm).symm⟩

theorem SameSession.symm {x y : AnyEvent} (h : SameSession x y) : SameSession y x :=
  fun a hx hy => (h a hy hx).symm

section decomposition
variable {rn : Text → Option Text} {p : Log} {e : AnyEvent}

/-- A key of the events about one attempt is found in the session of that attempt. -/
theorem mem_keys_ofSession {β : Type} {f : AnyEvent → Option β} {b : β} {a : Text}
    (hf : ∀ x, f x = some b → x.attempt? = some a) (hs : ∀ x ∈ p, SameSession x e)
    (he : e.attempt? = some a) :
    b ∈ (p.ofSession e.session).filterMap f ↔ b ∈ p.filterMap f := by
  simp only [List.mem_filterMap]
  constructor
  · rintro ⟨x, hx, hb⟩
    exact ⟨x, (mem_ofClass.mp hx).1, hb⟩
  · rintro ⟨x, hx, hb⟩
    exact ⟨x, mem_ofClass.mpr ⟨hx, hs x hx a (hf x hb) he⟩, hb⟩

/-- A session knows of its attempts what the log knows. -/
structure KnowsAttempt (p q : Log) (a : Text) : Prop where
  attempts : a ∈ q.attempts ↔ a ∈ p.attempts
  finishedAttempts : a ∈ q.finishedAttempts ↔ a ∈ p.finishedAttempts
  steps : ∀ s, (a, s) ∈ q.steps ↔ (a, s) ∈ p.steps
  finishedSteps : ∀ s, (a, s) ∈ q.finishedSteps ↔ (a, s) ∈ p.finishedSteps

theorem knowsAttempt {a : Text} (hs : ∀ x ∈ p, SameSession x e) (he : e.attempt? = some a) :
    KnowsAttempt p (p.ofSession e.session) a where
  attempts := mem_keys_ofSession (fun _ h => AnyEvent.attempt?_of_starts h) hs he
  finishedAttempts := mem_keys_ofSession
    (fun _ h => AnyEvent.attempt?_of_names (AnyEvent.namesAttempt_of_endsAttempt h)) hs he
  steps := fun _ => mem_keys_ofSession
    (fun _ h => AnyEvent.attempt?_of_names (AnyEvent.namesAttempt_of_startsStep h)) hs he
  finishedSteps := fun _ => mem_keys_ofSession
    (fun _ h => AnyEvent.attempt?_of_names (AnyEvent.namesAttempt_of_endsStep h)) hs he

/-- The part of `Rel` that the event switch checks. -/
def PayloadRel (rn : Text → Option Text) (x y : AnyEvent) : Prop :=
  ¬ (x.isRunFinished = true ∧ y.isRunFinished = true) ∧
    ∀ p q, x.payload? = some (.attemptStarted p) → y.payload? = some (.attemptStarted q) →
      p.attemptId ≠ q.attemptId ∧
        (p.test.executionId = q.test.executionId → Compatible rn x.session y.session p q)

/-- An event that neither starts an attempt nor ends the run has no relation to respect. -/
theorem payloadRel_of {x : AnyEvent} (hr : e.isRunFinished = false) (hs : e.startsAttempt = none) :
    PayloadRel rn x e := by
  refine ⟨fun h => by simp [hr] at h, fun p q _ hq => ?_⟩
  rw [AnyEvent.startsAttempt, hq] at hs
  cases hs

/-- The switch on an event that names an attempt looks at the session of the attempt. -/
theorem payloadGuard_of_names {a : Text} (hs : ∀ x ∈ p, SameSession x e)
    (he : e.namesAttempt = some a) :
    PayloadGuard rn p e ↔ PayloadGuard rn (p.ofSession e.session) e := by
  obtain ⟨h1, h2, h3, h4⟩ := knowsAttempt hs (AnyEvent.attempt?_of_names he)
  unfold AnyEvent.namesAttempt at he
  unfold PayloadGuard
  split at he
  case h_5 => cases he
  all_goals
    rename_i q hq
    cases he
    simp only [hq, h1, h2, h3, h4]

theorem payloadGuard_of_sessionFinished {q : SessionFinishedPayload}
    (he : e.payload? = some (.sessionFinished q)) (hp : ∀ x ∈ p, ∀ y ∈ p, SameSession x y) :
    PayloadGuard rn p e ↔ PayloadGuard rn (p.ofSession e.session) e := by
  simp only [PayloadGuard, he]
  refine ⟨fun h x hx hxs a ha => ?_, fun h x hx hxs a ha => ?_⟩
  · obtain ⟨hx, -⟩ := mem_ofClass.mp hx
    have hk := knowsAttempt (fun y hy => hp y hy x hx) (AnyEvent.attempt?_of_starts ha)
    rw [← hxs]
    exact hk.finishedAttempts.mpr (h x hx hxs a ha)
  · have hk := knowsAttempt (fun y hy => hp y hy x hx) (AnyEvent.attempt?_of_starts ha)
    have := h x (mem_ofClass.mpr ⟨hx, hxs⟩) hxs a ha
    rw [← hxs] at this
    exact hk.finishedAttempts.mp this

theorem payloadGuard_of_attemptStarted {q : AttemptStartedPayload}
    (he : e.payload? = some (.attemptStarted q)) :
    PayloadGuard rn p e ↔
      PayloadGuard rn (p.ofSession e.session) e ∧ ∀ x ∈ p, PayloadRel rn x e := by
  have hrun : e.isRunFinished = false := by simp [AnyEvent.isRunFinished, he]
  simp only [PayloadGuard, PayloadRel, he, hrun, Bool.false_eq_true, and_false, not_false_eq_true,
    true_and, Option.some.injEq, Payload.attemptStarted.injEq]
  constructor
  · rintro ⟨h1, h2, h3⟩
    refine ⟨⟨h1, fun hm => h2 ?_, fun x hx => h3 x (mem_ofClass.mp hx).1⟩, ?_⟩
    · obtain ⟨x, hx, hxa⟩ := List.mem_filterMap.mp hm
      exact List.mem_filterMap.mpr ⟨x, (mem_ofClass.mp hx).1, hxa⟩
    · rintro x hx r _ hr rfl
      refine ⟨fun heq => h2 ?_, h3 x hx r hr⟩
      exact List.mem_filterMap.mpr ⟨x, hx, AnyEvent.startsAttempt_eq_some.mpr ⟨r, hr, heq⟩⟩
  · rintro ⟨⟨h1, -, -⟩, hrel⟩
    refine ⟨h1, fun hm => ?_, fun x hx r hr => (hrel x hx r q hr rfl).2⟩
    obtain ⟨x, hx, hxa⟩ := List.mem_filterMap.mp hm
    obtain ⟨r, hr, heq⟩ := AnyEvent.startsAttempt_eq_some.mp hxa
    exact (hrel x hx r q hr rfl).1 heq

theorem payloadGuard_of_runFinished (he : e.payload? = some .runFinished) :
    PayloadGuard rn p e ↔
      PayloadGuard rn (p.ofSession e.session) e ∧ ∀ x ∈ p, PayloadRel rn x e := by
  have hrun : e.isRunFinished = true := by simp [AnyEvent.isRunFinished, he]
  simp only [PayloadGuard, PayloadRel, he, hrun]
  constructor
  · intro h
    exact ⟨fun x hx => h x (mem_ofClass.mp hx).1, fun x hx => by simp [h x hx]⟩
  · rintro ⟨-, h⟩ x hx
    simpa using (h x hx).1

theorem payloadGuard_decomposes (hp : ∀ x ∈ p, ∀ y ∈ p, SameSession x y)
    (hs : ∀ x ∈ p, SameSession x e) :
    PayloadGuard rn p e ↔
      PayloadGuard rn (p.ofSession e.session) e ∧ ∀ x ∈ p, PayloadRel rn x e := by
  by_cases hrun : e.payload? = some .runFinished
  · exact payloadGuard_of_runFinished hrun
  by_cases hstart : ∃ q, e.payload? = some (.attemptStarted q)
  · obtain ⟨q, hq⟩ := hstart
    exact payloadGuard_of_attemptStarted hq
  have hrel : ∀ x ∈ p, PayloadRel rn x e := by
    refine fun x _ => payloadRel_of ?_ ?_
    · rwa [← Bool.not_eq_true, AnyEvent.isRunFinished_iff]
    · rw [Option.eq_none_iff_forall_ne_some]
      intro a ha
      obtain ⟨q, hq, -⟩ := AnyEvent.startsAttempt_eq_some.mp ha
      exact hstart ⟨q, hq⟩
  rw [and_iff_left hrel]
  by_cases hend : ∃ q, e.payload? = some (.sessionFinished q)
  · obtain ⟨q, hq⟩ := hend
    exact payloadGuard_of_sessionFinished hq hp
  cases hn : e.namesAttempt with
  | some a => exact payloadGuard_of_names hs hn
  | none =>
      unfold AnyEvent.namesAttempt at hn
      unfold PayloadGuard
      split at hn <;> simp_all

end decomposition

/-- The guard is a guard on the event's own session and a relation with all other events. -/
theorem guard_decomposes (rn : Text → Option Text) :
    Decomposes AnyEvent.session (Guard rn) SameSession (Guard rn) (Rel rn) := by
  intro (p : Log) e hs
  obtain ⟨hpp, -, hpe⟩ := List.pairwise_append.mp hs
  have hp : ∀ x ∈ p, ∀ y ∈ p, SameSession x y := by
    have : Std.Symm SameSession := ⟨fun _ _ h => h.symm⟩
    have hrefl : ∀ z ∈ p, SameSession z z := fun _ _ _ _ _ => rfl
    exact fun x hx y hy => List.Pairwise.forall_of_forall hrefl hpp hx hy
  have hpay : PayloadGuard rn p e ↔
      PayloadGuard rn (p.ofSession e.session) e ∧ ∀ x ∈ p, PayloadRel rn x e :=
    payloadGuard_decomposes hp (fun x hx => hpe x hx e (by simp))
  have hopen : e.session ∈ (p.ofSession e.session).sessions ↔ e.session ∈ p.sessions := by
    simp [Log.sessions, Log.ofSession, mem_ofClass]
  have hdone : e.session ∈ (p.ofSession e.session).finishedSessions ↔
      e.session ∈ p.finishedSessions := by
    simp only [Log.finishedSessions, List.mem_filterMap, Log.ofSession, mem_ofClass]
    constructor
    · rintro ⟨x, ⟨hx, -⟩, hxs⟩
      exact ⟨x, hx, hxs⟩
    · rintro ⟨x, hx, hxs⟩
      exact ⟨x, ⟨hx, (AnyEvent.endsSession_eq_some.mp hxs).2⟩, hxs⟩
  have hown : (p.ofSession e.session).ofSession e.session = p.ofSession e.session := by
    simp [Log.ofSession, ofClass]
  constructor
  · rintro ⟨h1, h2, h3, h4, h5⟩
    obtain ⟨h5, h6⟩ := hpay.mp h5
    refine ⟨⟨fun x hx => h1 x (mem_ofClass.mp hx).1, h2.trans (not_congr hopen.symm), ?_,
      fun h => h4 (hdone.mp h), h5⟩, fun x hx => ⟨h1 x hx, (h6 x hx).1, (h6 x hx).2⟩⟩
    rw [h3, ← hown]
    rfl
  · rintro ⟨⟨-, h2, h3, h4, h5⟩, h6⟩
    refine ⟨fun x hx => (h6 x hx).runId, h2.trans (not_congr hopen), ?_,
      fun h => h4 (hdone.mpr h),
      hpay.mpr ⟨h5, fun x hx => ⟨(h6 x hx).runFinished, (h6 x hx).attempts⟩⟩⟩
    rw [h3, ← hown]
    rfl

end QeReport

import QeReport.Validator.Lifecycle

/-! # The file of one session

What a producer writes is one file with the events of one session, numbered from one.  There the
rules of the validator come down to the order of a few roles (`Role`): `RoleGuard` says which role
may follow which, and a file whose roles keep to it is taken without an error
(`errorFree_of_roles`).  When also everything that was started is finished, the lifecycle law holds
and the run is complete (`law_of_roles`, `complete_of_roles`). -/

namespace QeReport

open GuardedLog

/-! ### Roles -/

/-- What a payload does in the lifecycle of its session. -/
inductive Role where
  | sessionStarted (runner : Bool)
  | sessionFinished
  | runFinished
  | attemptStarted (attempt execution : Text) (number : ℕ) (historicalId : Option Text)
      (stability : HistoricalIdStability)
  | attemptFinished (attempt : Text)
  | stepStarted (attempt step : Text) (parent : Option Text)
  | stepFinished (attempt step : Text)
  | attachmentAdded (attempt : Text) (step : Option Text)
  | scopeFailed
deriving DecidableEq

def Payload.role : Payload → Role
  | .sessionStarted p => .sessionStarted p.runner.isSome
  | .sessionFinished _ => .sessionFinished
  | .runFinished => .runFinished
  | .attemptStarted p => .attemptStarted p.attemptId p.test.executionId p.attemptNumber
      p.test.historicalId p.test.historicalIdStability
  | .attemptFinished p => .attemptFinished p.attemptId
  | .stepStarted p => .stepStarted p.attemptId p.stepId p.parentStepId
  | .stepFinished p => .stepFinished p.attemptId p.stepId
  | .attachmentAdded p => .attachmentAdded p.attemptId p.stepId
  | .scopeFailed _ => .scopeFailed

def AnyEvent.role? (e : AnyEvent) : Option Role := e.payload?.map Payload.role

namespace Role

def startsAttempt : Role → Option Text
  | .attemptStarted a _ _ _ _ => some a
  | _ => none

def endsAttempt : Role → Option Text
  | .attemptFinished a => some a
  | _ => none

def startsStep : Role → Option (Text × Text)
  | .stepStarted a s _ => some (a, s)
  | _ => none

def endsStep : Role → Option (Text × Text)
  | .stepFinished a s => some (a, s)
  | _ => none

/-- The attempts that were started. -/
def attempts (rs : List Role) : List Text := rs.filterMap startsAttempt

def finishedAttempts (rs : List Role) : List Text := rs.filterMap endsAttempt

/-- The steps that were started, each with its attempt. -/
def steps (rs : List Role) : List (Text × Text) := rs.filterMap startsStep

def finishedSteps (rs : List Role) : List (Text × Text) := rs.filterMap endsStep

/-- The session has begun and is not finished. -/
structure Open (rs : List Role) : Prop where
  begun : rs ≠ []
  session : .sessionFinished ∉ rs
  run : .runFinished ∉ rs

/-- An attempt that was started and not finished. -/
def Running (rs : List Role) (a : Text) : Prop := a ∈ attempts rs ∧ a ∉ finishedAttempts rs

/-- Another attempt of the execution has another number and the same identity. -/
def Agrees (rs : List Role) (execution : Text) (number : ℕ) (historicalId : Option Text)
    (stability : HistoricalIdStability) : Prop :=
  ∀ a n h s, .attemptStarted a execution n h s ∈ rs → n ≠ number ∧ h = historicalId ∧ s = stability

/-- The roles that may follow others. -/
def RoleGuard (rs : List Role) : Role → Prop
  | .sessionStarted _ => rs = []
  | .sessionFinished => Open rs ∧ ∀ a ∈ attempts rs, a ∈ finishedAttempts rs
  | .runFinished => .sessionFinished ∈ rs ∧ .runFinished ∉ rs
  | .attemptStarted a x n h s => Open rs ∧ (h.isSome → .sessionStarted true ∈ rs) ∧
      a ∉ attempts rs ∧ Agrees rs x n h s
  | .attemptFinished a => Open rs ∧ Running rs a ∧ ∀ s, (a, s) ∈ steps rs → (a, s) ∈ finishedSteps rs
  | .stepStarted a s parent => Open rs ∧ Running rs a ∧ (a, s) ∉ steps rs ∧
      ∀ t, parent = some t → (a, t) ∈ steps rs
  | .stepFinished a s => Open rs ∧ (a, s) ∈ steps rs ∧ (a, s) ∉ finishedSteps rs
  | .attachmentAdded a step => Open rs ∧ Running rs a ∧ ∀ s, step = some s → (a, s) ∈ steps rs
  | .scopeFailed => Open rs

/-- Everything that was started was finished, the session too. -/
structure Closed (rs : List Role) : Prop where
  session : .sessionFinished ∈ rs
  attempts : ∀ a ∈ attempts rs, a ∈ finishedAttempts rs
  steps : ∀ s ∈ steps rs, s ∈ finishedSteps rs

end Role

/-! ### The log of a session -/

/-- The events of one session with these roles, numbered from one. -/
structure Numbered (runId sessionId : Text) (l : Log) (rs : List Role) : Prop where
  roles : l.map AnyEvent.role? = rs.map some
  runId : ∀ x ∈ l, x.envelope.runId = runId
  session : ∀ x ∈ l, x.session = sessionId
  sequence : l.map AnyEvent.sequence = List.range' 1 l.length

section roles
variable {e : AnyEvent}

theorem AnyEvent.startsAttempt_role : e.startsAttempt = e.role?.bind Role.startsAttempt := by
  cases e with
  | unknown u => rfl
  | known k =>
      obtain ⟨envelope, p⟩ := k
      cases p <;> rfl

theorem AnyEvent.endsAttempt_role : e.endsAttempt = e.role?.bind Role.endsAttempt := by
  cases e with
  | unknown u => rfl
  | known k =>
      obtain ⟨envelope, p⟩ := k
      cases p <;> rfl

theorem AnyEvent.startsStep_role : e.startsStep = e.role?.bind Role.startsStep := by
  cases e with
  | unknown u => rfl
  | known k =>
      obtain ⟨envelope, p⟩ := k
      cases p <;> rfl

theorem AnyEvent.endsStep_role : e.endsStep = e.role?.bind Role.endsStep := by
  cases e with
  | unknown u => rfl
  | known k =>
      obtain ⟨envelope, p⟩ := k
      cases p <;> rfl

theorem AnyEvent.role?_eq_some {r : Role} :
    e.role? = some r ↔ ∃ p, e.payload? = some p ∧ p.role = r := by
  rw [role?, Option.map_eq_some_iff]

theorem Payload.role_eq_sessionFinished {p : Payload} (h : p.role = .sessionFinished) :
    ∃ o, p = .sessionFinished o := by
  cases p with
  | sessionFinished o => exact ⟨o, rfl⟩
  | _ => cases h

theorem Payload.role_eq_runFinished {p : Payload} (h : p.role = .runFinished) :
    p = .runFinished := by
  cases p with
  | runFinished => rfl
  | _ => cases h

theorem Payload.role_eq_sessionStarted {p : Payload} {b : Bool} (h : p.role = .sessionStarted b) :
    ∃ q, p = .sessionStarted q ∧ q.runner.isSome = b := by
  cases p with
  | sessionStarted q => exact ⟨q, rfl, Role.sessionStarted.inj h⟩
  | _ => cases h

end roles

section numbered
variable {run session : Text} {l : Log} {rs : List Role} (hn : Numbered run session l rs)
include hn

theorem Numbered.filterMap {β : Type} {f : AnyEvent → Option β} {g : Role → Option β}
    (h : ∀ e : AnyEvent, f e = e.role?.bind g) : l.filterMap f = rs.filterMap g := by
  have hrole : l.filterMap f = (l.map AnyEvent.role?).filterMap (fun r => r.bind g) := by
    rw [List.filterMap_map]
    exact List.filterMap_congr (fun e _ => h e)
  rw [hrole, hn.roles, List.filterMap_map]
  rfl

theorem Numbered.attempts : l.attempts = Role.attempts rs :=
  hn.filterMap (fun _ => AnyEvent.startsAttempt_role)

theorem Numbered.finishedAttempts : l.finishedAttempts = Role.finishedAttempts rs :=
  hn.filterMap (fun _ => AnyEvent.endsAttempt_role)

theorem Numbered.steps : l.steps = Role.steps rs := hn.filterMap (fun _ => AnyEvent.startsStep_role)

theorem Numbered.finishedSteps : l.finishedSteps = Role.finishedSteps rs :=
  hn.filterMap (fun _ => AnyEvent.endsStep_role)

/-- A role in the list is the role of an event. -/
theorem Numbered.mem {r : Role} : r ∈ rs ↔ ∃ e ∈ l, e.role? = some r := by
  have hmem : some r ∈ l.map AnyEvent.role? ↔ r ∈ rs := by
    rw [hn.roles]
    exact List.mem_map_of_injective (Option.some_injective _)
  rw [← hmem, List.mem_map]

theorem Numbered.nil_iff : l = [] ↔ rs = [] := by
  rw [← List.map_eq_nil_iff (f := AnyEvent.role?), hn.roles, List.map_eq_nil_iff]

theorem Numbered.ofSession : l.ofSession session = l :=
  List.filter_eq_self.mpr (fun x hx => decide_eq_true (hn.session x hx))

end numbered

theorem numbered_nil {run session : Text} : Numbered run session [] [] :=
  ⟨rfl, by simp, by simp, rfl⟩

theorem numbered_concat {run session : Text} {l : Log} {e : AnyEvent} {rs : List Role} {r : Role} :
    Numbered run session (l ++ [e]) (rs ++ [r]) ↔ Numbered run session l rs ∧
      e.role? = some r ∧ e.envelope.runId = run ∧ e.session = session ∧
      e.sequence = l.length + 1 := by
  constructor
  · rintro ⟨hroles, hrun, hsession, hsequence⟩
    rw [List.map_append, List.map_append] at hroles
    obtain ⟨hl, he⟩ := List.append_inj' hroles rfl
    rw [List.map_append, List.length_append, List.length_singleton, List.range'_concat] at hsequence
    obtain ⟨hsl, hse⟩ := List.append_inj' hsequence rfl
    refine ⟨⟨hl, fun x hx => hrun x (by simp [hx]), fun x hx => hsession x (by simp [hx]), hsl⟩,
      (List.cons.inj he).1, hrun e (by simp), hsession e (by simp), ?_⟩
    rw [(List.cons.inj hse).1]
    omega
  · rintro ⟨⟨hroles, hrun, hsession, hsequence⟩, he, herun, hesession, hesequence⟩
    refine ⟨?_, ?_, ?_, ?_⟩
    · rw [List.map_append, List.map_append, hroles, List.map_singleton, List.map_singleton, he]
    · intro x hx
      rcases List.mem_append.mp hx with hx | hx
      · exact hrun x hx
      · rw [List.mem_singleton.mp hx, herun]
    · intro x hx
      rcases List.mem_append.mp hx with hx | hx
      · exact hsession x hx
      · rw [List.mem_singleton.mp hx, hesession]
    · rw [List.map_append, hsequence, List.length_append, List.length_singleton,
        List.range'_concat, List.map_singleton, hesequence]
      have hnext : l.length + 1 = 1 + 1 * l.length := by omega
      rw [hnext]

/-! ### The guard of the log -/

section guard
variable {run session : Text} {l : Log} {e : AnyEvent} {rs : List Role} {r : Role}

/-- Only session.started is first. -/
theorem Role.RoleGuard.begun (h : RoleGuard rs r) : rs = [] ↔ ∃ b, r = .sessionStarted b := by
  cases r with
  | sessionStarted b => exact iff_of_true h ⟨b, rfl⟩
  | runFinished => exact iff_of_false (List.ne_nil_of_mem h.1) nofun
  | scopeFailed => exact iff_of_false h.begun nofun
  | _ => exact iff_of_false h.1.begun nofun

/-- Only run.finished comes after session.finished. -/
theorem Role.RoleGuard.unfinished (h : RoleGuard rs r) (hs : .sessionFinished ∈ rs) :
    r = .runFinished := by
  cases r with
  | sessionStarted b =>
      obtain rfl : rs = [] := h
      cases hs
  | runFinished => rfl
  | scopeFailed => exact absurd hs h.session
  | _ => exact absurd hs h.1.session

theorem Numbered.sessionStarted_mem {b : Bool} (hn : Numbered run session l rs)
    (h : .sessionStarted b ∈ rs) :
    ∃ x ∈ l, ∃ p, x.payload? = some (.sessionStarted p) ∧ p.runner.isSome = b := by
  obtain ⟨x, hx, hrole⟩ := hn.mem.mp h
  obtain ⟨p, hp, hpr⟩ := AnyEvent.role?_eq_some.mp hrole
  obtain ⟨q, rfl, hq⟩ := Payload.role_eq_sessionStarted hpr
  exact ⟨x, hx, q, hp, hq⟩

theorem Numbered.attemptStarted_mem (hn : Numbered run session l rs) {x : AnyEvent} (hx : x ∈ l)
    {q : AttemptStartedPayload} (hq : x.payload? = some (.attemptStarted q)) :
    .attemptStarted q.attemptId q.test.executionId q.attemptNumber q.test.historicalId
      q.test.historicalIdStability ∈ rs :=
  hn.mem.mpr ⟨x, hx, AnyEvent.role?_eq_some.mpr ⟨_, hq, rfl⟩⟩

/-- A session.started is the first role. -/
theorem Role.head_of_sessionStarted {b : Bool} (hg : Admissible RoleGuard rs)
    (h : .sessionStarted b ∈ rs) : rs.head? = some (.sessionStarted b) := by
  obtain ⟨p, s, rfl, hguard⟩ := hg.of_mem h
  obtain rfl : p = [] := hguard
  rfl

/-- The runner of the session, once its session.started named one. -/
theorem Numbered.runnerName (hn : Numbered run session l rs) (hg : Admissible Role.RoleGuard rs)
    (h : .sessionStarted true ∈ rs) : (l.runnerName session).isSome = true := by
  obtain ⟨x, hx, p, hp, hrunner⟩ := hn.sessionStarted_mem h
  have hstart : x.isSessionStarted = true := AnyEvent.isSessionStarted_iff.mpr ⟨p, hp⟩
  rw [Log.runnerName]
  cases hf : l.find? (fun y => y.isSessionStarted && decide (y.session = session)) with
  | none =>
      have hnot := List.find?_eq_none.mp hf x hx
      rw [hstart, hn.session x hx] at hnot
      simp at hnot
  | some y =>
      have hy := List.mem_of_find?_eq_some hf
      have hboth := List.find?_some hf
      rw [Bool.and_eq_true] at hboth
      obtain ⟨q, hq⟩ := AnyEvent.isSessionStarted_iff.mp hboth.1
      have hmem : .sessionStarted q.runner.isSome ∈ rs :=
        hn.mem.mpr ⟨y, hy, AnyEvent.role?_eq_some.mpr ⟨_, hq, rfl⟩⟩
      have hsome : q.runner.isSome = true := by
        have hhead := (Role.head_of_sessionStarted hg hmem).symm.trans
          (Role.head_of_sessionStarted hg h)
        exact Role.sessionStarted.inj (Option.some.inj hhead)
      obtain ⟨k, rfl, hk⟩ := AnyEvent.payload?_eq_some.mp hq
      obtain ⟨envelope, payload⟩ := k
      obtain rfl : payload = .sessionStarted q := hk
      rw [Option.bind_some, runnerNameOf, Option.isSome_map]
      exact hsome

theorem Numbered.payloadGuard (hn : Numbered run session l rs) (hsession : e.session = session)
    (hrunner : .sessionStarted true ∈ rs → ((l ++ [e] : Log).runnerName session).isSome = true)
    {p : Payload} (hp : e.payload? = some p) (hguard : Role.RoleGuard rs p.role) :
    PayloadGuard (Log.runnerName (l ++ [e])) l e := by
  rw [PayloadGuard, hp]
  cases p with
  | sessionStarted q => trivial
  | sessionFinished o =>
      intro x hx _ a ha
      rw [hn.finishedAttempts]
      exact hguard.2 a (hn.attempts ▸ List.mem_filterMap.mpr ⟨x, hx, ha⟩)
  | runFinished =>
      intro x hx
      by_contra hfinished
      rw [Bool.not_eq_false] at hfinished
      have hx' := AnyEvent.isRunFinished_iff.mp hfinished
      exact hguard.2 (hn.mem.mpr ⟨x, hx, AnyEvent.role?_eq_some.mpr ⟨_, hx', rfl⟩⟩)
  | attemptStarted q =>
      obtain ⟨-, hhistory, hnew, hagrees⟩ := hguard
      refine ⟨fun h => hsession ▸ hrunner (hhistory h), hn.attempts ▸ hnew, ?_⟩
      intro x hx q' hq' hexecution
      have hmem := hn.attemptStarted_mem hx hq'
      rw [hexecution] at hmem
      obtain ⟨hnumber, hhistorical, hstability⟩ := hagrees _ _ _ _ hmem
      exact ⟨hnumber, hhistorical, hstability, by rw [hn.session x hx, hsession]⟩
  | attemptFinished q =>
      obtain ⟨-, ⟨hstarted, hopen⟩, hsteps⟩ := hguard
      rw [← hn.attempts] at hstarted
      rw [← hn.finishedAttempts] at hopen
      rw [← hn.steps, ← hn.finishedSteps] at hsteps
      exact ⟨hstarted, hopen, hsteps⟩
  | stepStarted q =>
      obtain ⟨-, ⟨hstarted, hopen⟩, hnew, hparent⟩ := hguard
      rw [← hn.attempts] at hstarted
      rw [← hn.finishedAttempts] at hopen
      rw [← hn.steps] at hnew hparent
      exact ⟨hstarted, hopen, hnew, hparent⟩
  | stepFinished q =>
      obtain ⟨-, hstarted, hopen⟩ := hguard
      rw [← hn.steps] at hstarted
      rw [← hn.finishedSteps] at hopen
      exact ⟨hstarted, hopen⟩
  | attachmentAdded q =>
      obtain ⟨-, ⟨hstarted, hopen⟩, hstep⟩ := hguard
      rw [← hn.attempts] at hstarted
      rw [← hn.finishedAttempts] at hopen
      rw [← hn.steps] at hstep
      exact ⟨hstarted, hopen, hstep⟩
  | scopeFailed q => trivial

/-- The role of an event lets the event follow. -/
theorem Numbered.guard (hn : Numbered run session (l ++ [e]) (rs ++ [r]))
    (hg : Admissible Role.RoleGuard (rs ++ [r])) : Guard (Log.runnerName (l ++ [e])) l e := by
  obtain ⟨hl, hrole, hrun, hsession, hsequence⟩ := numbered_concat.mp hn
  obtain ⟨hrs, hguard⟩ := admissible_concat.mp hg
  obtain ⟨p, hp, rfl⟩ := AnyEvent.role?_eq_some.mp hrole
  have hmem : e.session ∈ l.sessions ↔ l ≠ [] := by
    rw [Log.sessions, List.mem_map]
    constructor
    · rintro ⟨x, hx, -⟩
      exact List.ne_nil_of_mem hx
    · intro hne
      obtain ⟨x, hx⟩ := List.exists_mem_of_ne_nil l hne
      exact ⟨x, hx, (hl.session x hx).trans hsession.symm⟩
  refine ⟨fun x hx => (hl.runId x hx).trans hrun.symm, ?_, ?_, ?_, ?_⟩
  · rw [hmem, not_not, hl.nil_iff, hguard.begun, AnyEvent.isSessionStarted_iff]
    constructor
    · rintro ⟨q, hq⟩
      obtain rfl := Option.some.inj (hp.symm.trans hq)
      exact ⟨_, rfl⟩
    · rintro ⟨b, hb⟩
      obtain ⟨q, rfl, -⟩ := Payload.role_eq_sessionStarted hb
      exact ⟨q, hp⟩
  · rw [hsession, hl.ofSession, hsequence]
  · intro hfinished
    obtain ⟨x, hx, hend⟩ := List.mem_filterMap.mp hfinished
    obtain ⟨⟨o, ho⟩, -⟩ := AnyEvent.endsSession_eq_some.mp hend
    have hr := hguard.unfinished (hl.mem.mpr ⟨x, hx, AnyEvent.role?_eq_some.mpr ⟨_, ho, rfl⟩⟩)
    rw [AnyEvent.isRunFinished_iff, hp, Payload.role_eq_runFinished hr]
  · refine hl.payloadGuard hsession (fun h => ?_) hp hguard
    exact hn.runnerName hg (List.mem_append_left _ h)

/-- A session whose roles keep to their guard keeps to the rules of the validator. -/
theorem Numbered.lifecycle (hn : Numbered run session l rs) (hg : Admissible Role.RoleGuard rs) :
    Lifecycle l := by
  induction l using List.reverseRecOn generalizing rs with
  | nil => exact admissible_nil
  | append_singleton l e ih =>
      rcases List.eq_nil_or_concat' rs with rfl | ⟨rs', r, rfl⟩
      · have hnil := hn.nil_iff.mpr rfl
        simp at hnil
      · have hl := (numbered_concat.mp hn).1
        exact (lifecycle_concat (ih hl (admissible_concat.mp hg).1)).mpr (hn.guard hg)

/-- Nothing comes after run.finished. -/
theorem Role.RoleGuard.closed (h : RoleGuard rs r) : .runFinished ∉ rs := by
  cases r with
  | sessionStarted b =>
      obtain rfl : rs = [] := h
      exact List.not_mem_nil
  | runFinished => exact h.2
  | scopeFailed => exact h.run
  | _ => exact h.1.run

theorem Numbered.fileGuard (hn : Numbered run session l rs) (hg : Admissible Role.RoleGuard rs) :
    Admissible (FileGuard true) l := by
  intro p e s hl
  subst hl
  refine ⟨fun _ x hx => ?_, fun x hx => ?_⟩
  · rw [hn.session x (List.mem_append_left _ hx), hn.session e (by simp)]
  · by_contra hfinished
    rw [Bool.not_eq_false] at hfinished
    have hroles := hn.roles
    rw [List.map_append, List.map_cons] at hroles
    obtain ⟨rp, rest, rfl, hrp, hrest⟩ := List.map_eq_append_iff.mp hroles.symm
    obtain ⟨r, rt, rfl, -, -⟩ := List.map_eq_cons_iff.mp hrest
    have hmem : some Role.runFinished ∈ rp.map some := by
      rw [hrp]
      refine List.mem_map.mpr ⟨x, hx, ?_⟩
      exact AnyEvent.role?_eq_some.mpr ⟨_, AnyEvent.isRunFinished_iff.mp hfinished, rfl⟩
    obtain ⟨r', hr', heq⟩ := List.mem_map.mp hmem
    obtain rfl := Option.some.inj heq
    exact (hg rp r rt rfl).closed hr'

/-- What a log starts it finishes, once and in its place, and only run.finished comes in a session
behind its end. -/
structure Settled (l : Log) : Prop where
  attempts : ∀ x ∈ l, ∀ a, x.startsAttempt = some a → ∃ y ∈ l, y.endsAttempt = some a ∧
    x.sequence < y.sequence ∧ ∀ z ∈ l, z.endsAttempt = some a → z = y
  steps : ∀ x ∈ l, ∀ a s, x.startsStep = some (a, s) → ∃ y ∈ l, y.endsStep = some (a, s) ∧
    x.sequence < y.sequence ∧ (∀ z ∈ l, z.endsStep = some (a, s) → z = y) ∧
    ∀ z ∈ l, z.endsAttempt = some a → y.sequence < z.sequence
  attachments : ∀ x ∈ l, ∀ p, x.payload? = some (.attachmentAdded p) →
    ∃ z ∈ l, z.endsAttempt = some p.attemptId ∧ x.sequence < z.sequence
  sessionEnd : SessionEnd l

/-- What was started is finished in the log too. -/
theorem Numbered.complete (hn : Numbered run session l rs) (hc : Role.Closed rs) : Complete l where
  sessions := by
    intro s hs
    obtain ⟨x, hx, rfl⟩ := List.mem_map.mp hs
    obtain ⟨y, hy, hrole⟩ := hn.mem.mp hc.session
    obtain ⟨p, hp, hpr⟩ := AnyEvent.role?_eq_some.mp hrole
    obtain ⟨o, rfl⟩ := Payload.role_eq_sessionFinished hpr
    refine List.mem_filterMap.mpr ⟨y, hy, AnyEvent.endsSession_eq_some.mpr ⟨⟨o, hp⟩, ?_⟩⟩
    rw [hn.session y hy, hn.session x hx]
  attempts := by
    rw [hn.attempts, hn.finishedAttempts]
    exact hc.attempts
  steps := by
    rw [hn.steps, hn.finishedSteps]
    exact hc.steps

/-- A finished session obeys the lifecycle. -/
theorem Numbered.law (hn : Numbered run session l rs) (hg : Admissible Role.RoleGuard rs)
    (hc : Role.Closed rs) : LifecycleLaw l := by
  have h : Admissible (Guard l.runnerName) l := hn.lifecycle hg
  have hlocal : AttemptsLocal l := by
    intro x hx y hy a _ _
    rw [hn.session x hx, hn.session y hy]
  have hlast : ∀ x ∈ l, x.isRunFinished = true → ∀ y ∈ l, y.session = x.session →
      y.sequence ≤ x.sequence := by
    intro x hx hrun y hy hsession
    by_contra hlt
    obtain ⟨p, s, hps⟩ := List.append_of_mem hy
    have hxp : x ∈ p := mem_of_sequence_lt (hps ▸ h) (hps ▸ hx) hsession.symm (by omega)
    have hclosed := (hn.fileGuard hg p y s hps).closed x hxp
    rw [hrun] at hclosed
    cases hclosed
  refine ⟨sessionOrder h, session_end h, ⟨?_, ?_, hlast⟩, attemptOrder h hlocal, session_closed h⟩
  · exact fun x hx y hy => runFinished_unique h hx hy
  · exact fun _ _ _ => (hn.complete hc).sessions

/-- What a finished session starts it finishes once and in its place. -/
theorem Numbered.settled (hn : Numbered run session l rs) (hg : Admissible Role.RoleGuard rs)
    (hc : Role.Closed rs) : Settled l := by
  have h : Admissible (Guard l.runnerName) l := hn.lifecycle hg
  have hlaw := hn.law hg hc
  have hcomplete := hn.complete hc
  -- the end of an attempt is the last event that names it
  have hend : ∀ x ∈ l, ∀ a, x.namesAttempt = some a → x.endsAttempt = none →
      ∀ z ∈ l, z.endsAttempt = some a → x.sequence < z.sequence := by
    intro x hx a hxa hnone z hz hza
    refine lt_of_le_of_ne (hlaw.attempts.last z hz x hx a hza hxa) fun heq => ?_
    have hsession : x.session = z.session := (hn.session x hx).trans (hn.session z hz).symm
    rw [eq_of_sequence h hx hz hsession heq, hza] at hnone
    cases hnone
  refine ⟨fun x hx a ha => ?_, fun x hx a s hs => ?_, fun x hx p hp => ?_, hlaw.sessionEnd⟩
  · obtain ⟨y, hy, hya⟩ :=
      List.mem_filterMap.mp (hcomplete.attempts a (List.mem_filterMap.mpr ⟨x, hx, ha⟩))
    have hnames := AnyEvent.namesAttempt_of_endsAttempt hya
    exact ⟨y, hy, hya, (hlaw.attempts.first x hx y hy a ha hnames).2,
      fun z hz hza => hlaw.attempts.finishedOnce z hz y hy a hza hya⟩
  · obtain ⟨y, hy, hys⟩ :=
      List.mem_filterMap.mp (hcomplete.steps (a, s) (List.mem_filterMap.mpr ⟨x, hx, hs⟩))
    have honce : ∀ z ∈ l, z.endsStep = some (a, s) → z = y := fun z hz hzs =>
      eq_of_nodup_keys (finishedSteps_nodup h) hz hy hzs hys
    refine ⟨y, hy, hys, hlaw.attempts.stepOrder x hx y hy (a, s) hs hys, honce,
      fun z hz hza => ?_⟩
    obtain ⟨w, hw, hws, hlt⟩ := hlaw.attempts.stepsFinished z hz a hza s
      (List.mem_filterMap.mpr ⟨x, hx, hs⟩)
    rwa [honce w hw hws] at hlt
  · have hnames : x.namesAttempt = some p.attemptId := by
      rw [AnyEvent.namesAttempt, hp]
    have hnone : x.endsAttempt = none := by
      rw [AnyEvent.endsAttempt, hp]
    obtain ⟨z, hz, hza⟩ :=
      List.mem_filterMap.mp (hcomplete.attempts _ (hlaw.attempts.started x hx _ hnames))
    exact ⟨z, hz, hza, hend x hx _ hnames hnone z hz hza⟩

end guard

/-! ### The file -/

section file
variable {rt : Runtime} {options : ValidateOptions} {file : Text} {l : Log}

/-- The lines of a log are read as its events. -/
def ReadBack (rt : Runtime) (limit : ℕ) (l : Log) : Prop :=
  ∀ e ∈ l, blank (stringifyEvent e) = false ∧
    ∃ r, reading rt limit (stringifyEvent e) = some r ∧ r.event = e

theorem linesOf_readBack {limit : ℕ} (h : ReadBack rt limit l) (n : ℕ) :
    (linesOf rt limit file n (l.map stringifyEvent)).map (fun x => x.event) = l := by
  induction l generalizing n with
  | nil => rfl
  | cons e l ih =>
      obtain ⟨hblank, r, hr, hre⟩ := h e List.mem_cons_self
      rw [List.map_cons, linesOf, if_neg (by rw [hblank]; decide), hr]
      dsimp only
      rw [List.map_cons, hre, ih (fun e he => h e (List.mem_cons_of_mem _ he))]

/-- Lines with distinct event ids are all fresh. -/
theorem freshLines_eq {ls : List Line} (h : (ls.map Line.eventId).Nodup) : freshLines ls = ls := by
  induction ls using List.reverseRecOn with
  | nil => rfl
  | append_singleton ls x ih =>
      rw [List.map_append, List.nodup_append] at h
      have hnew : ¬ ∃ y ∈ ls, y.eventId = x.eventId := by
        rintro ⟨y, hy, heq⟩
        exact h.2.2 _ (List.mem_map_of_mem hy) _ (by simp) heq
      rw [freshLines, fresh_append, freshAfter_singleton, if_neg hnew, ← freshLines, ih h.1]

/-- The lines of events that are read back are their log. -/
theorem runLog_readBack (hids : (l.map (fun e => e.envelope.eventId)).Nodup)
    (hread : ReadBack rt (eventLimit options) l) :
    ((allLines rt options [⟨l.map stringifyEvent, file, true⟩]).map Line.eventId).Nodup ∧
      runLog rt options [⟨l.map stringifyEvent, file, true⟩] = l := by
  have hlines : allLines rt options [⟨l.map stringifyEvent, file, true⟩] =
      linesOf rt (eventLimit options) file 0 (l.map stringifyEvent) := by
    simp [allLines, callLines]
  generalize hls : linesOf rt (eventLimit options) file 0 (l.map stringifyEvent) = ls at hlines
  have hevents : ls.map (fun x => x.event) = l := hls ▸ linesOf_readBack hread 0
  have hnodup : (ls.map Line.eventId).Nodup := by
    have hmap : ls.map Line.eventId =
        (ls.map (fun x => x.event)).map (fun e => e.envelope.eventId) := by
      rw [List.map_map]
      rfl
    rw [hmap, hevents]
    exact hids
  refine ⟨by rwa [hlines], ?_⟩
  rw [runLog, hlines, logOf, freshLines_eq hnodup, hevents]

/-- The file of a session whose roles keep to their guard is taken without an error. -/
theorem errorFree_of_roles {run session : Text} {rs : List Role}
    (hn : Numbered run session l rs) (hg : Admissible Role.RoleGuard rs)
    (hids : (l.map (fun e => e.envelope.eventId)).Nodup)
    (hread : ReadBack rt (eventLimit options) l) :
    ErrorFree (feedAll rt options [⟨l.map stringifyEvent, file, true⟩]).diagnostics ∧
      runLog rt options [⟨l.map stringifyEvent, file, true⟩] = l := by
  obtain ⟨hnodup, hlog⟩ := runLog_readBack hids hread
  refine ⟨(feedAll_spec rt options _).1.mpr ⟨?_, ?_, ?_, ?_⟩, hlog⟩
  · intro c hc raw hraw
    obtain rfl := List.mem_singleton.mp hc
    obtain ⟨e, he, rfl⟩ := List.mem_map.mp hraw
    obtain ⟨-, r, hr, -⟩ := hread e he
    exact .inr (by rw [hr]; rfl)
  · intro x hx y hy heq
    obtain rfl := List.inj_on_of_nodup_map hnodup hx hy heq
    rfl
  · rw [hlog]
    exact hn.lifecycle hg
  · have hcall : callEvents rt options [] ⟨l.map stringifyEvent, file, true⟩ = l := by
      refine Eq.trans ?_ hlog
      simp [callEvents, runLog, allLines, eventsAfter, logOf, freshLines, fresh]
    intro p c s hcalls
    obtain ⟨rfl, hc⟩ := List.append_eq_singleton_iff.mp hcalls.symm |>.resolve_right (by simp)
    obtain ⟨rfl, rfl⟩ := List.cons.inj hc
    rw [hcall]
    exact hn.fileGuard hg

end file

end QeReport

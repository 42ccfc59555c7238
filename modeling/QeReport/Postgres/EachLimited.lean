import Mathlib.Data.List.Perm.Basic
import Mathlib.Data.List.Range
import Mathlib.Logic.Relation
import Mathlib.Tactic.SplitIfs

/-! # Bounded concurrency

`eachLimited` runs a function over some items with a number of workers that share a counter and a
failure.  A worker runs undisturbed up to the promise it awaits; which promise settles next, and
which worker goes on next, is open.  What has happened is kept in a log. -/

namespace QeReport.Postgres.EachLimited

/-! ### The program -/

/-- What the call for an index does: throw at once, or give a promise that fails or not. -/
inductive Call (ε : Type) where
  | throws (e : ε)
  | rejects (e : ε)
  | resolves
deriving DecidableEq

/-- What a call fails with. -/
def Call.failure? {ε : Type} : Call ε → Option ε
  | .throws e => some e
  | .rejects e => some e
  | .resolves => none

/-- What has happened: a call was started, has come to its end, or its failure was caught. -/
inductive Event (ε : Type) where
  | started (i : ℕ)
  | settled (i : ℕ)
  | caught (i : ℕ) (e : ε)
deriving DecidableEq

/-- A worker: it awaits the promise of a call, or the promise has settled, or its loop is over. -/
inductive Worker where
  | waiting (i : ℕ)
  | ready (i : ℕ)
  | finished
deriving DecidableEq

/-- What the workers share: `next`, and `failed` with `failure`. -/
structure Shared (ε : Type) where
  next : ℕ
  failure : Option ε
  log : List (Event ε)

structure Run (ε : Type) where
  shared : Shared ε
  workers : List Worker

section program
variable {ε : Type} (fn : ℕ → Call ε) (n : ℕ)

/-- The `catch` block. -/
def Shared.caught (s : Shared ε) (i : ℕ) (e : ε) : Shared ε :=
  { s with failure := s.failure.or (some e), log := s.log ++ [.caught i e] }

/-- The loop of a worker up to its next `await`, or to its end. -/
def loop (s : Shared ε) : Shared ε × Worker :=
  if s.next < n ∧ s.failure.isNone = true then
    let i := s.next
    let s := { s with next := i + 1, log := s.log ++ [.started i] }
    match fn i with
    -- the failure is recorded, so the loop ends at its next test
    | .throws e => (({ s with log := s.log ++ [.settled i] } : Shared ε).caught i e, .finished)
    | _ => (s, .waiting i)
  else (s, .finished)

/-- `Array.from({ length }, worker)`: the workers run one after the other up to their `await`. -/
def spawn : ℕ → Run ε → Run ε
  | 0, r => r
  | length + 1, r =>
      let (s, w) := loop fn n r.shared
      spawn length ⟨s, r.workers ++ [w]⟩

/-- `eachLimited` up to where it awaits its workers. -/
def begin (limit : ℕ) : Run ε := spawn fn n (Nat.min limit n) ⟨⟨0, none, []⟩, []⟩

/-- The promise that a worker awaits settles. -/
def settle (r : Run ε) (j : ℕ) : Option (Run ε) :=
  match r.workers[j]? with
  | some (.waiting i) =>
      some ⟨{ r.shared with log := r.shared.log ++ [.settled i] }, r.workers.set j (.ready i)⟩
  | _ => none

/-- A worker goes on behind its `await`. -/
def resume (r : Run ε) (j : ℕ) : Option (Run ε) :=
  match r.workers[j]? with
  | some (.ready i) =>
      let s := match (fn i).failure? with
        | some e => r.shared.caught i e
        | none => r.shared
      let (s, w) := loop fn n s
      some ⟨s, r.workers.set j w⟩
  | _ => none

/-- One step: any promise settles, or any worker whose promise has settled goes on. -/
def Step (r r' : Run ε) : Prop := ∃ j, settle r j = some r' ∨ resume fn n r j = some r'

/-- The runs that can be reached. -/
def Reachable (limit : ℕ) (r : Run ε) : Prop :=
  Relation.ReflTransGen (Step fn n) (begin fn n limit) r

/-- What `eachLimited` gives once all of its workers are over. -/
def Run.result (r : Run ε) : Option (Except ε Unit) :=
  if r.workers.all (· = .finished) then
    match r.shared.failure with
    | some e => some (.error e)
    | none => some (.ok ())
  else none

end program

/-! ### What has happened -/

section log
variable {ε : Type}

def started (log : List (Event ε)) : List ℕ :=
  log.filterMap (fun | .started i => some i | _ => none)

def settled (log : List (Event ε)) : List ℕ :=
  log.filterMap (fun | .settled i => some i | _ => none)

def caught (log : List (Event ε)) : List (ℕ × ε) :=
  log.filterMap (fun | .caught i e => some (i, e) | _ => none)

/-- The calls whose promises are pending. -/
def inFlight (workers : List Worker) : List ℕ :=
  workers.filterMap (fun | .waiting i => some i | _ => none)

/-- The log from the first failure that was caught on. -/
def sinceFailure (log : List (Event ε)) : List (Event ε) :=
  log.dropWhile (fun | .caught _ _ => false | _ => true)

theorem started_append (l l' : List (Event ε)) : started (l ++ l') = started l ++ started l' :=
  List.filterMap_append

theorem settled_append (l l' : List (Event ε)) : settled (l ++ l') = settled l ++ settled l' :=
  List.filterMap_append

theorem caught_append (l l' : List (Event ε)) : caught (l ++ l') = caught l ++ caught l' :=
  List.filterMap_append

/-- What follows the first failure, in a log that goes on. -/
theorem sinceFailure_append (l l' : List (Event ε)) : sinceFailure (l ++ l') =
    if caught l = [] then sinceFailure l' else sinceFailure l ++ l' := by
  induction l with
  | nil => rfl
  | cons e l ih =>
      cases e with
      | started i => exact ih
      | settled i => exact ih
      | caught i e => rfl

end log

/-! ### The invariant -/

section invariant
variable {ε : Type} (fn : ℕ → Call ε) (n : ℕ)

/-- What holds of the shared state and the workers at every time. -/
structure Keeps (s : Shared ε) (workers : List Worker) : Prop where
  next_le : s.next ≤ n
  started : started s.log = List.range s.next
  /-- Every call that was started has come to its end or is in flight. -/
  open_or_settled : (settled s.log ++ inFlight workers).Perm (List.range s.next)
  first : s.failure = (caught s.log).head?.map Prod.snd
  quiet : EachLimited.started (sinceFailure s.log) = []
  genuine : ∀ c ∈ caught s.log, (fn c.1).failure? = some c.2
  /-- A failure is caught once its worker goes on. -/
  handled : ∀ i ∈ settled s.log, .ready i ∈ workers ∨ (fn i).failure? = none ∨
    ∃ e, (i, e) ∈ caught s.log
  ended : .finished ∈ workers → s.failure ≠ none ∨ s.next = n

variable {fn n} {s : Shared ε} {ws ws' : List Worker}

theorem Keeps.perm (h : Keeps fn n s ws) (hp : ws.Perm ws') : Keeps fn n s ws' where
  next_le := h.next_le
  started := h.started
  open_or_settled := ((hp.symm.filterMap _).append_left (settled s.log)).trans h.open_or_settled
  first := h.first
  quiet := h.quiet
  genuine := h.genuine
  handled i hi := (h.handled i hi).imp_left hp.mem_iff.mp
  ended hf := h.ended (hp.mem_iff.mpr hf)

theorem Keeps.caught_nil (h : Keeps fn n s ws) (hnone : s.failure = none) : caught s.log = [] := by
  have hhead := h.first
  rw [hnone, eq_comm, Option.map_eq_none_iff, List.head?_eq_none_iff] at hhead
  exact hhead

/-- Starting a call keeps the invariant, with a worker that waits for it. -/
theorem Keeps.start (h : Keeps fn n s ws) (hnext : s.next < n) (hnone : s.failure = none) :
    Keeps fn n { s with next := s.next + 1, log := s.log ++ [.started s.next] }
      (.waiting s.next :: ws) where
  next_le := hnext
  started := by
    rw [started_append, h.started, List.range_succ]
    rfl
  open_or_settled := by
    have hsettled : settled (s.log ++ [.started s.next]) = settled s.log := by
      rw [settled_append]
      exact List.append_nil _
    have hflight : inFlight (.waiting s.next :: ws) = s.next :: inFlight ws := rfl
    rw [hsettled, hflight, List.range_succ]
    apply List.perm_middle.trans
    apply (h.open_or_settled.cons s.next).trans
    exact (List.perm_append_singleton s.next _).symm
  first := by
    rw [caught_append, h.caught_nil hnone, hnone]
    rfl
  quiet := by
    rw [sinceFailure_append, if_pos (h.caught_nil hnone)]
    rfl
  genuine := by
    rw [caught_append, h.caught_nil hnone]
    exact fun c hc => absurd hc List.not_mem_nil
  handled := by
    intro i hi
    rw [settled_append] at hi
    rcases List.mem_append.mp hi with hi | hi
    · rw [caught_append]
      rcases h.handled i hi with hready | hfine | ⟨e, he⟩
      · exact .inl (List.mem_cons_of_mem _ hready)
      · exact .inr (.inl hfine)
      · exact .inr (.inr ⟨e, List.mem_append_left _ he⟩)
    · exact absurd hi List.not_mem_nil
  ended := by
    intro hover
    rcases List.mem_cons.mp hover with hover | hover
    · cases hover
    · rcases h.ended hover with hfail | heq
      · exact absurd hnone hfail
      · omega

/-- The promise of a call settles. -/
theorem Keeps.settle {i : ℕ} (h : Keeps fn n s (.waiting i :: ws)) :
    Keeps fn n { s with log := s.log ++ [.settled i] } (.ready i :: ws) where
  next_le := h.next_le
  started := by
    rw [started_append, h.started]
    exact List.append_nil _
  open_or_settled := by
    have hopen := h.open_or_settled
    have hflight : inFlight (.waiting i :: ws) = i :: inFlight ws := rfl
    rw [hflight] at hopen
    rw [settled_append, List.append_assoc]
    exact hopen
  first := by
    rw [caught_append, h.first]
    exact congrArg _ (congrArg _ (List.append_nil _).symm)
  quiet := by
    rw [sinceFailure_append]
    split_ifs
    · rfl
    · rw [started_append, h.quiet]
      rfl
  genuine := by
    intro c hc
    rw [caught_append] at hc
    rcases List.mem_append.mp hc with hc | hc
    · exact h.genuine c hc
    · exact absurd hc List.not_mem_nil
  handled := by
    intro k hk
    rw [settled_append] at hk
    rcases List.mem_append.mp hk with hk | hk
    · rw [caught_append]
      rcases h.handled k hk with hready | hfine | ⟨e, he⟩
      · rcases List.mem_cons.mp hready with hready | hready
        · cases hready
        · exact .inl (List.mem_cons_of_mem _ hready)
      · exact .inr (.inl hfine)
      · exact .inr (.inr ⟨e, List.mem_append_left _ he⟩)
    · rw [List.mem_singleton.mp hk]
      exact .inl List.mem_cons_self
  ended := by
    intro hover
    rcases List.mem_cons.mp hover with hover | hover
    · cases hover
    · exact h.ended (List.mem_cons_of_mem _ hover)

/-- The failure of a call is caught. -/
theorem Keeps.catch {i : ℕ} {e : ε} (h : Keeps fn n s (.ready i :: ws))
    (he : (fn i).failure? = some e) : Keeps fn n (s.caught i e) ws where
  next_le := h.next_le
  started := by
    rw [Shared.caught, started_append, h.started]
    exact List.append_nil _
  open_or_settled := by
    rw [Shared.caught, settled_append]
    exact (List.append_nil (settled s.log)).symm ▸ h.open_or_settled
  first := by
    rw [Shared.caught, caught_append, List.head?_append, h.first]
    cases hhead : (caught s.log).head? with
    | none => rfl
    | some c => rfl
  quiet := by
    rw [Shared.caught, sinceFailure_append]
    split_ifs
    · rfl
    · rw [started_append, h.quiet]
      rfl
  genuine := by
    intro c hc
    rw [Shared.caught, caught_append] at hc
    rcases List.mem_append.mp hc with hc | hc
    · exact h.genuine c hc
    · rw [List.mem_singleton.mp hc]
      exact he
  handled := by
    intro k hk
    rw [Shared.caught, settled_append] at hk
    rw [Shared.caught, caught_append]
    rcases List.mem_append.mp hk with hk | hk
    · rcases h.handled k hk with hready | hfine | ⟨f, hf⟩
      · rcases List.mem_cons.mp hready with hready | hready
        · cases hready
          exact .inr (.inr ⟨e, List.mem_append_right _ List.mem_cons_self⟩)
        · exact .inl hready
      · exact .inr (.inl hfine)
      · exact .inr (.inr ⟨f, List.mem_append_left _ hf⟩)
    · exact absurd hk List.not_mem_nil
  ended := by
    intro hover
    left
    rw [Shared.caught]
    cases hfail : s.failure <;> simp

/-- A call that has come to its end without a failure is left behind. -/
theorem Keeps.leave {i : ℕ} (h : Keeps fn n s (.ready i :: ws)) (hi : (fn i).failure? = none) :
    Keeps fn n s ws where
  next_le := h.next_le
  started := h.started
  open_or_settled := h.open_or_settled
  first := h.first
  quiet := h.quiet
  genuine := h.genuine
  handled := by
    intro k hk
    rcases h.handled k hk with hready | hrest
    · rcases List.mem_cons.mp hready with hready | hready
      · cases hready
        exact .inr (.inl hi)
      · exact .inl hready
    · exact .inr hrest
  ended hover := h.ended (List.mem_cons_of_mem _ hover)

/-- A worker whose loop is over. -/
theorem Keeps.finish (h : Keeps fn n s ws) (hover : s.failure ≠ none ∨ s.next = n) :
    Keeps fn n s (.finished :: ws) where
  next_le := h.next_le
  started := h.started
  open_or_settled := h.open_or_settled
  first := h.first
  quiet := h.quiet
  genuine := h.genuine
  handled i hi := (h.handled i hi).imp_left (List.mem_cons_of_mem _)
  ended _ := hover

/-- The loop of a worker keeps the invariant, with the worker. -/
theorem Keeps.loop (h : Keeps fn n s ws) :
    Keeps fn n (loop fn n s).1 ((loop fn n s).2 :: ws) := by
  rw [EachLimited.loop]
  split_ifs with hstart
  · obtain ⟨hnext, hfail⟩ := hstart
    have hwait := h.start hnext (Option.isNone_iff_eq_none.mp hfail)
    dsimp only
    cases hfn : fn s.next with
    | resolves => exact hwait
    | rejects e => exact hwait
    | throws e =>
        have hcatch := hwait.settle.catch (e := e) (by rw [hfn]; rfl)
        apply hcatch.finish
        left
        dsimp only [Shared.caught]
        cases s.failure <;> simp
  · apply h.finish
    rw [not_and_or, Nat.not_lt, Bool.not_eq_true, Option.isNone_eq_false_iff,
      Option.isSome_iff_ne_none] at hstart
    rcases hstart with hle | hfail
    · exact .inr (Nat.le_antisymm h.next_le hle)
    · exact .inl hfail

/-! ### Every run -/

/-- What holds in every run. -/
structure Run.Sound (fn : ℕ → Call ε) (n limit : ℕ) (r : Run ε) : Prop where
  keeps : Keeps fn n r.shared r.workers
  length : r.workers.length = Nat.min limit n

theorem spawn_sound (k : ℕ) {r : Run ε} (h : Keeps fn n r.shared r.workers) :
    Keeps fn n (spawn fn n k r).shared (spawn fn n k r).workers ∧
      (spawn fn n k r).workers.length = r.workers.length + k := by
  induction k generalizing r with
  | zero => exact ⟨h, rfl⟩
  | succ k ih =>
      obtain ⟨hkeeps, hlength⟩ := ih (r := ⟨(EachLimited.loop fn n r.shared).1,
        r.workers ++ [(EachLimited.loop fn n r.shared).2]⟩)
        (h.loop.perm (List.perm_append_singleton _ _).symm)
      refine ⟨hkeeps, hlength.trans ?_⟩
      rw [List.length_append, List.length_singleton, Nat.add_assoc, Nat.add_comm 1]

theorem begin_sound (limit : ℕ) : (begin fn n limit).Sound fn n limit := by
  have hempty : Keeps fn n (⟨0, none, []⟩ : Shared ε) [] := {
    next_le := Nat.zero_le n
    started := rfl
    open_or_settled := List.Perm.refl _
    first := rfl
    quiet := rfl
    genuine := fun c hc => absurd hc List.not_mem_nil
    handled := fun i hi => absurd hi List.not_mem_nil
    ended := fun hover => absurd hover List.not_mem_nil }
  obtain ⟨hkeeps, hlength⟩ := spawn_sound (Nat.min limit n) (r := ⟨⟨0, none, []⟩, []⟩) hempty
  exact ⟨hkeeps, hlength.trans (Nat.zero_add _)⟩

/-- A worker that is replaced by another. -/
theorem set_perm {j : ℕ} {w : Worker} (hj : ws[j]? = some w) (w' : Worker) :
    ws.Perm (w :: ws.eraseIdx j) ∧ (w' :: ws.eraseIdx j).Perm (ws.set j w') := by
  obtain ⟨hlt, rfl⟩ := List.getElem?_eq_some_iff.mp hj
  exact ⟨(List.getElem_cons_eraseIdx_perm hlt).symm, (List.set_perm_cons_eraseIdx hlt w').symm⟩

theorem Run.Sound.step {limit : ℕ} {r r' : Run ε} (h : r.Sound fn n limit) (hstep : Step fn n r r') :
    r'.Sound fn n limit := by
  obtain ⟨j, hsettle | hresume⟩ := hstep
  · rw [EachLimited.settle] at hsettle
    split at hsettle
    · rename_i i hj
      obtain rfl := Option.some.inj hsettle
      obtain ⟨hold, hnew⟩ := set_perm hj (.ready i)
      exact ⟨((h.keeps.perm hold).settle).perm hnew, by rw [List.length_set, h.length]⟩
    · cases hsettle
  · rw [resume] at hresume
    split at hresume
    · rename_i i hj
      obtain rfl := Option.some.inj hresume
      refine ⟨?_, by rw [List.length_set, h.length]⟩
      cases hfail : (fn i).failure? with
      | none =>
          obtain ⟨hold, hnew⟩ := set_perm hj (EachLimited.loop fn n r.shared).2
          exact ((h.keeps.perm hold).leave hfail).loop.perm hnew
      | some e =>
          obtain ⟨hold, hnew⟩ := set_perm hj (EachLimited.loop fn n (r.shared.caught i e)).2
          exact ((h.keeps.perm hold).catch hfail).loop.perm hnew
    · cases hresume

theorem Reachable.sound {limit : ℕ} {r : Run ε} (h : Reachable fn n limit r) :
    r.Sound fn n limit := by
  have hrun : Relation.ReflTransGen (Step fn n) (begin fn n limit) r := h
  induction hrun with
  | refl => exact begin_sound limit
  | tail hbefore hstep ih => exact (ih hbefore).step hstep

/-! ### What a run can be relied on for -/

theorem inFlight_finished (hall : ws.all (· = .finished) = true) : inFlight ws = [] := by
  apply List.filterMap_eq_nil_iff.mpr
  intro w hw
  rw [of_decide_eq_true (List.all_eq_true.mp hall w hw)]

/-- A result is given once every worker is over. -/
theorem Run.result_eq_some {r : Run ε} {x : Except ε Unit} (h : r.result = some x) :
    r.workers.all (· = .finished) = true ∧
      x = match r.shared.failure with
        | some e => .error e
        | none => .ok () := by
  rw [Run.result] at h
  split_ifs at h with hall
  refine ⟨hall, ?_⟩
  cases hfail : r.shared.failure <;> rw [hfail] at h <;> exact (Option.some.inj h).symm

/-- By then every call that was started has come to its end. -/
theorem Run.Sound.settled_all {limit : ℕ} {r : Run ε} (h : r.Sound fn n limit)
    (hall : r.workers.all (· = .finished) = true) :
    (settled r.shared.log).Perm (EachLimited.started r.shared.log) := by
  have hopen := h.keeps.open_or_settled
  rwa [inFlight_finished hall, List.append_nil, ← h.keeps.started] at hopen

/-- Without a failure every index has been run, and none of the calls failed. -/
theorem Run.Sound.complete {limit : ℕ} (hlimit : 0 < limit) {r : Run ε} (h : r.Sound fn n limit)
    (hall : r.workers.all (· = .finished) = true) (hnone : r.shared.failure = none) :
    r.shared.next = n ∧ ∀ i < n, fn i = .resolves := by
  have hnext : r.shared.next = n := by
    cases hworkers : r.workers with
    | nil =>
        have hlength := h.length
        rw [hworkers, List.length_nil] at hlength
        have hle := h.keeps.next_le
        have hmin : Nat.min limit n = limit ∨ Nat.min limit n = n := by
          rcases Nat.le_total limit n with hln | hln
          · exact .inl (Nat.min_eq_left hln)
          · exact .inr (Nat.min_eq_right hln)
        omega
    | cons w ws =>
        have hw : w = .finished := by
          rw [hworkers] at hall
          exact of_decide_eq_true (List.all_eq_true.mp hall w List.mem_cons_self)
        rcases h.keeps.ended (by rw [hworkers, hw]; exact List.mem_cons_self) with hfail | heq
        · exact absurd hnone hfail
        · exact heq
  refine ⟨hnext, fun i hi => ?_⟩
  have hsettled : i ∈ settled r.shared.log := by
    rw [(h.settled_all hall).mem_iff, h.keeps.started, hnext]
    exact List.mem_range.mpr hi
  rcases h.keeps.handled i hsettled with hready | hfine | ⟨e, he⟩
  · cases of_decide_eq_true (List.all_eq_true.mp hall _ hready)
  · cases hfn : fn i with
    | resolves => rfl
    | throws e => simp [hfn, Call.failure?] at hfine
    | rejects e => simp [hfn, Call.failure?] at hfine
  · rw [h.keeps.caught_nil hnone] at he
    exact absurd he List.not_mem_nil

/-- Nothing is started behind a failure that was caught. -/
theorem started_of_quiet {log l l' : List (Event ε)} {i : ℕ} {e : ε}
    (h : EachLimited.started (sinceFailure log) = []) (hlog : log = l ++ .caught i e :: l') :
    EachLimited.started l' = [] := by
  rw [hlog, sinceFailure_append] at h
  split_ifs at h
  · exact h
  · rw [started_append, List.append_eq_nil_iff] at h
    exact h.2

/-- The first failure of a log stands behind no other. -/
theorem caught_split {log : List (Event ε)} {i : ℕ} {e : ε} (h : (caught log).head? = some (i, e)) :
    ∃ l l', log = l ++ .caught i e :: l' ∧ caught l = [] := by
  induction log with
  | nil => cases h
  | cons x log ih =>
      cases x with
      | started k =>
          obtain ⟨l, l', hlog, hl⟩ := ih h
          exact ⟨.started k :: l, l', by rw [hlog]; rfl, hl⟩
      | settled k =>
          obtain ⟨l, l', hlog, hl⟩ := ih h
          exact ⟨.settled k :: l, l', by rw [hlog]; rfl, hl⟩
      | caught k f =>
          obtain ⟨rfl, rfl⟩ := Prod.mk.inj (Option.some.inj h)
          exact ⟨[], log, rfl, rfl⟩

/-- A run that has no result can go on. -/
theorem Run.progress (fn : ℕ → Call ε) (n : ℕ) {r : Run ε} (h : r.result = none) :
    ∃ r', Step fn n r r' := by
  have hopen : ∃ w ∈ r.workers, w ≠ .finished := by
    refine Classical.byContradiction (fun hno => ?_)
    have hall : r.workers.all (· = .finished) = true := by
      apply List.all_eq_true.mpr
      intro w hw
      exact decide_eq_true (Classical.byContradiction (fun hne => hno ⟨w, hw, hne⟩))
    rw [Run.result, if_pos hall] at h
    cases hfail : r.shared.failure <;> simp [hfail] at h
  obtain ⟨w, hw, hne⟩ := hopen
  obtain ⟨j, hj⟩ := List.mem_iff_getElem?.mp hw
  cases w with
  | waiting i => exact ⟨_, j, .inl (by rw [EachLimited.settle, hj])⟩
  | ready i => exact ⟨_, j, .inr (by rw [resume, hj])⟩
  | finished => exact absurd rfl hne

/-- Whatever the function does and in whatever order its promises settle: no more calls than the
limit are in flight, the indexes are started once each and in their order, none behind a failure
that was caught, and the result is the first of these, or that every call has succeeded; it is
given when every call that was started has come to its end. -/
theorem eachLimited_schedules {limit : ℕ} (hlimit : 0 < limit) {r : Run ε}
    (h : Reachable fn n limit r) :
    (inFlight r.workers).length ≤ limit ∧
      (EachLimited.started r.shared.log = List.range r.shared.next ∧ r.shared.next ≤ n) ∧
      (∀ l l' i e, r.shared.log = l ++ .caught i e :: l' → EachLimited.started l' = []) ∧
      (r.result = some (.ok ()) → EachLimited.started r.shared.log = List.range n ∧
        (settled r.shared.log).Perm (List.range n) ∧ ∀ i < n, fn i = .resolves) ∧
      (∀ e, r.result = some (.error e) →
        (∃ i l l', r.shared.log = l ++ .caught i e :: l' ∧ caught l = [] ∧
          (fn i).failure? = some e) ∧
        (settled r.shared.log).Perm (EachLimited.started r.shared.log)) ∧
      (r.result = none → ∃ r', Step fn n r r') := by
  have hsound := h.sound
  refine ⟨?_, ⟨hsound.keeps.started, hsound.keeps.next_le⟩, ?_, ?_, ?_, Run.progress fn n⟩
  · calc (inFlight r.workers).length ≤ r.workers.length := List.length_filterMap_le _ _
      _ = Nat.min limit n := hsound.length
      _ ≤ limit := Nat.min_le_left _ _
  · intro l l' i e hlog
    exact started_of_quiet hsound.keeps.quiet hlog
  · intro hresult
    obtain ⟨hall, hok⟩ := Run.result_eq_some hresult
    cases hfail : r.shared.failure with
    | some e => simp [hfail] at hok
    | none =>
        obtain ⟨hnext, hfine⟩ := hsound.complete hlimit hall hfail
        have hstarted := hsound.keeps.started
        rw [hnext] at hstarted
        exact ⟨hstarted, hstarted ▸ hsound.settled_all hall, hfine⟩
  · intro e hresult
    obtain ⟨hall, herror⟩ := Run.result_eq_some hresult
    have hfirst := hsound.keeps.first
    cases hfail : r.shared.failure with
    | none => simp [hfail] at herror
    | some f =>
        simp only [hfail, Except.error.injEq] at herror
        rw [hfail, eq_comm, Option.map_eq_some_iff] at hfirst
        obtain ⟨⟨i, g⟩, hhead, hg⟩ := hfirst
        have hge : g = e := hg.trans herror.symm
        subst hge
        obtain ⟨l, l', hlog, hl⟩ := caught_split hhead
        exact ⟨⟨i, l, l', hlog, hl, hsound.keeps.genuine (i, g) (List.mem_of_head? hhead)⟩,
          hsound.settled_all hall⟩

end invariant

namespace Sample

/-- The second of three calls fails. -/
def failing (i : ℕ) : Call ℕ := if i = 1 then .rejects 7 else .resolves

/-- Two calls are in flight when the second fails first; the third is never started. -/
def ended : Run ℕ :=
  ⟨⟨2, some 7, [.started 0, .started 1, .settled 1, .caught 1 7, .settled 0]⟩,
    [.finished, .finished]⟩

theorem reachable : Reachable failing 3 2 ended := by
  refine .head ⟨1, .inl rfl⟩ ?_
  refine .head ⟨1, .inr rfl⟩ ?_
  refine .head ⟨0, .inl rfl⟩ ?_
  exact .single ⟨0, .inr rfl⟩

end Sample

/-- Two workers over three items, of which one fails. -/
theorem eachLimited_schedules_failing :
    Sample.ended.result = some (.error 7) ∧
      (settled Sample.ended.shared.log).Perm (started Sample.ended.shared.log) ∧
      ∃ i l l', Sample.ended.shared.log = l ++ .caught i 7 :: l' ∧ caught l = [] ∧
        (Sample.failing i).failure? = some 7 := by
  obtain ⟨hfirst, hsettled⟩ :=
    (eachLimited_schedules (by decide) Sample.reachable).2.2.2.2.1 7 rfl
  exact ⟨rfl, hsettled, hfirst⟩

end QeReport.Postgres.EachLimited

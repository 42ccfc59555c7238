import Mathlib.Data.List.Basic
import Mathlib.Logic.Basic

/-! # Reading with questions

A reader that leaves some decisions open: a `Form` is a value that depends on the answers to the
questions it asks, and a `Scan` a reader that either fails or gives a form.  How a scan goes on
never depends on an answer, so that under answers that may be missing (`Scan.run`) it succeeds
exactly when the scan gives a form and every question of it is answered
(`Scan.run_isSome`), and two ways of answering that do not contradict each other give one value
(`Scan.run_unique`). -/

namespace QeReport

/-- A value that depends on the answers to some questions. -/
structure Form (Q V α : Type) where
  asked : List Q
  value : (Q → V) → α
  uses : ∀ v w, (∀ q ∈ asked, v q = w q) → value v = value w

/-- A reader that fails or gives a form. -/
def Scan (Q V α : Type) := Option (Form Q V α)

variable {Q V α β : Type}

namespace Form

def pure (a : α) : Form Q V α := ⟨[], fun _ => a, fun _ _ _ => rfl⟩

def ask (q : Q) : Form Q V V := ⟨[q], fun v => v q, fun _ _ h => h q List.mem_cons_self⟩

def seq (f : Form Q V (α → β)) (x : Form Q V α) : Form Q V β where
  asked := f.asked ++ x.asked
  value v := f.value v (x.value v)
  uses v w h := by
    rw [f.uses v w (fun q hq => h q (List.mem_append_left _ hq)),
      x.uses v w (fun q hq => h q (List.mem_append_right _ hq))]

end Form

namespace Scan

def fail : Scan Q V α := none

def ask (q : Q) : Scan Q V V := some (.ask q)

/-- A reader that asks nothing. -/
def lift (x : Option α) : Scan Q V α := x.map .pure

instance : Applicative (Scan Q V) where
  pure a := some (.pure a)
  seq f x := Option.bind f (fun f => Option.map (fun x => f.seq x) (x ()))

/-- The items of a list one after another. -/
def list (scan : β → Scan Q V α) : List β → Scan Q V (List α)
  | [] => Pure.pure []
  | b :: bs => List.cons <$> scan b <*> list scan bs

/-- What the scan asks, when it gives a form. -/
def asked (s : Scan Q V α) : List Q := (Option.map Form.asked s).getD []

section asked
variable {q : Q}

theorem mem_asked_lift {x : Option α} (h : q ∈ (lift x : Scan Q V α).asked) : False := by
  cases x with
  | none => cases h
  | some a => cases h

theorem mem_asked_seq {f : Scan Q V (α → β)} {x : Scan Q V α} (h : q ∈ (f <*> x).asked) :
    q ∈ f.asked ∨ q ∈ x.asked := by
  cases f with
  | none => cases h
  | some f =>
      cases x with
      | none => cases h
      | some x => exact List.mem_append.mp h

theorem mem_asked_map {g : α → β} {x : Scan Q V α} (h : q ∈ (g <$> x).asked) : q ∈ x.asked := by
  rcases mem_asked_seq (f := Pure.pure g) h with h | h
  · cases h
  · exact h

theorem mem_asked_list {scan : β → Scan Q V α} {bs : List β} (h : q ∈ (list scan bs).asked) :
    ∃ b ∈ bs, q ∈ (scan b).asked := by
  induction bs with
  | nil => cases h
  | cons b bs ih =>
      rcases mem_asked_seq h with h | h
      · exact ⟨b, List.mem_cons_self, mem_asked_map h⟩
      · obtain ⟨c, hc, h⟩ := ih h
        exact ⟨c, List.mem_cons_of_mem _ hc, h⟩

end asked

section run
variable [Inhabited V] (answer : Q → Option V)

/-- What a scan reads under the given answers. -/
def run (s : Scan Q V α) : Option α :=
  Option.bind s (fun f =>
    if f.asked.all (fun q => (answer q).isSome) then some (f.value (fun q => (answer q).getD default))
    else none)

@[simp] theorem run_fail : run answer (fail : Scan Q V α) = none := rfl

@[simp] theorem run_pure (a : α) : run answer (Pure.pure a : Scan Q V α) = some a := rfl

@[simp] theorem run_lift (x : Option α) : run answer (lift x : Scan Q V α) = x := by
  cases x <;> rfl

@[simp] theorem run_ask (q : Q) : run answer (ask q) = answer q := by
  unfold run ask Form.ask
  cases h : answer q with
  | none => simp [h]
  | some v => simp [h]

@[simp] theorem run_seq (f : Scan Q V (α → β)) (x : Scan Q V α) :
    run answer (f <*> x) = run answer f <*> run answer x := by
  cases f with
  | none => rfl
  | some f =>
      cases x with
      | none =>
          change none = run answer (some f) <*> none
          cases run answer (some f) <;> rfl
      | some x =>
          change run answer (some (f.seq x)) = _
          unfold run
          simp only [Option.bind_some, Form.seq, List.all_append]
          cases f.asked.all (fun q => (answer q).isSome) with
          | false => rfl
          | true =>
              cases x.asked.all (fun q => (answer q).isSome) with
              | false => rfl
              | true => rfl

@[simp] theorem run_map (g : α → β) (x : Scan Q V α) :
    run answer (g <$> x) = (run answer x).map g := by
  change run answer (Pure.pure g <*> x) = _
  rw [run_seq, run_pure]
  rfl

theorem run_list (scan : β → Scan Q V α) (bs : List β) :
    run answer (list scan bs) = bs.mapM (fun b => run answer (scan b)) := by
  induction bs with
  | nil => rfl
  | cons b bs ih =>
      rw [list, run_seq, run_map, ih, List.mapM_cons]
      cases run answer (scan b) with
      | none => rfl
      | some a =>
          cases bs.mapM (fun b => run answer (scan b)) with
          | none => rfl
          | some as => rfl

/-- A scan succeeds when it gives a form and every question has an answer. -/
theorem run_isSome (s : Scan Q V α) :
    (run answer s).isSome = true ↔
      s.isSome = true ∧ ∀ q ∈ s.asked, (answer q).isSome = true := by
  cases s with
  | none => simp [run]
  | some f =>
      simp only [run, asked, Option.bind_some, Option.map_some, Option.getD_some,
        Option.isSome_some, true_and]
      split_ifs with h
      · simpa using h
      · simpa using h

end run

/-- Two ways of answering that do not contradict each other give one value. -/
theorem run_unique [Inhabited V] {answer answer' : Q → Option V} {s : Scan Q V α} {a a' : α}
    (h : ∀ q ∈ s.asked, ∀ v v', answer q = some v → answer' q = some v' → v = v')
    (ha : run answer s = some a) (ha' : run answer' s = some a') : a = a' := by
  cases s with
  | none => cases ha
  | some f =>
      simp only [run, Option.bind_some] at ha ha'
      split_ifs at ha ha' with hall hall'
      rw [List.all_eq_true] at hall hall'
      rw [← Option.some.inj ha, ← Option.some.inj ha']
      refine f.uses _ _ (fun q hq => ?_)
      obtain ⟨v, hv⟩ := Option.isSome_iff_exists.mp (hall q hq)
      obtain ⟨v', hv'⟩ := Option.isSome_iff_exists.mp (hall' q hq)
      rw [hv, hv', Option.getD_some, Option.getD_some]
      exact h q hq v v' hv hv'

end Scan

end QeReport

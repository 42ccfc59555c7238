import Mathlib.Data.Nat.Notation
import Mathlib.Logic.Function.Basic
import Mathlib.Order.Basic

/-! # Directory entries and files

A disk of regular files: `entry` gives the file a path names, `content` the bytes of a file.  A
file outlives its entries, since a descriptor that is open on it still reads and writes it.  The
operations are the system calls on entries (`create` with `O_EXCL`, `link`, `unlink`, `rename`)
and `append`, a write at the end of an open file.  Files are numbered in the order of their
creation, and `below` is what every operation keeps: an entry names a file that was created. -/

namespace QeReport

structure Disk (P : Type) where
  entry : P → Option ℕ
  content : ℕ → List ℕ
  /-- The number of files created so far, which is the next file. -/
  created : ℕ
  below : ∀ p f, entry p = some f → f < created

namespace Disk

variable {P : Type}

/-- A write of `bytes` at the end of a file. -/
def append (d : Disk P) (f : ℕ) (bytes : List ℕ) : Disk P :=
  { d with content := Function.update d.content f (d.content f ++ bytes) }

@[simp] theorem entry_append (d : Disk P) (f : ℕ) (bytes : List ℕ) :
    (d.append f bytes).entry = d.entry := rfl

@[simp] theorem content_append (d : Disk P) (f : ℕ) (bytes : List ℕ) :
    (d.append f bytes).content f = d.content f ++ bytes := Function.update_self ..

@[simp] theorem created_append (d : Disk P) (f : ℕ) (bytes : List ℕ) :
    (d.append f bytes).created = d.created := rfl

theorem content_append_ne (d : Disk P) {f g : ℕ} (bytes : List ℕ) (h : g ≠ f) :
    (d.append f bytes).content g = d.content g := Function.update_of_ne h ..

/-- A disk without entries. -/
def empty : Disk P := ⟨fun _ => none, fun _ => [], 0, fun _ _ h => by simp at h⟩

/-- The path names a file. -/
def has (d : Disk P) (p : P) : Bool := (d.entry p).isSome

/-! ### System calls on entries -/

variable [DecidableEq P]

/-- `open(p, O_CREAT | O_EXCL)`: a new empty file, or nothing when the path is taken. -/
def create (d : Disk P) (p : P) : Option (Disk P) :=
  match d.entry p with
  | some _ => none
  | none => some
      { entry := Function.update d.entry p (some d.created)
        content := Function.update d.content d.created []
        created := d.created + 1
        below := by
          intro q f h
          by_cases hq : q = p
          · rw [hq, Function.update_self, Option.some.injEq] at h
            omega
          · rw [Function.update_of_ne hq] at h
            exact Nat.lt_succ_of_lt (d.below q f h) }

/-- `link(p, q)`: a second entry for the file at `p`; nothing when `p` is missing or `q` taken. -/
def link (d : Disk P) (p q : P) : Option (Disk P) :=
  match hp : d.entry p, d.entry q with
  | some f, none => some
      { d with
        entry := Function.update d.entry q (some f)
        below := by
          intro r g h
          by_cases hr : r = q
          · rw [hr, Function.update_self, Option.some.injEq] at h
            exact h ▸ d.below p f hp
          · rw [Function.update_of_ne hr] at h
            exact d.below r g h }
  | _, _ => none

/-- The disk without the entry `p`. -/
def unlink (d : Disk P) (p : P) : Disk P :=
  { d with
    entry := Function.update d.entry p none
    below := by
      intro q f h
      by_cases hq : q = p
      · rw [hq, Function.update_self] at h
        simp at h
      · rw [Function.update_of_ne hq] at h
        exact d.below q f h }

/-- `rename(p, q)`: the file at `p` is named `q` and nothing else; a file at `q` is replaced. -/
def rename (d : Disk P) (p q : P) : Option (Disk P) :=
  match hp : d.entry p with
  | none => none
  | some f => some
      { d with
        entry := Function.update (Function.update d.entry p none) q (some f)
        below := by
          intro r g h
          by_cases hr : r = q
          · rw [hr, Function.update_self, Option.some.injEq] at h
            exact h ▸ d.below p f hp
          · rw [Function.update_of_ne hr] at h
            by_cases hrp : r = p
            · rw [hrp, Function.update_self] at h
              simp at h
            · rw [Function.update_of_ne hrp] at h
              exact d.below r g h }

/-! ### What a call changes -/

theorem create_eq_some {d d' : Disk P} {p : P} (h : d.create p = some d') :
    d.entry p = none ∧ d'.entry = Function.update d.entry p (some d.created) ∧
      d'.content = Function.update d.content d.created [] ∧ d'.created = d.created + 1 := by
  unfold create at h
  cases he : d.entry p with
  | some f => simp [he] at h
  | none =>
      simp only [he, Option.some.injEq] at h
      subst h
      exact ⟨rfl, rfl, rfl, rfl⟩

theorem create_of {d : Disk P} {p : P} (h : d.entry p = none) : ∃ d', d.create p = some d' := by
  unfold create
  split
  · rename_i f hf
    rw [h] at hf
    cases hf
  · exact ⟨_, rfl⟩

theorem link_eq_some {d d' : Disk P} {p q : P} (h : d.link p q = some d') :
    d.entry q = none ∧ d'.content = d.content ∧ d'.created = d.created ∧
      ∃ f, d.entry p = some f ∧ d'.entry = Function.update d.entry q (some f) := by
  unfold link at h
  split at h
  · rename_i f hp hq
    rw [Option.some.injEq] at h
    subst h
    exact ⟨hq, rfl, rfl, f, hp, rfl⟩
  · simp at h

theorem link_of {d : Disk P} {p q : P} {f : ℕ} (hp : d.entry p = some f) (hq : d.entry q = none) :
    ∃ d', d.link p q = some d' := by
  unfold link
  split
  · exact ⟨_, rfl⟩
  · rename_i hneither
    exact absurd hq (hneither f hp)

theorem rename_eq_some {d d' : Disk P} {p q : P} (h : d.rename p q = some d') :
    d'.content = d.content ∧ d'.created = d.created ∧
      ∃ f, d.entry p = some f ∧
        d'.entry = Function.update (Function.update d.entry p none) q (some f) := by
  unfold rename at h
  split at h
  · simp at h
  · rename_i f hp
    rw [Option.some.injEq] at h
    subst h
    exact ⟨rfl, rfl, f, hp, rfl⟩

theorem rename_of {d : Disk P} {p : P} {f : ℕ} (h : d.entry p = some f) (q : P) :
    ∃ d', d.rename p q = some d' := by
  unfold rename
  split
  · rename_i hnone
    rw [h] at hnone
    cases hnone
  · exact ⟨_, rfl⟩

@[simp] theorem entry_unlink (d : Disk P) (p : P) :
    (d.unlink p).entry = Function.update d.entry p none := rfl

@[simp] theorem content_unlink (d : Disk P) (p : P) : (d.unlink p).content = d.content := rfl

@[simp] theorem created_unlink (d : Disk P) (p : P) : (d.unlink p).created = d.created := rfl

end Disk

end QeReport

import QeReport.Lib.Regex

/-! # Where a backtracking run can go on

A matcher tries many lengths, but most repetitions of real patterns can be left in one place only:
at the end of the run of their class, or before a text the class does not hold.  The lemmas below
give the first success of such a repetition without its search. -/

namespace QeReport.Regex
variable {α : Type}

/-! ### Runs of known length -/

/-- The text begins with characters of the given classes, one after the other. -/
def startsWith : List (α → Bool) → List α → Bool
  | [], _ => true
  | _ :: _, [] => false
  | p :: ps, x :: t => p x && startsWith ps t

theorem length_le_of_startsWith {ps : List (α → Bool)} {t : List α} (h : startsWith ps t = true) :
    ps.length ≤ t.length := by
  induction ps generalizing t with
  | nil => exact Nat.zero_le _
  | cons p ps ih =>
      cases t with
      | nil => exact absurd h Bool.false_ne_true
      | cons x t =>
          rw [startsWith, Bool.and_eq_true] at h
          exact Nat.succ_le_succ (ih h.2)

/-- Each class reads a character. -/
theorem head?_drop_of_startsWith {ps : List (α → Bool)} {t : List α} (h : startsWith ps t = true)
    {n : ℕ} (hn : n < ps.length) :
    ∃ x p, (t.drop n).head? = some x ∧ p ∈ ps.drop n ∧ p x = true := by
  induction ps generalizing t n with
  | nil => exact absurd hn (Nat.not_lt_zero n)
  | cons p ps ih =>
      cases t with
      | nil => exact absurd h Bool.false_ne_true
      | cons x t =>
          rw [startsWith, Bool.and_eq_true] at h
          cases n with
          | zero => exact ⟨x, p, rfl, List.mem_cons_self, h.1⟩
          | succ n => exact ih h.2 (Nat.lt_of_succ_lt_succ hn)

/-- What is read ends with a character of the last class. -/
theorem getLast?_take_of_startsWith {ps : List (α → Bool)} {p : α → Bool} {t : List α}
    (h : startsWith (ps ++ [p]) t = true) : (t.take (ps.length + 1)).getLast?.any p = true := by
  induction ps generalizing t with
  | nil =>
      cases t with
      | nil => exact absurd h Bool.false_ne_true
      | cons x t => simpa [startsWith] using h
  | cons q ps ih =>
      cases t with
      | nil => exact absurd h Bool.false_ne_true
      | cons x t =>
          rw [List.cons_append, startsWith, Bool.and_eq_true] at h
          have hlast := ih h.2
          obtain ⟨y, hy, hp⟩ := (Option.any_eq_true _ _).mp hlast
          rw [List.length_cons, List.take_succ_cons, List.getLast?_cons, hy]
          exact hp

/-- A character that none of the classes holds ends what can be read. -/
theorem startsWith_append_cons {ps : List (α → Bool)} {x : α} (h : ∀ p ∈ ps, p x = false)
    (s t : List α) : startsWith ps (s ++ x :: t) = startsWith ps s := by
  induction ps generalizing s with
  | nil => rfl
  | cons p ps ih =>
      obtain ⟨hp, hps⟩ := List.forall_mem_cons.mp h
      cases s with
      | nil =>
          rw [List.nil_append]
          simp [startsWith, hp]
      | cons y s => rw [List.cons_append, startsWith, startsWith, ih hps]

theorem takeWhile_append_cons {p : α → Bool} {x : α} (h : p x = false) (s t : List α) :
    (s ++ x :: t).takeWhile p = s.takeWhile p := by
  induction s with
  | nil => simp [h]
  | cons y s ih => rw [List.cons_append, List.takeWhile_cons, List.takeWhile_cons, ih]

/-- A run of a class ends where the text it begins with leaves the class. -/
theorem length_takeWhile_of_startsWith {p q : α → Bool} {ps qs : List (α → Bool)} {t : List α}
    (h : startsWith (ps ++ q :: qs) t = true) (hps : ∀ f ∈ ps, ∀ x, f x = true → p x = true)
    (hq : ∀ x, q x = true → p x = false) : (t.takeWhile p).length = ps.length := by
  induction ps generalizing t with
  | nil =>
      cases t with
      | nil => rfl
      | cons x t =>
          rw [List.nil_append, startsWith, Bool.and_eq_true] at h
          rw [List.takeWhile_cons, hq x h.1]
          rfl
  | cons f ps ih =>
      obtain ⟨hf, hps⟩ := List.forall_mem_cons.mp hps
      cases t with
      | nil => exact absurd h Bool.false_ne_true
      | cons x t =>
          rw [List.cons_append, startsWith, Bool.and_eq_true] at h
          rw [List.takeWhile_cons, hf x h.1, if_pos rfl, List.length_cons, ih h.2 hps,
            List.length_cons]

/-- A run of a class, some way into it. -/
theorem length_takeWhile_drop {p : α → Bool} {t : List α} {n : ℕ}
    (h : n ≤ (t.takeWhile p).length) :
    ((t.drop n).takeWhile p).length = (t.takeWhile p).length - n := by
  induction t generalizing n with
  | nil => simp
  | cons x t ih =>
      cases n with
      | zero => rfl
      | succ n =>
          rw [List.takeWhile_cons] at h ⊢
          split_ifs at h ⊢ with hx
          · rw [List.drop_succ_cons, ih (Nat.le_of_succ_le_succ h), List.length_cons,
              Nat.add_sub_add_right]
          · exact absurd h (Nat.not_succ_le_zero n)

theorem length_takeWhile_le (p : α → Bool) (t : List α) : (t.takeWhile p).length ≤ t.length :=
  (List.takeWhile_prefix p).length_le

/-- What stands where a run of a class ends is not of the class. -/
theorem head?_drop_takeWhile (p : α → Bool) (t : List α) :
    (t.drop (t.takeWhile p).length).head?.any p = false := by
  induction t with
  | nil => rfl
  | cons x t ih =>
      rw [List.takeWhile_cons]
      split_ifs with hx
      · exact ih
      · simpa using hx

/-- What stands within a run of a class is of the class. -/
theorem head?_drop_of_lt {p : α → Bool} {t : List α} {n : ℕ} (h : n < (t.takeWhile p).length) :
    ∃ x, (t.drop n).head? = some x ∧ p x = true := by
  induction t generalizing n with
  | nil => exact absurd h (Nat.not_lt_zero n)
  | cons x t ih =>
      rw [List.takeWhile_cons] at h
      split_ifs at h with hx
      · cases n with
        | zero => exact ⟨x, rfl, hx⟩
        | succ n => exact ih (Nat.lt_of_succ_lt_succ h)
      · exact absurd h (Nat.not_lt_zero n)

/-- A run of a class ends where a character stands that is not of the class. -/
theorem length_takeWhile_of_head {p : α → Bool} {t : List α} {n : ℕ}
    (hle : n ≤ (t.takeWhile p).length) (hn : (t.drop n).head?.any p = false) :
    (t.takeWhile p).length = n := by
  by_contra hne
  obtain ⟨x, hx, hp⟩ := head?_drop_of_lt (Nat.lt_of_le_of_ne hle (Ne.symm hne))
  rw [hx, Option.any_some, hp] at hn
  cases hn

/-- A greedy repetition without bounds tries the whole run first. -/
theorem tries_star (n : ℕ) : tries 0 none true n = n :: (List.range n).reverse := by
  simp [tries, List.range'_concat, List.range_eq_range']

theorem tries_greedy {min n : ℕ} (h : min ≤ n) :
    ∃ ns, tries min none true n = n :: ns := by
  have hlength : n + 1 - min = n - min + 1 := by omega
  refine ⟨(List.range' min (n - min)).reverse, ?_⟩
  simp only [tries, hlength, List.range'_concat, if_true]
  rw [List.reverse_append, List.reverse_singleton, List.singleton_append]
  congr 1
  omega

/-- A lazy repetition of any character tries every length from none on. -/
theorem tries_lazy (n : ℕ) : tries 0 none false n = List.range (n + 1) := by
  simp [tries, List.range_eq_range']

/-- A cursor behind a group of so many characters. -/
def Cursor.capture (c : Cursor α) (i n : ℕ) : Cursor α :=
  { c.move n with groups := (i, c.rest.take n) :: c.groups }

@[simp] theorem Cursor.rest_capture (c : Cursor α) (i n : ℕ) :
    (c.capture i n).rest = c.rest.drop n := rfl

/-- A capture on the way does not change where a cursor goes. -/
theorem Cursor.move_capture (c : Cursor α) (m i n l : ℕ) :
    ((c.move m).capture i n).move l =
      { c.move (m + n + l) with groups := (i, (c.rest.drop m).take n) :: c.groups } := by
  simp only [Cursor.capture, Cursor.move, lastOf_add, List.drop_drop]

section determined
variable [DecidableEq α] {p : α → Bool} {c : Cursor α} {k : Cursor α → Option (Cursor α)}

theorem exec_ones (ps : List (α → Bool)) :
    exec (concat (ps.map .one)) c k =
      if startsWith ps c.rest then k (c.move ps.length) else none := by
  induction ps generalizing c with
  | nil => rw [List.map_nil, exec_concat_nil, startsWith, if_pos rfl, List.length_nil,
      Cursor.move_zero]
  | cons p ps ih =>
      rw [List.map_cons, exec_concat_cons, exec]
      cases hrest : c.rest with
      | nil => rfl
      | cons x t =>
          have hmove : (c.move 1).rest = t := by simp [Cursor.move, hrest]
          rw [ih, hmove, Cursor.move_move, startsWith, List.length_cons, Nat.add_comm 1]
          cases hp : p x <;> simp [hp]

/-- A repetition is determined when only one length can go on. -/
theorem exec_many_unique {min : ℕ} {max : Option ℕ} {greedy : Bool} {n : ℕ}
    (h : ∀ m, m ≠ n → m ≤ (c.rest.takeWhile p).length → k (c.move m) = none) :
    exec (.many p min max greedy) c k =
      if n ∈ tries min max greedy (c.rest.takeWhile p).length then k (c.move n) else none := by
  rw [exec]
  have hall : ∀ l : List ℕ, (∀ m ∈ l, m ≤ (c.rest.takeWhile p).length) →
      l.findSome? (fun m => k (c.move m)) = if n ∈ l then k (c.move n) else none := by
    intro l hl
    induction l with
    | nil => rfl
    | cons m l ih =>
        obtain ⟨hm, hl⟩ := List.forall_mem_cons.mp hl
        rw [List.findSome?_cons, ih hl]
        by_cases hmn : m = n
        · subst hmn
          cases hk : k (c.move m) <;> simp
        · rw [h m hmn hm]
          simp [List.mem_cons, Ne.symm hmn]
  exact hall _ (fun m hm => (mem_tries.mp hm).2.1)

/-- A run that can only be left at its end. -/
theorem exec_star_stop (h : ∀ n < (c.rest.takeWhile p).length, k (c.move n) = none) :
    exec (.many p 0 none true) c k = k (c.move (c.rest.takeWhile p).length) := by
  rw [exec_many_unique (n := (c.rest.takeWhile p).length), if_pos]
  · exact mem_tries.mpr ⟨Nat.zero_le _, Nat.le_refl _, fun _ h => by cases h⟩
  · intro m hm hle
    exact h m (by omega)

/-- The longest run, when it can be left at its end. -/
theorem exec_many_total {min : ℕ} (hmin : min ≤ (c.rest.takeWhile p).length)
    (h : (k (c.move (c.rest.takeWhile p).length)).isSome = true) :
    exec (.many p min none true) c k = k (c.move (c.rest.takeWhile p).length) := by
  obtain ⟨d, hd⟩ := Option.isSome_iff_exists.mp h
  obtain ⟨ns, hns⟩ := tries_greedy hmin
  rw [exec, hns, List.findSome?_cons, hd]

theorem exec_star_total (h : (k (c.move (c.rest.takeWhile p).length)).isSome = true) :
    exec (.many p 0 none true) c k = k (c.move (c.rest.takeWhile p).length) :=
  exec_many_total (Nat.zero_le _) h

/-- A repetition that succeeds is left at some length. -/
theorem exec_many_eq_some {min : ℕ} {max : Option ℕ} {greedy : Bool} {d : Cursor α}
    (h : exec (.many p min max greedy) c k = some d) :
    ∃ n, min ≤ n ∧ n ≤ (c.rest.takeWhile p).length ∧ (∀ b, max = some b → n ≤ b) ∧
      k (c.move n) = some d := by
  rw [exec] at h
  obtain ⟨n, hn, hk⟩ := List.exists_of_findSome?_eq_some h
  obtain ⟨hmin, hle, hmax⟩ := mem_tries.mp hn
  exact ⟨n, hmin, hle, hmax, hk⟩

theorem exec_group_many {i min : ℕ} {max : Option ℕ} {greedy : Bool} :
    exec (.group i (.many p min max greedy)) c k =
      (tries min max greedy (c.rest.takeWhile p).length).findSome? (fun n => k (c.capture i n)) := by
  rw [exec, exec]
  have hlist : ∀ l : List ℕ, (∀ n ∈ l, n ≤ c.rest.length) →
      l.findSome? (fun n => k { c.move n with
        groups := (i, c.textTo (c.move n)) :: (c.move n).groups }) =
      l.findSome? (fun n => k (c.capture i n)) := by
    intro l hl
    induction l with
    | nil => rfl
    | cons n l ih =>
        obtain ⟨hn, hl⟩ := List.forall_mem_cons.mp hl
        rw [List.findSome?_cons, List.findSome?_cons, ih hl, Cursor.textTo_move hn]
        rfl
  exact hlist _ (fun n hn => Nat.le_trans (mem_tries.mp hn).2.1 (length_takeWhile_le p _))

/-- A group around a run that can only be left at its end. -/
theorem exec_group_stop {i : ℕ}
    (h : ∀ n < (c.rest.takeWhile p).length, k (c.capture i n) = none) :
    exec (.group i (.many p 0 none true)) c k =
      k (c.capture i (c.rest.takeWhile p).length) := by
  have hlist : ∀ l : List ℕ, (∀ m ∈ l, m < (c.rest.takeWhile p).length) →
      l.findSome? (fun n => k (c.capture i n)) = none := fun l hl =>
    List.findSome?_eq_none_iff.mpr (fun m hm => h m (hl m hm))
  rw [exec_group_many, tries_star, List.findSome?_cons, hlist]
  · cases k (c.capture i (c.rest.takeWhile p).length) <;> rfl
  · intro m hm
    simpa using hm

end determined

/-! ### The first place -/

/-- The end of what is read at the first place of a text where something can be read. -/
def search (f : List α → Option ℕ) : List α → Option ℕ
  | [] => f []
  | x :: t => (f (x :: t)).or ((search f t).map (· + 1))

theorem search_eq_some {f : List α → Option ℕ} {t : List α} {n : ℕ} (h : search f t = some n) :
    ∃ i j, n = i + j ∧ f (t.drop i) = some j := by
  induction t generalizing n with
  | nil => exact ⟨0, n, (Nat.zero_add n).symm, h⟩
  | cons x t ih =>
      rw [search, Option.or_eq_some_iff] at h
      rcases h with h | ⟨-, h⟩
      · exact ⟨0, n, (Nat.zero_add n).symm, h⟩
      · obtain ⟨m, hm, rfl⟩ := Option.map_eq_some_iff.mp h
        obtain ⟨i, j, rfl, hj⟩ := ih hm
        exact ⟨i + 1, j, by omega, hj⟩

theorem findSome?_range (f : List α → Option ℕ) (t : List α) :
    (List.range (t.length + 1)).findSome? (fun n => (f (t.drop n)).map (n + ·)) = search f t := by
  induction t with
  | nil => cases h : f [] <;> simp [search, List.range_succ, h]
  | cons x t ih =>
      have hnext : ∀ n, (f ((x :: t).drop (n + 1))).map (n + 1 + ·) =
          ((f (t.drop n)).map (n + ·)).map (· + 1) := by
        intro n
        rw [List.drop_succ_cons, Option.map_map]
        congr 1
        funext m
        simp only [Function.comp_apply]
        omega
      rw [List.length_cons, List.range_succ_eq_map, List.findSome?_cons, List.findSome?_map, search,
        ← ih, List.map_findSome?, List.drop_zero]
      cases h : f (x :: t) with
      | some n => simp
      | none =>
          rw [Option.map_none, Option.none_or]
          dsimp only
          congr 1
          funext n
          exact hnext n

end QeReport.Regex

import QeReport.Lib.RegexRuns

/-! # Replacing in two texts that differ in one place

When every match that begins before the place where two texts differ ends before it or behind it,
the difference is either covered by a match or left as it stands (`replaceFrom_alike`). -/

namespace QeReport.Regex
variable {α : Type}

section alike
variable [DecidableEq α] {r : Regex α} {subst : Match α → List α}

/-- No character of the class stands at the end of a text, or before it when it is empty. -/
def EndsOutside (p : α → Bool) (prev : Option α) (w : List α) : Prop :=
  (lastOf prev w w.length).any p = false

omit [DecidableEq α] in
theorem endsOutside_nil {p : α → Bool} {prev : Option α} :
    EndsOutside p prev [] ↔ prev.any p = false := Iff.rfl

omit [DecidableEq α] in
theorem endsOutside_cons {p : α → Bool} {prev : Option α} {x : α} {w : List α} :
    EndsOutside p prev (x :: w) ↔ EndsOutside p (some x) w := by
  rw [EndsOutside, List.length_cons, lastOf_succ, EndsOutside]

omit [DecidableEq α] in
theorem lastOf_length_append (prev : Option α) (v w : List α) (n : ℕ) :
    lastOf prev (v ++ w) (v.length + n) = lastOf (lastOf prev v v.length) w n := by
  induction v generalizing prev with
  | nil => rw [List.nil_append, List.length_nil, Nat.zero_add, lastOf_zero]
  | cons x v ih =>
      have hlength : v.length + 1 + n = v.length + n + 1 := by omega
      rw [List.cons_append, List.length_cons, hlength, lastOf_succ, ih, lastOf_succ]

omit [DecidableEq α] in
theorem endsOutside_append {p : α → Bool} {prev : Option α} {v w : List α} :
    EndsOutside p prev (v ++ w) ↔ EndsOutside p (lastOf prev v v.length) w := by
  rw [EndsOutside, List.length_append, lastOf_length_append, EndsOutside]

omit [DecidableEq α] in
theorem lastOf_append_of_le (prev : Option α) {v w : List α} {n : ℕ} (h : n ≤ v.length) :
    lastOf prev (v ++ w) n = lastOf prev v n := by
  rw [lastOf, List.take_append_of_le_length h, lastOf]

omit [DecidableEq α] in
theorem lastOf_pos (prev prev' : Option α) {t : List α} {n : ℕ} (hn : 0 < n) (ht : t ≠ []) :
    lastOf prev t n = lastOf prev' t n := by
  obtain ⟨x, t, rfl⟩ := List.exists_cons_of_ne_nil ht
  obtain ⟨m, rfl⟩ : ∃ m, n = m + 1 := ⟨n - 1, by omega⟩
  rw [lastOf_succ, lastOf_succ]

/-- The lengths of two matches in `y ++ m ++ z` and `y ++ m' ++ z`: both end at one place of `y`,
or both at one place of `z`. -/
inductive SameEnd (y m m' z : List α) : ℕ → ℕ → Prop
  | within {n : ℕ} (h : n ≤ y.length) : SameEnd y m m' z n n
  | beyond {n : ℕ} (h : n ≤ z.length) :
      SameEnd y m m' z (y.length + m.length + n) (y.length + m'.length + n)

/-- The ends of two readings of `y ++ m ++ z` and `y ++ m' ++ z`. -/
inductive SameEnds (y m m' z : List α) : Option ℕ → Option ℕ → Prop
  | nothing : SameEnds y m m' z none none
  | found {n n' : ℕ} (h : SameEnd y m m' z n n') : SameEnds y m m' z (some n) (some n')

/-- What is found at the beginning of `y ++ m ++ z` and `y ++ m' ++ z`. -/
inductive FoundAlike (r : Regex α) (subst : Match α → List α) (y m m' z : List α)
    (prev : Option α) : Prop
  | nothing (h : r.matchAt prev (y ++ m ++ z) = none) (h' : r.matchAt prev (y ++ m' ++ z) = none)
  | found {a a' : Match α} (h : r.matchAt prev (y ++ m ++ z) = some a)
      (h' : r.matchAt prev (y ++ m' ++ z) = some a') (hsubst : subst a = subst a')
      (hend : SameEnd y m m' z a.length a'.length)

omit [DecidableEq α] in
/-- A reading that begins behind some characters of `y`. -/
theorem SameEnd.add {u y m m' z : List α} {n n' : ℕ} (h : SameEnd y m m' z n n') :
    SameEnd (u ++ y) m m' z (u.length + n) (u.length + n') := by
  cases h with
  | within h =>
      apply SameEnd.within
      rw [List.length_append]
      omega
  | @beyond n h =>
      have hend : ∀ l, u.length + (y.length + l + n) = (u ++ y).length + l + n := by
        intro l
        rw [List.length_append]
        omega
      rw [hend, hend]
      exact .beyond h

omit [DecidableEq α] in
theorem SameEnds.add {u y m m' z : List α} {o o' : Option ℕ} (h : SameEnds y m m' z o o') :
    SameEnds (u ++ y) m m' z (o.map (u.length + ·)) (o'.map (u.length + ·)) := by
  cases h with
  | nothing => exact .nothing
  | found h => exact .found h.add

omit [DecidableEq α] in
/-- A run of a class that holds what differs ends before it or behind it. -/
theorem takeWhile_alike {p : α → Bool} (y : List α) {m m' : List α} (z : List α)
    (hm : ∀ x ∈ m, p x = true) (hm' : ∀ x ∈ m', p x = true) :
    (∃ n < y.length, ((y ++ m ++ z).takeWhile p).length = n ∧
      ((y ++ m' ++ z).takeWhile p).length = n) ∨
    (((y ++ m ++ z).takeWhile p).length = y.length + m.length + (z.takeWhile p).length ∧
      ((y ++ m' ++ z).takeWhile p).length = y.length + m'.length + (z.takeWhile p).length) := by
  have hrun : ∀ m : List α, (∀ x ∈ m, p x = true) →
      ((m ++ z).takeWhile p).length = m.length + (z.takeWhile p).length := by
    intro m hm
    rw [List.takeWhile_append_of_pos hm, List.length_append]
  have hbehind : ∀ t, (y ++ t).takeWhile p =
      if (y.takeWhile p).length = y.length then y ++ t.takeWhile p else y.takeWhile p :=
    fun t => List.takeWhile_append
  rw [List.append_assoc, List.append_assoc, hbehind, hbehind]
  by_cases hy : (y.takeWhile p).length = y.length
  · right
    rw [if_pos hy, if_pos hy, List.length_append, List.length_append, hrun m hm, hrun m' hm']
    omega
  · left
    have hle := length_takeWhile_le p y
    refine ⟨(y.takeWhile p).length, by omega, ?_, ?_⟩
    · rw [if_neg hy]
    · rw [if_neg hy]

omit [DecidableEq α] in
theorem sameEnd_takeWhile {p : α → Bool} (y : List α) {m m' : List α} (z : List α)
    (hm : ∀ x ∈ m, p x = true) (hm' : ∀ x ∈ m', p x = true) :
    SameEnd y m m' z ((y ++ m ++ z).takeWhile p).length ((y ++ m' ++ z).takeWhile p).length := by
  rcases takeWhile_alike y z hm hm' with ⟨n, hn, h, h'⟩ | ⟨h, h'⟩
  · rw [h, h']
    exact .within (Nat.le_of_lt hn)
  · rw [h, h']
    exact .beyond (length_takeWhile_le p z)

omit [DecidableEq α] in
/-- A search finds nothing in a text where nothing can be read. -/
theorem search_append {f : List α → Option ℕ} {m z : List α}
    (h : ∀ s, s ≠ [] → s <:+ m → f (s ++ z) = none) :
    search f (m ++ z) = (search f z).map (m.length + ·) := by
  induction m with
  | nil =>
      rw [List.nil_append, List.length_nil]
      simp
  | cons x m ih =>
      have hx := h (x :: m) (List.cons_ne_nil _ _) (List.suffix_refl _)
      rw [List.cons_append] at hx
      rw [List.cons_append, search, hx, Option.none_or,
        ih (fun s hne hs => h s hne (hs.trans (List.suffix_cons x m))), Option.map_map]
      congr 1
      funext n
      simp only [Function.comp_apply, List.length_cons]
      omega

omit [DecidableEq α] in
/-- What is first read in `y ++ m ++ z` and `y ++ m' ++ z`. -/
theorem sameEnds_search {f : List α → Option ℕ} {m m' z : List α}
    (hy : ∀ y, y ≠ [] → (f (y ++ m ++ z) = none ∧ f (y ++ m' ++ z) = none) ∨
      ∃ n ≤ y.length, f (y ++ m ++ z) = some n ∧ f (y ++ m' ++ z) = some n)
    (hm : ∀ s, s ≠ [] → s <:+ m → f (s ++ z) = none)
    (hm' : ∀ s, s ≠ [] → s <:+ m' → f (s ++ z) = none)
    (hz : ∀ n, search f z = some n → n ≤ z.length) (y : List α) :
    SameEnds y m m' z (search f (y ++ m ++ z)) (search f (y ++ m' ++ z)) := by
  induction y with
  | nil =>
      rw [List.nil_append, List.nil_append, search_append hm, search_append hm']
      cases h : search f z with
      | none => exact .nothing
      | some n =>
          apply SameEnds.found
          have hend : SameEnd [] m m' z _ _ := .beyond (hz n h)
          rwa [List.length_nil, Nat.zero_add, Nat.zero_add] at hend
  | cons x y ih =>
      have hnext : ∀ o : Option ℕ, o.map (· + 1) = o.map ([x].length + ·) := by
        intro o
        congr 1
        funext n
        exact Nat.add_comm n 1
      rcases hy (x :: y) (List.cons_ne_nil _ _) with ⟨h, h'⟩ | ⟨n, hn, h, h'⟩
      · simp only [List.cons_append] at h h' ⊢
        rw [search, search, h, h', Option.none_or, Option.none_or, hnext, hnext]
        exact ih.add (u := [x])
      · simp only [List.cons_append] at h h' ⊢
        rw [search, search, h, h', Option.some_or, Option.some_or]
        exact .found (.within hn)

/-- Two texts that differ between `w` and `z` only, where every match that begins in `w` ends in
`w` or in `z`: the results are the same, or they differ in the same way. -/
theorem replaceFrom_alike (hr : 0 < minLength r) {bad : α → Bool} {m m' z : List α}
    (hsubst : ∀ a prev, EndsOutside bad prev (subst a))
    (hfind : ∀ prev y, y ≠ [] → EndsOutside bad prev y → FoundAlike r subst y m m' z prev)
    (hz : ∀ p p', replaceFrom r subst 0 p z = replaceFrom r subst 0 p' z)
    (prev : Option α) (w : List α) (hw : EndsOutside bad prev w) :
    replaceFrom r subst 0 prev (w ++ m ++ z) = replaceFrom r subst 0 prev (w ++ m' ++ z) ∨
      ∃ w' p, (∀ p₀ : Option α, (w = [] → p₀.any bad = false) → EndsOutside bad p₀ w') ∧
        p.any bad = false ∧
        replaceFrom r subst 0 prev (w ++ m ++ z) = w' ++ replaceFrom r subst 0 p (m ++ z) ∧
        replaceFrom r subst 0 prev (w ++ m' ++ z) = w' ++ replaceFrom r subst 0 p (m' ++ z) := by
  induction h : w.length using Nat.strongRecOn generalizing prev w with
  | _ n ih =>
      subst h
      cases w with
      | nil => exact .inr ⟨[], prev, fun p₀ hp₀ => hp₀ rfl, hw, rfl, rfl⟩
      | cons x w =>
          cases hfind prev (x :: w) (List.cons_ne_nil _ _) hw with
          | nothing hnone hnone' =>
              have hw' := endsOutside_cons.mp hw
              simp only [List.cons_append] at hnone hnone' ⊢
              rw [replaceFrom_none hnone, replaceFrom_none hnone']
              rcases ih w.length (Nat.lt_succ_self _) (some x) w hw' rfl with
                heq | ⟨w', p, hends, hp, heq, heq'⟩
              · exact .inl (by rw [heq])
              · refine .inr ⟨x :: w', p, fun p₀ _ => ?_, hp, by rw [heq]; rfl, by rw [heq']; rfl⟩
                rw [endsOutside_cons]
                apply hends
                rintro rfl
                exact hw'
          | @found a a' hsome hsome' hsame hend =>
              rw [replaceFrom_some hr hsome, replaceFrom_some hr hsome', hsame]
              have hpos := (matchAt_length hsome).1
              generalize hn : a.length = n at hend
              generalize hn' : a'.length = n' at hend
              cases hend with
              | within hle =>
                  have hdrop : ∀ t, ((x :: w) ++ t).drop n = (x :: w).drop n ++ t :=
                    fun t => List.drop_append_of_le_length hle
                  have hlast : ∀ t, lastOf prev ((x :: w) ++ t) n = lastOf prev (x :: w) n :=
                    fun t => lastOf_append_of_le prev hle
                  have hrest : EndsOutside bad (lastOf prev (x :: w) n) ((x :: w).drop n) := by
                    rw [EndsOutside, lastOf_add, List.length_drop, Nat.add_sub_cancel' hle]
                    exact hw
                  have hlt : ((x :: w).drop n).length < (x :: w).length := by
                    rw [List.length_drop]
                    omega
                  simp only [List.append_assoc, hdrop, hlast]
                  rcases ih _ hlt _ _ hrest rfl with heq | ⟨w', p, hends, hp, heq, heq'⟩
                  · simp only [List.append_assoc] at heq
                    exact .inl (by rw [heq])
                  · simp only [List.append_assoc] at heq heq'
                    refine .inr ⟨subst a' ++ w', p, fun p₀ _ => ?_, hp, by rw [heq, List.append_assoc],
                      by rw [heq', List.append_assoc]⟩
                    rw [endsOutside_append]
                    exact hends _ (fun _ => hsubst a' p₀)
              | @beyond l hle =>
                  left
                  have hdrop : ∀ t : List α, ((x :: w) ++ t ++ z).drop
                      ((x :: w).length + t.length + l) = z.drop l := by
                    intro t
                    rw [← List.length_append, ← List.drop_drop, List.drop_left]
                  have hlast : ∀ t : List α, lastOf prev ((x :: w) ++ t ++ z)
                      ((x :: w).length + t.length + l) =
                      lastOf (lastOf prev ((x :: w) ++ t) ((x :: w) ++ t).length) z l := by
                    intro t
                    rw [← List.length_append, lastOf_length_append]
                  rw [hdrop, hdrop, hlast, hlast]
                  congr 1
                  cases l with
                  | zero => exact hz _ _
                  | succ l =>
                      have hne : z ≠ [] := by
                        rintro rfl
                        exact absurd hle (Nat.not_succ_le_zero l)
                      rw [lastOf_pos _ _ (Nat.succ_pos l) hne]

/-- Nothing is replaced in a text where nothing is found. -/
theorem replaceFrom_append_of_none {m z : List α} {prev : Option α}
    (h : ∀ y, y ≠ [] → y <:+ m → ∀ u, u ++ y = m →
      r.matchAt (lastOf prev m u.length) (y ++ z) = none) :
    replaceFrom r subst 0 prev (m ++ z) =
      m ++ replaceFrom r subst 0 (lastOf prev m m.length) z := by
  induction m generalizing prev with
  | nil => rfl
  | cons x m ih =>
      have hx := h (x :: m) (List.cons_ne_nil _ _) (List.suffix_refl _) [] rfl
      rw [List.length_nil, lastOf_zero, List.cons_append] at hx
      rw [List.cons_append, replaceFrom_none hx, List.length_cons, lastOf_succ, List.cons_append,
        ih]
      intro y hne hsuffix u hu
      have hy := h y hne (hsuffix.trans (List.suffix_cons x m)) (x :: u) (by rw [← hu]; rfl)
      rwa [List.length_cons, lastOf_succ] at hy

end alike

end QeReport.Regex

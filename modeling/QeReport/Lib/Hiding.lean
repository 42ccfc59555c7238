import QeReport.Lib.RegexRuns

/-! # Texts with parts hidden behind a mark

`Hides` relates a text to one in which some parts are replaced by a mark.  What is read at a place
of the second text and ends before any mark does (`Sealed`) is read at the same place of the first.
A weight on places that only such readings give cannot grow in total when parts are hidden
(`Hides.totalWeight_le`), and replacing matches makes a text longer by no more than the weights of
its places (`length_replaceFrom_le`). -/

namespace QeReport

variable {α : Type}

/-! ### What is read of the first characters -/

namespace Regex

variable {t t' : List α} {n : ℕ}

theorem startsWith_take {ps : List (α → Bool)} (h : ps.length ≤ n) :
    startsWith ps (t.take n) = startsWith ps t := by
  induction ps generalizing t n with
  | nil => rfl
  | cons p ps ih =>
      cases t with
      | nil => simp
      | cons x t =>
          obtain ⟨m, rfl⟩ : ∃ m, n = m + 1 := ⟨n - 1, by rw [List.length_cons] at h; omega⟩
          rw [List.take_succ_cons, startsWith, startsWith,
            ih (Nat.le_of_succ_le_succ (by rwa [List.length_cons] at h))]

/-- A run that ends among the first characters. -/
theorem takeWhile_of_take_eq {p : α → Bool} (htake : t.take n = t'.take n)
    (h : (t'.takeWhile p).length < n) : t.takeWhile p = t'.takeWhile p := by
  induction n generalizing t t' with
  | zero => exact absurd h (Nat.not_lt_zero _)
  | succ n ih =>
      cases t' with
      | nil =>
          cases t with
          | nil => rfl
          | cons x t => simp at htake
      | cons y t' =>
          cases t with
          | nil => simp at htake
          | cons x t =>
              rw [List.take_succ_cons, List.take_succ_cons, List.cons.injEq] at htake
              obtain ⟨rfl, htake⟩ := htake
              rw [List.takeWhile_cons] at h ⊢
              rw [List.takeWhile_cons]
              cases hx : p x with
              | false => rfl
              | true =>
                  rw [hx, if_pos rfl, List.length_cons] at h
                  rw [if_pos rfl, if_pos rfl, ih htake (Nat.lt_of_succ_lt_succ h)]

theorem drop_take_eq {m : ℕ} (htake : t.take (m + n) = t'.take (m + n)) :
    (t.drop m).take n = (t'.drop m).take n := by
  have hdrop : ∀ s : List α, (s.drop m).take n = (s.take (m + n)).drop m := by
    intro s
    rw [List.drop_take, Nat.add_sub_cancel_left]
  rw [hdrop, hdrop, htake]

theorem take_eq_of_le {m : ℕ} (hle : m ≤ n) (htake : t.take n = t'.take n) :
    t.take m = t'.take m := by
  have hmin : ∀ s : List α, s.take m = (s.take n).take m := by
    intro s
    rw [List.take_take, Nat.min_eq_left hle]
  rw [hmin t, hmin t', htake]

theorem head?_of_take_eq (hn : 0 < n) (htake : t.take n = t'.take n) : t.head? = t'.head? := by
  have hhead : ∀ s : List α, s.head? = (s.take n).head? := by
    intro s
    rw [List.head?_take, if_neg (by omega)]
  rw [hhead t, hhead t', htake]

end Regex

section hides
variable (mark : List α) (front behind : List α → Prop)

/-- A text and the same with parts behind a mark, each after what stands before it; `front` holds
of what stands before a mark and `behind` of what follows the hidden part. -/
inductive Hides : List α → List α → List α → List α → Prop
  | nil (b b' : List α) : Hides b b' [] []
  | keep {b b' t t' : List α} (x : α) : Hides (b ++ [x]) (b' ++ [x]) t t' →
      Hides b b' (x :: t) (x :: t')
  | secret {b b' t t' : List α} (s : List α) : front b' → behind t →
      Hides (b ++ s) (b' ++ mark) t t' → Hides b b' (s ++ t) (mark ++ t')

/-- The first `n` characters hold no whole mark: a mark begins with none of the first of them, and
the others, no more than a mark has, end with a character that is none of its. -/
def Sealed (n : ℕ) (t : List α) : Prop :=
  ∃ k, (∀ x ∈ t.take k, mark.head? ≠ some x) ∧ n ≤ k + mark.length ∧
    ∀ m x, n = m + 1 → t[m]? = some x → x ∉ mark

variable {mark front behind} {b b' t t' : List α}

theorem Hides.keeps (w : List α) (h : Hides mark front behind (b ++ w) (b' ++ w) t t') :
    Hides mark front behind b b' (w ++ t) (w ++ t') := by
  induction w generalizing b b' with
  | nil => simpa using h
  | cons x w ih =>
      refine .keep x (ih ?_)
      simpa using h

theorem Hides.mono {front' behind' : List α → Prop} (h : Hides mark front behind b b' t t')
    (hfront : ∀ b, front b → front' b) (hbehind : ∀ t, behind t → behind' t) :
    Hides mark front' behind' b b' t t' := by
  induction h with
  | nil b b' => exact .nil b b'
  | keep x _ ih => exact .keep x ih
  | secret s hb ht _ ih => exact .secret s (hfront _ hb) (hbehind _ ht) ih

theorem Hides.take_eq (h : Hides mark front behind b b' t t') (hmark : mark ≠ []) {n : ℕ}
    (hsealed : Sealed mark n t') : t.take n = t'.take n := by
  induction h generalizing n with
  | nil b b' => rfl
  | @keep b b' t t' x _ ih =>
      cases n with
      | zero => rfl
      | succ n =>
          obtain ⟨k, hk, hn, hlast⟩ := hsealed
          rw [List.take_succ_cons, List.take_succ_cons]
          refine congrArg (x :: ·) (ih ⟨k - 1, fun y hy => hk y ?_, by omega, fun m y hm hy => ?_⟩)
          · cases k with
            | zero => simp at hy
            | succ k => exact List.mem_cons_of_mem _ hy
          · exact hlast (m + 1) y (by omega) (by simpa using hy)
  | @secret b b' t t' s _ _ _ _ =>
      cases n with
      | zero => rfl
      | succ n =>
          obtain ⟨k, hk, hn, hlast⟩ := hsealed
          obtain ⟨x, u, rfl⟩ := List.exists_cons_of_ne_nil hmark
          cases k with
          | succ k => exact absurd rfl (hk x (by simp))
          | zero =>
              have hlt : n < (x :: u).length := by omega
              have hget : ((x :: u) ++ t')[n]? = some ((x :: u).get ⟨n, hlt⟩) := by
                rw [List.getElem?_append_left hlt]
                simp
              exact absurd (List.get_mem _ _) (hlast n _ rfl hget)

theorem Sealed.append {n : ℕ} (h : Sealed mark n t) (hn : 0 < n) {w : List α}
    (hw : ∀ x ∈ w, mark.head? ≠ some x) : Sealed mark (w.length + n) (w ++ t) := by
  obtain ⟨k, hk, hle, hlast⟩ := h
  refine ⟨w.length + k, fun x hx => ?_, by omega, fun m x hm hx => ?_⟩
  · rw [List.take_length_add_append, List.mem_append] at hx
    exact hx.elim (hw x) (hk x)
  · obtain ⟨i, rfl⟩ : ∃ i, m = w.length + i := ⟨m - w.length, by omega⟩
    rw [List.getElem?_append_right (Nat.le_add_right _ _), Nat.add_sub_cancel_left] at hx
    exact hlast i x (by omega) hx

/-! ### What is read before a mark -/

variable (mark) in
/-- What a text that begins with the same sealed characters is measured to be. -/
def Local (f : List α → ℕ) : Prop :=
  ∀ t', 0 < f t' → ∃ n, 0 < n ∧ Sealed mark n t' ∧ ∀ t, t.take n = t'.take n → f t' ≤ f t

variable {f g : List α → ℕ}

theorem Local.le (hf : Local mark f) (hmark : mark ≠ [])
    (h : Hides mark front behind b b' t t') : f t' ≤ f t := by
  rcases Nat.eq_zero_or_pos (f t') with hzero | hpos
  · rw [hzero]
    exact Nat.zero_le _
  · obtain ⟨n, -, hsealed, hle⟩ := hf t' hpos
    exact hle t (h.take_eq hmark hsealed)

theorem Local.max (hf : Local mark f) (hg : Local mark g) :
    Local mark (fun t => Nat.max (f t) (g t)) := by
  intro t' hpos
  dsimp only at hpos ⊢
  rcases Nat.le_total (f t') (g t') with hle | hle
  · have hmax : Nat.max (f t') (g t') = g t' := Nat.max_eq_right hle
    rw [hmax] at hpos ⊢
    obtain ⟨n, hn, hsealed, hread⟩ := hg t' hpos
    exact ⟨n, hn, hsealed, fun t ht => Nat.le_trans (hread t ht) (Nat.le_max_right _ _)⟩
  · have hmax : Nat.max (f t') (g t') = f t' := Nat.max_eq_left hle
    rw [hmax] at hpos ⊢
    obtain ⟨n, hn, hsealed, hread⟩ := hf t' hpos
    exact ⟨n, hn, hsealed, fun t ht => Nat.le_trans (hread t ht) (Nat.le_max_left _ _)⟩

theorem Local.zero : Local mark (fun _ => 0) := fun _ hpos => absurd hpos (Nat.lt_irrefl 0)

/-- The greatest of some measures. -/
def greatest {β : Type} (l : List β) (f : β → ℕ) : ℕ := l.foldr (fun i n => Nat.max (f i) n) 0

theorem Local.greatest {β : Type} {l : List β} {f : β → List α → ℕ}
    (h : ∀ i ∈ l, Local mark (f i)) :
    Local mark (fun t => QeReport.greatest l (fun i => f i t)) := by
  induction l with
  | nil => exact Local.zero
  | cons i l ih =>
      obtain ⟨hi, hl⟩ := List.forall_mem_cons.mp h
      exact hi.max (ih hl)

theorem le_greatest {β : Type} {l : List β} {f : β → ℕ} {i : β} (hi : i ∈ l) :
    f i ≤ QeReport.greatest l f := by
  induction l with
  | nil => exact absurd hi List.not_mem_nil
  | cons j l ih =>
      rcases List.mem_cons.mp hi with rfl | hi
      · exact Nat.le_max_left _ _
      · exact Nat.le_trans (ih hi) (Nat.le_max_right _ _)

theorem greatest_le {β : Type} {l : List β} {f : β → ℕ} {n : ℕ} (h : ∀ i ∈ l, f i ≤ n) :
    QeReport.greatest l f ≤ n := by
  induction l with
  | nil => exact Nat.zero_le n
  | cons i l ih =>
      obtain ⟨hi, hl⟩ := List.forall_mem_cons.mp h
      exact Nat.max_le.mpr ⟨hi, ih hl⟩

theorem greatest_eq_zero {β : Type} {l : List β} {f : β → ℕ} (h : ∀ i ∈ l, f i = 0) :
    QeReport.greatest l f = 0 := by
  induction l with
  | nil => rfl
  | cons i l ih =>
      obtain ⟨hi, hl⟩ := List.forall_mem_cons.mp h
      have hrest := ih hl
      rw [QeReport.greatest] at hrest ⊢
      rw [List.foldr_cons, hi, hrest]
      rfl

/-- A measure of what stands behind a head that holds no mark. -/
theorem Local.after (hg : Local mark g) (head : List α → Option ℕ)
    (hhead : ∀ t' m, head t' = some m → (∀ x ∈ t'.take m, mark.head? ≠ some x) ∧ m ≤ t'.length ∧
      ∀ t, t.take (m + 1) = t'.take (m + 1) → head t = some m) :
    Local mark (fun t => (head t).elim 0 (fun m => g (t.drop m))) := by
  intro t' hpos
  dsimp only at hpos ⊢
  cases hm : head t' with
  | none =>
      rw [hm] at hpos
      exact absurd hpos (Nat.lt_irrefl 0)
  | some m =>
      rw [hm] at hpos
      obtain ⟨hkept, hle, hread⟩ := hhead t' m hm
      obtain ⟨n, hn, hsealed, hbehind⟩ := hg (t'.drop m) hpos
      have hsealed' := hsealed.append hn hkept
      rw [List.take_append_drop, List.length_take, Nat.min_eq_left hle] at hsealed'
      refine ⟨m + n, by omega, hsealed', fun t ht => ?_⟩
      rw [hread t (Regex.take_eq_of_le (by omega) ht)]
      exact hbehind _ (Regex.drop_take_eq ht)

/-- What follows characters that begin no mark, when no mark may stand there. -/
theorem Hides.take_succ_eq (h : Hides mark front behind b b' t t') (hmark : mark ≠ []) {n : ℕ}
    (hn : ∀ x ∈ t'.take n, mark.head? ≠ some x) (hfront : ¬ front (b' ++ t'.take n)) :
    t.take (n + 1) = t'.take (n + 1) := by
  induction h generalizing n with
  | nil b b' => rfl
  | @keep b b' t t' x _ ih =>
      cases n with
      | zero => simp
      | succ n =>
          rw [List.take_succ_cons] at hn hfront
          rw [List.take_succ_cons, List.take_succ_cons]
          refine congrArg (x :: ·) (ih (fun y hy => hn y (List.mem_cons_of_mem _ hy)) ?_)
          rwa [List.append_assoc, List.singleton_append]
  | @secret b b' t t' s hfront' _ _ _ =>
      cases n with
      | zero =>
          rw [List.take_zero, List.append_nil] at hfront
          exact absurd hfront' hfront
      | succ n =>
          obtain ⟨x, u, rfl⟩ := List.exists_cons_of_ne_nil hmark
          exact absurd rfl (hn x (by simp))

/-- The first difference is a mark. -/
theorem Hides.head?_of_take_ne (h : Hides mark front behind b b' t t') (hmark : mark ≠ []) {n : ℕ}
    (hn : ∀ x ∈ t'.take n, mark.head? ≠ some x) (hne : t.take (n + 1) ≠ t'.take (n + 1)) :
    (t'.drop n).head? = mark.head? := by
  induction h generalizing n with
  | nil b b' => exact absurd rfl hne
  | @keep b b' t t' x _ ih =>
      cases n with
      | zero => exact absurd (by simp) hne
      | succ n =>
          rw [List.take_succ_cons] at hn
          rw [List.take_succ_cons, List.take_succ_cons] at hne
          exact ih (fun y hy => hn y (List.mem_cons_of_mem _ hy)) fun heq => hne (by rw [heq])
  | @secret b b' t t' s _ _ _ _ =>
      obtain ⟨x, u, rfl⟩ := List.exists_cons_of_ne_nil hmark
      cases n with
      | zero => rfl
      | succ n => exact absurd rfl (hn x (by simp))

/-! ### Weights of places -/

/-- The weights of the places of a text. -/
def totalWeight (w : List α → List α → ℕ) : List α → List α → ℕ
  | _, [] => 0
  | b, x :: t => w b (x :: t) + totalWeight w (b ++ [x]) t

theorem totalWeight_zero (b t : List α) : totalWeight (fun _ _ => 0) b t = 0 := by
  induction t generalizing b with
  | nil => rfl
  | cons x t ih => rw [totalWeight, ih]

theorem totalWeight_add (v w : List α → List α → ℕ) (b t : List α) :
    totalWeight (fun b t => v b t + w b t) b t = totalWeight v b t + totalWeight w b t := by
  induction t generalizing b with
  | nil => rfl
  | cons x t ih =>
      rw [totalWeight, totalWeight, totalWeight, ih]
      omega

variable {w : List α → List α → ℕ}

theorem totalWeight_append_le (s : List α) :
    totalWeight w (b ++ s) t ≤ totalWeight w b (s ++ t) := by
  induction s generalizing b with
  | nil => simp
  | cons x s ih =>
      have h := @ih (b ++ [x])
      rw [List.append_assoc, List.singleton_append] at h
      rw [List.cons_append, totalWeight]
      omega

theorem totalWeight_append_of_zero {s : List α}
    (h : ∀ u v, s = u ++ v → v ≠ [] → w (b ++ u) (v ++ t) = 0) :
    totalWeight w b (s ++ t) = totalWeight w (b ++ s) t := by
  induction s generalizing b with
  | nil => simp
  | cons x s ih =>
      have hx := h [] (x :: s) rfl (List.cons_ne_nil x s)
      have hs := @ih (b ++ [x]) (fun u v huv hv => by
        have := h (x :: u) v (by rw [huv, List.cons_append]) hv
        rwa [List.append_assoc, List.singleton_append])
      rw [List.append_nil, List.cons_append] at hx
      rw [List.append_assoc, List.singleton_append] at hs
      rw [List.cons_append, totalWeight, hx, hs, Nat.zero_add]

/-- What a place adds to the weights behind it. -/
theorem totalWeight_drop_le {n : ℕ} (hn : 0 < n) (hle : n ≤ t.length) :
    w b t + totalWeight w (b ++ t.take n) (t.drop n) ≤ totalWeight w b t := by
  cases t with
  | nil =>
      rw [List.length_nil] at hle
      omega
  | cons x t =>
      obtain ⟨m, rfl⟩ : ∃ m, n = m + 1 := ⟨n - 1, by omega⟩
      have htotal := @totalWeight_append_le α (b ++ [x]) (t.drop m) w (t.take m)
      rw [List.take_append_drop, List.append_assoc, List.singleton_append] at htotal
      rw [List.take_succ_cons, List.drop_succ_cons, totalWeight]
      omega

variable (mark front behind w) in
/-- A weight that does not grow where a text is kept, and that a mark does not have. -/
structure Steady : Prop where
  keep : ∀ {b b' t t' : List α} {x : α}, Hides mark front (fun _ => True) b b' (x :: t) (x :: t') →
    (b.getLast? = b'.getLast? ∨ behind (x :: t)) → w b' (x :: t') ≤ w b (x :: t)
  mark : ∀ b u v t, mark = u ++ v → v ≠ [] → w (b ++ u) (v ++ t) = 0

/-- Hiding parts of a text does not add to its weight. -/
theorem Hides.totalWeight_le (hw : Steady mark front behind w)
    (h : Hides mark front behind b b' t t') (hb : b.getLast? = b'.getLast? ∨ behind t) :
    totalWeight w b' t' ≤ totalWeight w b t := by
  induction h with
  | nil b b' => exact le_rfl
  | @keep b b' t t' x h ih =>
      have hx := hw.keep ((Hides.keep x h).mono (fun _ h => h) (fun _ _ => trivial)) hb
      have ht := ih (.inl (by simp))
      rw [totalWeight, totalWeight]
      omega
  | @secret b b' t t' s _ hbehind _ ih =>
      rw [totalWeight_append_of_zero (fun u v huv hv => hw.mark b' u v t' huv hv)]
      exact Nat.le_trans (ih (.inr hbehind)) (totalWeight_append_le s)

end hides

/-! ### Replacing matches -/

section replace
open Regex (Match lastOf matchAt matchAt_length minLength replaceFrom replaceFrom_none
  replaceFrom_some scan_induction)

variable [DecidableEq α] {r : Regex α} {subst : Match α → List α}

omit [DecidableEq α] in
theorem getLast?_append_take (b rest : List α) (n : ℕ) :
    (b ++ rest.take n).getLast? = lastOf b.getLast? rest n := by
  rw [List.getLast?_append, lastOf]

/-- A text gets longer by no more than the weights of the places of its matches. -/
theorem length_replaceFrom_le {w : List α → List α → ℕ} (hr : 0 < minLength r)
    (hw : ∀ b rest m, matchAt r b.getLast? rest = some m →
      (subst m).length ≤ m.length + w b rest) (b rest : List α) :
    (replaceFrom r subst 0 b.getLast? rest).length ≤ rest.length + totalWeight w b rest := by
  generalize hprev : b.getLast? = prev
  induction prev, rest using scan_induction hr generalizing b with
  | nil prev => simp [replaceFrom]
  | step prev x t h ih =>
      have ht := ih (b ++ [x]) (by simp)
      rw [replaceFrom_none h, totalWeight, List.length_cons, List.length_cons]
      omega
  | found prev rest m h ih =>
      subst hprev
      have hrest := ih (b ++ rest.take m.length) (getLast?_append_take b rest m.length)
      have hm := hw b rest m h
      obtain ⟨hmin, hle⟩ := matchAt_length h
      have htotal := @totalWeight_drop_le α b rest w m.length (by omega) hle
      rw [replaceFrom_some hr h, List.length_append]
      rw [List.length_drop] at hrest
      omega

variable {mark : List α} {front behind : List α → Prop}

/-- Replacing matches hides parts of a text when a replacement is the match with a part of it
behind a mark. -/
theorem hides_replaceFrom (hr : 0 < minLength r)
    (hparts : ∀ prev rest m, matchAt r prev rest = some m → ∃ hd s tl,
      rest.take m.length = hd ++ s ++ tl ∧ subst m = hd ++ mark ++ tl ∧
        (∀ b, front (b ++ hd)) ∧ behind (tl ++ rest.drop m.length))
    (b b' : List α) (prev : Option α) (rest : List α) :
    Hides mark front behind b b' rest (replaceFrom r subst 0 prev rest) := by
  induction prev, rest using scan_induction hr generalizing b b' with
  | nil prev => exact .nil b b'
  | step prev x t h ih =>
      rw [replaceFrom_none h]
      exact .keep x (ih _ _)
  | found prev rest m h ih =>
      obtain ⟨hd, s, tl, htake, hsubst, hfront, hbehind⟩ := hparts prev rest m h
      have hrest : rest = hd ++ (s ++ (tl ++ rest.drop m.length)) := by
        conv_lhs => rw [← List.take_append_drop m.length rest, htake]
        simp only [List.append_assoc]
      have hbehind' : behind (tl ++ rest.drop m.length) := hbehind
      have hkept := Hides.keeps hd (.secret s (hfront b') hbehind'
        (Hides.keeps tl (ih (b ++ hd ++ s ++ tl) (b' ++ hd ++ mark ++ tl))))
      rw [replaceFrom_some hr h, hsubst]
      rw [← hrest] at hkept
      simpa only [List.append_assoc] using hkept

end replace

end QeReport

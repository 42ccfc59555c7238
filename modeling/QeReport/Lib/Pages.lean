import Mathlib.Data.List.Sort
import Mathlib.Order.Basic
import QeReport.Lib.Text

/-! # Reading a list in pages

A list whose entries carry strictly ascending keys is read page by page: a page holds the first
entries beyond a key (`beyond`), at most as many as its limit, and names the key of its last
entry when it left some out (`cursor`).  Reading on from that key (`walk`) until a page names
none gives every entry once and in order, whatever the limits of the pages are
(`walk_eq_ok`). -/

namespace QeReport.Pages

section page
variable {α κ : Type} (key : α → κ)

/-- The key of the last entry of a page that left entries out. -/
def cursor (limit : ℕ) (l : List α) : Option κ :=
  if l.length ≤ limit then none else (l.take limit).getLast?.map key

variable {key}

theorem cursor_map {κ' : Type} (f : κ → κ') (limit : ℕ) (l : List α) :
    (cursor key limit l).map f = cursor (fun a => f (key a)) limit l := by
  unfold cursor
  split_ifs
  · rfl
  · exact Option.map_map ..

/-- A page that names a key is the first `limit` entries, and that key is the one of an entry. -/
theorem cursor_eq_some {limit : ℕ} {l : List α} {c : κ} (h : cursor key limit l = some c) :
    ∃ xs a, l.take limit = xs ++ [a] ∧ c = key a ∧ limit < l.length := by
  unfold cursor at h
  split at h
  · cases h
  · next hlong =>
    obtain ⟨a, ha, rfl⟩ := Option.map_eq_some_iff.mp h
    obtain ⟨xs, hxs⟩ := List.getLast?_eq_some_iff.mp ha
    exact ⟨xs, a, hxs, rfl, not_le.mp hlong⟩

theorem cursor_eq_none {limit : ℕ} {l : List α} (hlimit : 0 < limit)
    (h : cursor key limit l = none) : l.length ≤ limit := by
  by_contra hlong
  rw [cursor, if_neg hlong, Option.map_eq_none_iff, List.getLast?_eq_none_iff,
    List.take_eq_nil_iff] at h
  rcases h with rfl | rfl
  · exact absurd hlimit (lt_irrefl 0)
  · exact hlong (Nat.zero_le _)

/-- A page is cut from one entry more than it holds, which tells whether there are more. -/
theorem take_succ_take (limit : ℕ) (l : List α) : (l.take (limit + 1)).take limit = l.take limit := by
  rw [List.take_take, min_eq_left (Nat.le_succ limit)]

theorem cursor_take (limit : ℕ) (l : List α) :
    (if limit < (l.take (limit + 1)).length then
      ((l.take (limit + 1)).take limit).getLast?.map key else none) = cursor key limit l := by
  have hlength : limit < (l.take (limit + 1)).length ↔ ¬ l.length ≤ limit := by
    rw [List.length_take]
    omega
  rw [cursor, take_succ_take]
  by_cases hshort : l.length ≤ limit
  · rw [if_pos hshort, if_neg (by rwa [hlength, not_not])]
  · rw [if_neg hshort, if_pos (hlength.mpr hshort)]

variable [LinearOrder κ]

variable (key) in
/-- The keys of the list strictly ascend. -/
def Ascending (l : List α) : Prop := l.Pairwise (fun a b => key a < key b)

variable (key) in
/-- The entries whose keys come after the given one, all of them when none is given. -/
def beyond (after : Option κ) (l : List α) : List α :=
  l.filter (fun a => after.all (fun c => decide (c < key a)))

theorem Ascending.filter {l : List α} (h : Ascending key l) (p : α → Bool) :
    Ascending key (l.filter p) := List.Pairwise.filter p h

/-- A list of distinct keys, sorted by them. -/
theorem ascending_sortBy {l : List α} (h : (l.map key).Nodup) :
    Ascending key (sortBy (fun a b => cmp (key a) (key b)) l) := by
  have hcmp : (fun a b => cmp (key a) (key b)) = compareOn key :=
    funext fun a => funext fun b => cmp_eq_compare (key a) (key b)
  have hle := @sortBy_pairwise _ (compareOn key) _ l
  have hne : ((sortBy (compareOn key) l).map key).Nodup := ((sortBy_perm l).map key).nodup_iff.mpr h
  rw [List.Nodup, List.pairwise_map] at hne
  rw [hcmp]
  exact (hle.and hne).imp fun hab => lt_of_le_of_ne (compare_le_iff_le.mp hab.1) hab.2

/-- An ascending list is determined by its entries. -/
theorem Ascending.eq_of_mem {l l' : List α} (h : Ascending key l) (h' : Ascending key l')
    (hmem : ∀ a, a ∈ l ↔ a ∈ l') : l = l' := by
  have hnodup {l : List α} (h : Ascending key l) : l.Nodup :=
    h.imp fun hlt heq => absurd (heq ▸ hlt) (lt_irrefl _)
  refine ((List.perm_ext_iff_of_nodup (hnodup h) (hnodup h')).mpr hmem).eq_of_pairwise ?_ h h'
  intro a b _ _ hab hba
  exact absurd hba (not_lt_of_gt hab)

@[simp] theorem beyond_none (l : List α) : beyond key none l = l := by
  simp [beyond]

theorem mem_beyond {after : Option κ} {l : List α} {a : α} :
    a ∈ beyond key after l ↔ a ∈ l ∧ ∀ c, after = some c → c < key a := by
  rw [beyond, List.mem_filter]
  cases after with
  | none => simp
  | some c => simp

theorem beyond_append (after : Option κ) (l l' : List α) :
    beyond key after (l ++ l') = beyond key after l ++ beyond key after l' :=
  List.filter_append l l'

theorem beyond_eq_self {after : Option κ} {l : List α}
    (h : ∀ a ∈ l, ∀ c, after = some c → c < key a) : beyond key after l = l := by
  refine List.filter_eq_self.mpr fun a ha => ?_
  cases after with
  | none => rfl
  | some c => exact decide_eq_true (h a ha c rfl)

theorem beyond_eq_nil {after : κ} {l : List α} (h : ∀ a ∈ l, key a ≤ after) :
    beyond key (some after) l = [] := by
  refine List.filter_eq_nil_iff.mpr fun a ha => ?_
  rw [Option.all_some, decide_eq_true_iff]
  exact not_lt_of_ge (h a ha)

/-- What comes after an entry of an ascending list is the rest of the list. -/
theorem beyond_key {xs ys : List α} {a : α} (h : Ascending key (xs ++ a :: ys)) :
    beyond key (some (key a)) (xs ++ a :: ys) = ys := by
  obtain ⟨-, hrest, hbefore⟩ := List.pairwise_append.mp h
  have hafter := (List.pairwise_cons.mp hrest).1
  have hxs : xs.filter (fun b => decide (key a < key b)) = [] := by
    refine List.filter_eq_nil_iff.mpr fun b hb => ?_
    rw [decide_eq_true_iff]
    exact not_lt_of_gt (hbefore b hb a List.mem_cons_self)
  have hys : ys.filter (fun b => decide (key a < key b)) = ys :=
    List.filter_eq_self.mpr fun b hb => decide_eq_true (hafter b hb)
  simp only [beyond, Option.all_some, List.filter_append, List.filter_cons, lt_irrefl, hxs, hys,
    decide_false, Bool.false_eq_true, if_false, List.nil_append]

/-- The key of a page is that of its last entry. -/
theorem le_cursor {limit : ℕ} {l : List α} {c : κ} (hl : Ascending key l)
    (h : cursor key limit l = some c) : ∀ a ∈ l.take limit, key a ≤ c := by
  obtain ⟨xs, last, htake, rfl, -⟩ := cursor_eq_some h
  have hasc : Ascending key (l.take limit) := List.Pairwise.sublist (List.take_sublist _ _) hl
  rw [htake] at hasc ⊢
  intro a ha
  rcases List.mem_append.mp ha with ha | ha
  · exact ((List.pairwise_append.mp hasc).2.2 a ha last List.mem_cons_self).le
  · rw [List.mem_singleton.mp ha]

omit [LinearOrder κ] in
theorem mem_of_cursor {limit : ℕ} {l : List α} {c : κ} (h : cursor key limit l = some c) :
    ∃ a ∈ l, c = key a := by
  obtain ⟨xs, a, htake, hc, -⟩ := cursor_eq_some h
  refine ⟨a, List.mem_of_mem_take (i := limit) ?_, hc⟩
  rw [htake]
  exact List.mem_append_right _ List.mem_cons_self

/-- Reading on from the key of a page skips exactly that page. -/
theorem beyond_cursor {limit : ℕ} {l : List α} {after : Option κ} {c : κ}
    (hl : Ascending key l) (h : cursor key limit (beyond key after l) = some c) :
    beyond key (some c) l = (beyond key after l).drop limit := by
  obtain ⟨xs, a, htake, rfl, -⟩ := cursor_eq_some h
  have hsplit : beyond key after l = xs ++ a :: (beyond key after l).drop limit := by
    conv_lhs => rw [← List.take_append_drop limit (beyond key after l), htake]
    rw [List.append_assoc, List.singleton_append]
  have ha : a ∈ beyond key after l := by
    rw [hsplit]
    exact List.mem_append_right _ List.mem_cons_self
  have hnarrow : beyond key (some (key a)) l = beyond key (some (key a)) (beyond key after l) := by
    rw [beyond, beyond, beyond, List.filter_filter]
    refine List.filter_congr fun b _ => ?_
    cases after with
    | none => simp
    | some d =>
      have hd := (mem_beyond.mp ha).2 d rfl
      by_cases hb : key a < key b
      · simp [hb, hd.trans hb]
      · simp [hb]
  have hasc := hl.filter (fun a => after.all (fun c => decide (c < key a)))
  change Ascending key (beyond key after l) at hasc
  rw [hnarrow]
  generalize beyond key after l = r at hsplit hasc ⊢
  rw [hsplit] at hasc
  conv_lhs => rw [hsplit]
  exact beyond_key hasc

end page

/-! ### Walking -/

section walk
variable {α κ ε P : Type} [LinearOrder κ]

/-- The pages read one after the other, from the page of the given number on; none when the
steps do not suffice. -/
def walk (next : P → Option κ) (read : ℕ → Option κ → Except ε P) :
    ℕ → ℕ → Option κ → Option (Except ε (List P))
  | 0, _, _ => none
  | fuel + 1, k, after =>
    match read k after with
    | .error e => some (.error e)
    | .ok p =>
      match next p with
      | none => some (.ok [p])
      | some c => (walk next read fuel (k + 1) (some c)).map (Except.map (p :: ·))

variable {key : α → κ} {items : P → List α} {limit : ℕ → ℕ} {l : List α}

/-- A walk whose pages show entries, are asked for by tokens of entries, and name the token of their
last entry, ends, and its pages together show what it started from. -/
theorem walk_tokens_eq_ok {τ β : Type} [LinearOrder τ] {token : α → τ} {view : α → β}
    {shown : P → List β} {next : P → Option τ} {read : ℕ → Option τ → Except ε P}
    (hl : Ascending key l) (hlimit : ∀ k, 0 < limit k)
    (hread : ∀ k (after : Option α), (∀ a, after = some a → a ∈ l) →
      ∃ p, read k (after.map token) = .ok p ∧
        shown p = ((beyond key (after.map key) l).take (limit k)).map view ∧
        next p = cursor token (limit k) (beyond key (after.map key) l)) (k : ℕ) (after : Option α)
    (hafter : ∀ a, after = some a → a ∈ l) :
    ∃ pages, pages.flatMap shown = (beyond key (after.map key) l).map view ∧
      ∀ fuel, (beyond key (after.map key) l).length < fuel →
        walk next read fuel k (after.map token) = some (.ok pages) := by
  induction hn : (beyond key (after.map key) l).length using Nat.strong_induction_on
    generalizing k after with
  | _ n ih =>
    obtain ⟨p, hok, hshown, hnext⟩ := hread k after hafter
    cases hc : cursor token (limit k) (beyond key (after.map key) l) with
    | none =>
      have hshort := cursor_eq_none (hlimit k) hc
      refine ⟨[p], ?_, ?_⟩
      · rw [List.flatMap_singleton, hshown, List.take_of_length_le hshort]
      · intro fuel hfuel
        cases fuel with
        | zero => exact absurd hfuel (Nat.not_lt_zero _)
        | succ fuel => simp only [walk, hok, hnext, hc]
    | some c =>
      -- the token is the one of the last entry of the page, and so is the key
      obtain ⟨xs, a, htake, rfl, hlong⟩ := cursor_eq_some hc
      have hkey : cursor key (limit k) (beyond key (after.map key) l) = some (key a) := by
        rw [cursor, if_neg (not_le.mpr hlong), htake, List.getLast?_concat, Option.map_some]
      have hrest := beyond_cursor hl hkey
      have hmem : a ∈ beyond key (after.map key) l := by
        refine List.mem_of_mem_take (i := limit k) ?_
        rw [htake]
        exact List.mem_append_right _ List.mem_cons_self
      have hless : (beyond key ((some a).map key) l).length < n := by
        rw [Option.map_some, hrest, List.length_drop, ← hn]
        exact Nat.sub_lt (lt_of_le_of_lt (Nat.zero_le _) hlong) (hlimit k)
      obtain ⟨pages, hpages, hwalk⟩ := ih _ hless (k + 1) (some a)
        (fun b hb => by rw [← Option.some.inj hb]; exact (mem_beyond.mp hmem).1) rfl
      refine ⟨p :: pages, ?_, ?_⟩
      · rw [List.flatMap_cons, hshown, hpages, Option.map_some, hrest, ← List.map_append,
          List.take_append_drop]
      · intro fuel hfuel
        cases fuel with
        | zero => exact absurd hfuel (Nat.not_lt_zero _)
        | succ fuel =>
          have hgo := hwalk fuel (by omega)
          rw [Option.map_some] at hgo
          simp only [walk, hok, hnext, hc, hgo, Option.map_some]
          rfl

/-- Every walk over pages of an ascending list ends, and its pages together hold what it started
from. -/
theorem walk_eq_ok {next : P → Option κ} {read : ℕ → Option κ → Except ε P}
    (hl : Ascending key l) (hlimit : ∀ k, 0 < limit k)
    (hread : ∀ k after, (∀ c, after = some c → ∃ a ∈ l, c = key a) →
      ∃ p, read k after = .ok p ∧ items p = (beyond key after l).take (limit k) ∧
        next p = cursor key (limit k) (beyond key after l)) (k : ℕ) (after : Option κ)
    (hafter : ∀ c, after = some c → ∃ a ∈ l, c = key a) :
    ∃ pages, pages.flatMap items = beyond key after l ∧
      ∀ fuel, (beyond key after l).length < fuel →
        walk next read fuel k after = some (.ok pages) := by
  obtain ⟨a?, ha, rfl⟩ : ∃ a? : Option α, (∀ a, a? = some a → a ∈ l) ∧ a?.map key = after := by
    cases after with
    | none => exact ⟨none, by simp, rfl⟩
    | some c =>
      obtain ⟨a, ha, rfl⟩ := hafter c rfl
      exact ⟨some a, fun b hb => by rwa [← Option.some.inj hb], rfl⟩
  have hshown : ∀ k (b : Option α), (∀ a, b = some a → a ∈ l) → ∃ p, read k (b.map key) = .ok p ∧
      items p = ((beyond key (b.map key) l).take (limit k)).map id ∧
      next p = cursor key (limit k) (beyond key (b.map key) l) := by
    intro k b hb
    rw [List.map_id]
    refine hread k (b.map key) fun c hc => ?_
    obtain ⟨d, hd, rfl⟩ := Option.map_eq_some_iff.mp hc
    exact ⟨d, hb d hd, rfl⟩
  have hwalk := walk_tokens_eq_ok hl hlimit hshown k a? ha
  rwa [List.map_id] at hwalk

end walk

end QeReport.Pages

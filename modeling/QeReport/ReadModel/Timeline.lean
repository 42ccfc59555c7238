import Mathlib.Algebra.Order.Floor.Semifield
import Mathlib.Data.Rat.Floor
import QeReport.Lib.Calendar
import QeReport.ReadModel.DateTime

/-! # History order is UTC order

The instant a timestamp denotes is a UTC day and a millisecond of that day, where a day that ends
with an inserted second has a second 86400.  The order of positions is the order of these
instants (`history_order`), so an inserted second lies between its neighbours and two timestamps
share a position exactly when they denote one millisecond. -/

namespace QeReport

/-! ### Instants of UTC -/

/-- A millisecond of a UTC day; those from 86400000 on are in the inserted second. -/
@[ext]
structure UtcInstant where
  day : ℤ
  millisecond : ℕ
deriving DecidableEq

/-- The chronological order. -/
def compareUtc (a b : UtcInstant) : Ordering :=
  (compare a.day b.day).then (compare a.millisecond b.millisecond)

namespace TimestampFields
variable (f : TimestampFields)

/-- The fraction of the second. -/
def fractionOfSecond : ℚ := readDigits f.fraction / 10 ^ f.fraction.length

/-- The minutes of the local clock from the first minute of 1970 on, moved by the offset. -/
def utcMinutes : ℤ :=
  (Calendar.dayNumber f.year f.month f.day - Calendar.dayNumber 1970 1 1) * 1440 + f.hour * 60 +
    f.minute - f.offset

/-- The instant the fields denote, its fraction truncated to milliseconds. -/
def utcInstant : UtcInstant where
  day := f.utcMinutes / 1440
  millisecond := ((f.utcMinutes % 1440).toNat * 60 + f.second) * 1000 + ⌊f.fractionOfSecond * 1000⌋₊

end TimestampFields

/-- The instant a timestamp denotes. -/
def utcInstant (t : Text) : Option UtcInstant := (timestampFields t).map TimestampFields.utcInstant

/-! ### The fraction -/

theorem readDigits_append_text (s t : Text) :
    readDigits (s ++ t) = readDigits s * 10 ^ t.length + readDigits t := by
  induction t using List.reverseRecOn with
  | nil => simp [readDigits]
  | append_singleton t u ih =>
      rw [← List.append_assoc, readDigits_append, readDigits_append, ih, List.length_append,
        List.length_singleton, pow_succ]
      ring

theorem readDigits_lt {t : Text} (h : t.all isDigit = true) : readDigits t < 10 ^ t.length := by
  induction t using List.reverseRecOn with
  | nil => simp [readDigits]
  | append_singleton t u ih =>
      rw [List.all_append, Bool.and_eq_true, List.all_cons, List.all_nil, Bool.and_true] at h
      have hu : u.val ≤ 57 := by
        have hdigit := h.2
        rw [isDigit, Bool.and_eq_true, decide_eq_true_eq, decide_eq_true_eq] at hdigit
        exact hdigit.2
      have hlt := ih h.1
      rw [readDigits_append, List.length_append, List.length_singleton, pow_succ]
      omega

/-- Three digits of a fraction are its milliseconds, truncated. -/
theorem floor_fraction {t : Text} (h : t.all isDigit = true) :
    ⌊(readDigits t / 10 ^ t.length : ℚ) * 1000⌋₊ = readDigits ((t ++ txt "000").take 3) := by
  have hdiv : (readDigits t / 10 ^ t.length : ℚ) * 1000 =
      ((readDigits t * 1000 : ℕ) : ℚ) / ((10 ^ t.length : ℕ) : ℚ) := by
    push_cast
    ring
  rw [hdiv, Nat.floor_div_eq_div]
  have hzeros : txt "000" = [48, 48, 48] := by decide
  by_cases hlen : t.length ≤ 3
  · -- a short fraction is padded
    have htake : (t ++ txt "000").take 3 = t ++ (txt "000").take (3 - t.length) := by
      rw [List.take_append, List.take_of_length_le hlen]
    rw [htake, readDigits_append_text, hzeros]
    have hpad : readDigits (([48, 48, 48] : Text).take (3 - t.length)) = 0 := by
      have hall : ∀ n < 4, readDigits (([48, 48, 48] : Text).take n) = 0 := by decide
      exact hall _ (by omega)
    have hlength : (([48, 48, 48] : Text).take (3 - t.length)).length = 3 - t.length := by
      rw [List.length_take, Nat.min_eq_left]
      exact Nat.sub_le _ _
    have hpow : 1000 = 10 ^ t.length * 10 ^ (3 - t.length) := by
      rw [← pow_add, Nat.add_sub_cancel' hlen]
      norm_num
    rw [hpad, hlength, Nat.add_zero]
    refine Nat.div_eq_of_eq_mul_right (by positivity) ?_
    rw [hpow]
    ring
  · -- a long one is cut
    have htake : (t ++ txt "000").take 3 = t.take 3 := List.take_append_of_le_length (by omega)
    have hsplit := readDigits_append_text (t.take 3) (t.drop 3)
    rw [List.take_append_drop, List.length_drop] at hsplit
    have hrest : readDigits (t.drop 3) < 10 ^ (t.length - 3) := by
      have hall : (t.drop 3).all isDigit = true := by
        rw [List.all_eq_true] at h ⊢
        exact fun u hu => h u (List.mem_of_mem_drop hu)
      have hlt := readDigits_lt hall
      rwa [List.length_drop] at hlt
    have hpow : 10 ^ t.length = 10 ^ (t.length - 3) * 1000 := by
      have hthree : t.length = t.length - 3 + 3 := by omega
      conv_lhs => rw [hthree, pow_add]
      norm_num
    rw [htake, hpow, Nat.mul_div_mul_right _ _ (by omega), hsplit, Nat.mul_comm,
      Nat.mul_add_div (by positivity), Nat.div_eq_of_lt hrest, Nat.add_zero]

/-- The fraction of a timestamp is digits. -/
theorem fraction_digits {t : Text} {f : TimestampFields} (h : timestampFields t = some f) :
    f.fraction.all isDigit = true := by
  unfold timestampFields at h
  split_ifs at h
  cases h
  dsimp only
  split
  · rfl
  · rw [List.all_takeWhile]

/-! ### Positions and instants -/

section order
variable {f g : TimestampFields} {i j : HistoryInstant}

theorem then_eq_lt {a b : ℤ} {m n : ℕ} :
    (compare a b).then (compare m n) = .lt ↔ a < b ∨ (a = b ∧ m < n) := by
  rcases lt_trichotomy a b with h | rfl | h
  · simp [compare_lt_iff_lt.mpr h, h]
  · simp [compare_lt_iff_lt]
  · simp [compare_gt_iff_gt.mpr h, h.not_gt, h.ne']

theorem then_eq_eq {a b : ℤ} {m n : ℕ} :
    (compare a b).then (compare m n) = .eq ↔ a = b ∧ m = n := by
  rw [Ordering.then_eq_eq, compare_eq_iff_eq, compare_eq_iff_eq]

theorem ordering_ext {x y : Ordering} (hlt : x = .lt ↔ y = .lt) (heq : x = .eq ↔ y = .eq) :
    x = y := by
  cases x <;> cases y <;> simp_all

/-- The closed form of the day is that of the calendar. -/
theorem epochDay_eq (hlow : 1 ≤ f.month) (hhigh : f.month ≤ 12) :
    f.epochDay = Calendar.dayNumber f.year f.month f.day - Calendar.dayNumber 1970 1 1 := by
  have hyear := Calendar.daysBeforeYear_eq f.year
  have hleap : f.leapYear = Calendar.isLeapYear f.year := rfl
  rw [Calendar.dayNumber_epoch, Calendar.dayNumber, Calendar.daysBeforeMonth_eq hlow hhigh,
    TimestampFields.epochDay, hleap]
  push_cast
  omega

/-- What a position says of the instant: an ordinary one counts its milliseconds, and one in an
inserted second keeps the last millisecond before it. -/
def Places (f : TimestampFields) (i : HistoryInstant) : Prop :=
  (i.leap = 0 ∧ f.utcInstant.millisecond < 86400000 ∧
    i.epochMs = f.utcInstant.day * 86400000 + f.utcInstant.millisecond) ∨
  (0 < i.leap ∧ f.utcInstant.millisecond = 86400000 + (i.leap - 1) ∧
    i.epochMs = f.utcInstant.day * 86400000 + 86399999)

/-- Three digits read as less than a thousand. -/
theorem millisecond_lt (hdigits : f.fraction.all isDigit = true) : f.millisecond < 1000 := by
  have hall : ((f.fraction ++ txt "000").take 3).all isDigit = true := by
    rw [List.all_eq_true]
    intro u hu
    rcases List.mem_append.mp (List.mem_of_mem_take hu) with hu | hu
    · exact List.all_eq_true.mp hdigits u hu
    · have hzeros : (txt "000").all isDigit = true := by decide
      exact List.all_eq_true.mp hzeros u hu
  have hlt := readDigits_lt hall
  have hlength : ((f.fraction ++ txt "000").take 3).length = 3 := by
    have hzeros : (txt "000").length = 3 := by decide
    rw [List.length_take, List.length_append, hzeros]
    omega
  rwa [hlength] at hlt

theorem places_of_instant (hdigits : f.fraction.all isDigit = true) (h : f.instant? = some i) :
    Places f i := by
  have hms : ⌊f.fractionOfSecond * 1000⌋₊ = f.millisecond := floor_fraction hdigits
  have hlt := millisecond_lt hdigits
  unfold TimestampFields.instant? at h
  split_ifs at h with hdate hclock hordinary hleap
  · cases h
    have hday := epochDay_eq (f := f) (by omega) (by omega)
    refine .inl ⟨rfl, ?_⟩
    rw [TimestampFields.utcInstant, hms, TimestampFields.utcMinutes, ← hday]
    dsimp only [TimestampFields.dateParse]
    omega
  · cases h
    have hday := epochDay_eq (f := f) (by omega) (by omega)
    rw [ne_eq, not_not, TimestampFields.utcMinuteOfDay] at hleap
    refine .inr ⟨Nat.add_pos_left Nat.one_pos _, ?_⟩
    rw [TimestampFields.utcInstant, hms, TimestampFields.utcMinutes, ← hday]
    dsimp only [TimestampFields.dateParse]
    push_cast at hleap
    omega

/-- Positions compare as the instants they are the positions of. -/
theorem compare_of_places (hi : Places f i) (hj : Places g j) :
    compareHistoryInstants i j = compareUtc f.utcInstant g.utcInstant := by
  apply ordering_ext
  · rw [compareHistoryInstants, compareUtc, then_eq_lt, then_eq_lt]
    rcases hi with hi | hi <;> rcases hj with hj | hj <;> omega
  · rw [compareHistoryInstants, compareUtc, then_eq_eq, then_eq_eq]
    rcases hi with hi | hi <;> rcases hj with hj | hj <;> omega

end order

/-! ### The order of a history -/

instance : Std.TransCmp compareHistoryOccurrences :=
  inferInstanceAs (Std.TransCmp
    (compareLex
      (compareLex (compareOn (fun a : HistoryInstant × ExecutionOccurrence => a.1.epochMs))
        (compareOn (fun a => a.1.leap)))
      (compareLex (compareOn (fun a => a.2.runId)) (compareOn (fun a => a.2.executionId)))))

/-- The occurrence `a` comes before `b` in a history. -/
def Before (a b : ExecutionOccurrence) : Prop :=
  ∃ i j, historyInstant a.occurredAt = .ok i ∧ historyInstant b.occurredAt = .ok j ∧
    compareHistoryOccurrences (i, a) (j, b) = .lt

theorem before_irrefl (a : ExecutionOccurrence) : ¬ Before a a := by
  rintro ⟨i, j, hi, hj, h⟩
  obtain rfl := Except.ok.inj (hi.symm.trans hj)
  rw [@Std.ReflCmp.compare_self _ compareHistoryOccurrences _ (i, a)] at h
  cases h

theorem Before.trans {a b c : ExecutionOccurrence} (hab : Before a b) (hbc : Before b c) :
    Before a c := by
  obtain ⟨i, j, hi, hj, h⟩ := hab
  obtain ⟨j', k, hj', hk, h'⟩ := hbc
  obtain rfl := Except.ok.inj (hj.symm.trans hj')
  exact ⟨i, k, hi, hk, Std.TransCmp.lt_trans h h'⟩

/-- Occurrences that are not told apart by their instants are by their ids. -/
theorem before_total {a b : ExecutionOccurrence} {i j : HistoryInstant}
    (hi : historyInstant a.occurredAt = .ok i) (hj : historyInstant b.occurredAt = .ok j)
    (hids : a.runId ≠ b.runId ∨ a.executionId ≠ b.executionId) : Before a b ∨ Before b a := by
  cases h : compareHistoryOccurrences (i, a) (j, b) with
  | lt => exact .inl ⟨i, j, hi, hj, h⟩
  | gt => exact .inr ⟨j, i, hj, hi, Std.OrientedCmp.lt_of_gt h⟩
  | eq =>
      rw [compareHistoryOccurrences, Ordering.then_eq_eq, Ordering.then_eq_eq] at h
      rcases hids with hne | hne
      · exact absurd (Std.LawfulEqCmp.eq_of_compare h.2.1) hne
      · exact absurd (Std.LawfulEqCmp.eq_of_compare h.2.2) hne

theorem places_of_historyInstant {t : Text} {i : HistoryInstant} (h : historyInstant t = .ok i) :
    ∃ f, timestampFields t = some f ∧ Places f i := by
  unfold historyInstant at h
  cases hf : timestampFields t with
  | none =>
      rw [hf] at h
      cases h
  | some f =>
      rw [hf, Option.bind_some] at h
      cases hi : f.instant? with
      | none =>
          rw [hi] at h
          cases h
      | some j =>
          rw [hi] at h
          obtain rfl := Except.ok.inj h
          exact ⟨f, rfl, places_of_instant (fraction_digits hf) hi⟩

/-- Positions are ordered as the UTC milliseconds that the timestamps denote, and are the same
only for the same millisecond; an inserted second lies between its neighbours; and occurrences
with distinct ids are strictly and totally ordered. -/
theorem history_order :
    (∀ s t i j, historyInstant s = .ok i → historyInstant t = .ok j →
      ∃ a b, utcInstant s = some a ∧ utcInstant t = some b ∧
        compareHistoryInstants i j = compareUtc a b ∧
        (compareHistoryInstants i j = .eq ↔ a = b)) ∧
    (∀ (day : ℤ) (n : ℕ), compareUtc ⟨day, 86399999⟩ ⟨day, 86400000 + n⟩ = .lt ∧
      compareUtc ⟨day, 86400000 + n⟩ ⟨day + 1, 0⟩ = .lt) ∧
    ∀ S : Set ExecutionOccurrence, (∀ o ∈ S, ∃ i, historyInstant o.occurredAt = .ok i) →
      Set.InjOn (fun o : ExecutionOccurrence => (o.runId, o.executionId)) S →
      (∀ a ∈ S, ¬ Before a a) ∧
      (∀ a ∈ S, ∀ b ∈ S, ∀ c ∈ S, Before a b → Before b c → Before a c) ∧
      ∀ a ∈ S, ∀ b ∈ S, a ≠ b → Before a b ∨ Before b a := by
  refine ⟨fun s t i j hs ht => ?_, fun day n => ⟨?_, ?_⟩, fun S hS hids => ⟨?_, ?_, ?_⟩⟩
  · obtain ⟨f, hf, hi⟩ := places_of_historyInstant hs
    obtain ⟨g, hg, hj⟩ := places_of_historyInstant ht
    have hcompare := compare_of_places hi hj
    refine ⟨f.utcInstant, g.utcInstant, by rw [utcInstant, hf]; rfl, by rw [utcInstant, hg]; rfl,
      hcompare, ?_⟩
    rw [hcompare, compareUtc, then_eq_eq, UtcInstant.ext_iff]
  · rw [compareUtc, then_eq_lt]
    exact .inr ⟨rfl, by dsimp only; omega⟩
  · rw [compareUtc, then_eq_lt]
    exact .inl (by dsimp only; omega)
  · exact fun a _ => before_irrefl a
  · exact fun a _ b _ c _ hab hbc => hab.trans hbc
  · intro a ha b hb hne
    obtain ⟨i, hi⟩ := hS a ha
    obtain ⟨j, hj⟩ := hS b hb
    refine before_total hi hj ?_
    by_contra hsame
    rw [not_or, ne_eq, ne_eq, not_not, not_not] at hsame
    exact hne (hids ha hb (Prod.ext hsame.1 hsame.2))

/-- One inserted second, written at two offsets. -/
theorem history_order_leap : ∃ a b,
    utcInstant (txt "2017-01-01T00:59:60.5+01:00") = some a ∧
    utcInstant (txt "2016-12-31T18:29:60.5009-05:30") = some b ∧ a = b := by
  have h := history_order.1 (txt "2017-01-01T00:59:60.5+01:00")
    (txt "2016-12-31T18:29:60.5009-05:30") ⟨1483228799999, 501⟩ ⟨1483228799999, 501⟩
    (by decide) (by decide)
  obtain ⟨a, b, ha, hb, -, heq⟩ := h
  exact ⟨a, b, ha, hb, heq.mp (by decide)⟩

end QeReport

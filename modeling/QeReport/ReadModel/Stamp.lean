import QeReport.ReadModel.Timeline

/-! # The pieces of a timestamp

A timestamp in its written form: the digits of its fields between their separators.  The pattern of
the protocol reads the fields back (`timestampFields_text`), so a pattern that is narrower only has
to say which pieces it takes. -/

namespace QeReport

/-! ### Digits -/

/-- So many digits. -/
def Digits (n : ℕ) (t : Text) : Prop := t.length = n ∧ ∀ u ∈ t, isDigit u = true

/-- The last `k` decimal digits of a number, with leading zeros. -/
def zeroPadded : ℕ → ℕ → Text
  | 0, _ => []
  | k + 1, n => zeroPadded k (n / 10) ++ [Fin.ofNat 65536 (48 + n % 10)]

theorem isDigit_ofNat {n : ℕ} (h : n < 10) : isDigit (Fin.ofNat 65536 (48 + n)) = true := by
  have hall : ∀ n < 10, isDigit (Fin.ofNat 65536 (48 + n)) = true := by decide
  exact hall n h

theorem digits_zeroPadded (k n : ℕ) : Digits k (zeroPadded k n) := by
  induction k generalizing n with
  | zero => exact ⟨rfl, nofun⟩
  | succ k ih =>
      obtain ⟨hlength, hdigits⟩ := ih (n / 10)
      refine ⟨by rw [zeroPadded, List.length_append, hlength]; rfl, fun u hu => ?_⟩
      rcases List.mem_append.mp hu with hu | hu
      · exact hdigits u hu
      · rw [List.mem_singleton.mp hu]
        exact isDigit_ofNat (Nat.mod_lt _ (by decide))

theorem readDigits_zeroPadded (k n : ℕ) : readDigits (zeroPadded k n) = n % 10 ^ k := by
  induction k generalizing n with
  | zero => simp [zeroPadded, readDigits, Nat.mod_one]
  | succ k ih =>
      have hval : (Fin.ofNat 65536 (48 + n % 10)).val - 48 = n % 10 := by
        simp only [Fin.val_ofNat]
        omega
      rw [zeroPadded, readDigits_append, ih, hval, pow_succ, Nat.mul_comm (10 ^ k) 10,
        Nat.mod_mul]
      omega

theorem eatDigits_append {n : ℕ} {d r : Text} (h : Digits n d) : eatDigits n (d ++ r) = some r := by
  induction n generalizing d with
  | zero => rw [List.length_eq_zero_iff.mp h.1]; rfl
  | succ n ih =>
      cases d with
      | nil => cases h.1
      | cons u d =>
          rw [List.cons_append, eatDigits, if_pos (h.2 u List.mem_cons_self)]
          exact ih ⟨Nat.succ.inj h.1, fun v hv => h.2 v (List.mem_cons_of_mem u hv)⟩

theorem eatDigits_eq_some {n : ℕ} {t r : Text} (h : eatDigits n t = some r) :
    ∃ d, Digits n d ∧ t = d ++ r := by
  induction n generalizing t with
  | zero => exact ⟨[], ⟨rfl, nofun⟩, Option.some.inj h⟩
  | succ n ih =>
      cases t with
      | nil => cases h
      | cons u t =>
          rw [eatDigits] at h
          split_ifs at h with hu
          obtain ⟨d, hd, rfl⟩ := ih h
          exact ⟨u :: d, ⟨congrArg Nat.succ hd.1, List.forall_mem_cons.mpr ⟨hu, hd.2⟩⟩, rfl⟩

theorem eatChar_cons (c : Char) (r : Text) : eatChar c (unit c :: r) = some r := by
  rw [eatChar, if_pos (beq_self_eq_true _)]

theorem eatChar_eq_some {c : Char} {t r : Text} (h : eatChar c t = some r) : t = unit c :: r := by
  cases t with
  | nil => cases h
  | cons u t =>
      rw [eatChar] at h
      split_ifs at h with hu
      rw [Option.some.inj h, beq_iff_eq.mp hu]

theorem eatChar_cons_ne {c : Char} {u : CodeUnit} (h : u ≠ unit c) (r : Text) :
    eatChar c (u :: r) = none := by
  rw [eatChar, if_neg (by simpa using h)]

/-! ### The written form -/

/-- The pieces of a timestamp. -/
structure Stamp where
  year : Text
  month : Text
  day : Text
  hour : Text
  minute : Text
  second : Text
  fraction : Text
  zone : Text

/-- A zone: `Z`, or a sign and an offset. -/
def IsZone (z : Text) : Prop :=
  z = [unit 'Z'] ∨ ∃ sign h m, (sign = unit '+' ∨ sign = unit '-') ∧ Digits 2 h ∧ Digits 2 m ∧
    z = sign :: (h ++ unit ':' :: m)

namespace Stamp

/-- The fraction after the seconds, nothing without digits. -/
def fractionText (s : Stamp) : Text := if s.fraction = [] then [] else unit '.' :: s.fraction

def dateText (s : Stamp) : Text :=
  s.year ++ unit '-' :: (s.month ++ unit '-' :: s.day)

def clockText (s : Stamp) : Text :=
  s.hour ++ unit ':' :: (s.minute ++ unit ':' :: s.second)

def text (s : Stamp) : Text :=
  s.dateText ++ unit 'T' :: (s.clockText ++ (s.fractionText ++ s.zone))

/-- Pieces as the pattern of the protocol takes them. -/
structure Shaped (s : Stamp) : Prop where
  year : Digits 4 s.year
  month : Digits 2 s.month
  day : Digits 2 s.day
  hour : Digits 2 s.hour
  minute : Digits 2 s.minute
  second : Digits 2 s.second
  fraction : s.fraction.length ≤ 9 ∧ ∀ u ∈ s.fraction, isDigit u = true
  zone : IsZone s.zone

/-- What the pieces say. -/
def fields (s : Stamp) : TimestampFields where
  year := readDigits s.year
  month := readDigits s.month
  day := readDigits s.day
  hour := readDigits s.hour
  minute := readDigits s.minute
  second := readDigits s.second
  fraction := s.fraction
  negative := (eatChar '-' s.zone).isSome
  offsetHour := numberAt s.zone 1 2
  offsetMinute := numberAt s.zone 4 2

end Stamp

/-! ### Zones -/

theorem IsZone.cons {z : Text} (h : IsZone z) : ∃ u t, z = u :: t ∧ isDigit u = false ∧
    u ≠ unit '.' := by
  rcases h with rfl | ⟨sign, h, m, rfl | rfl, -, -, rfl⟩
  · exact ⟨_, _, rfl, by decide, by decide⟩
  · exact ⟨_, _, rfl, by decide, by decide⟩
  · exact ⟨_, _, rfl, by decide, by decide⟩

theorem eatZone_zone {z : Text} (h : IsZone z) : eatZone z = some [] := by
  rcases h with rfl | ⟨sign, h, m, rfl | rfl, hh, hm, rfl⟩
  · rfl
  · have hm' := eatDigits_append (r := []) hm
    rw [List.append_nil] at hm'
    rw [eatZone, eatChar_cons_ne (by decide)]
    simp only [eatChar_cons, Option.or, Option.bind_eq_bind, Option.bind_some,
      eatDigits_append hh, hm']
  · have hm' := eatDigits_append (r := []) hm
    rw [List.append_nil] at hm'
    rw [eatZone, eatChar_cons_ne (by decide)]
    simp only [eatChar_cons_ne (show unit '-' ≠ unit '+' by decide), eatChar_cons, Option.or,
      Option.bind_eq_bind, Option.bind_some, eatDigits_append hh, hm']

theorem isZone_of_eat {z : Text} (h : eatZone z = some []) : IsZone z := by
  unfold eatZone at h
  cases hz : eatChar 'Z' z with
  | some t =>
      rw [hz] at h
      rw [Option.some.inj h] at hz
      exact .inl (eatChar_eq_some hz)
  | none =>
      rw [hz] at h
      simp only [Option.bind_eq_bind, Option.bind_eq_some_iff] at h
      obtain ⟨t, hsign, t₂, hh, t₃, hcolon, hm⟩ := h
      obtain ⟨hd, hhd, rfl⟩ := eatDigits_eq_some hh
      obtain ⟨md, hmd, rfl⟩ := eatDigits_eq_some hm
      rw [List.append_nil] at hcolon
      rw [eatChar_eq_some hcolon] at hsign
      right
      cases hplus : eatChar '+' z with
      | some t =>
          rw [hplus] at hsign
          rw [Option.some.inj hsign] at hplus
          exact ⟨_, hd, md, .inl rfl, hhd, hmd, eatChar_eq_some hplus⟩
      | none =>
          rw [hplus] at hsign
          exact ⟨_, hd, md, .inr rfl, hhd, hmd, eatChar_eq_some hsign⟩

/-! ### Fractions -/

section fraction
variable {s : Stamp} (hd : ∀ u ∈ s.fraction, isDigit u = true) (hz : IsZone s.zone)
include hz

theorem Stamp.no_fraction (h : s.fraction = []) :
    s.fractionText ++ s.zone = s.zone ∧ eatChar '.' s.zone = none := by
  obtain ⟨u, t, hzone, -, hdot⟩ := hz.cons
  rw [Stamp.fractionText, if_pos h, hzone]
  exact ⟨rfl, eatChar_cons_ne hdot t⟩

include hd

theorem Stamp.takeWhile_fraction : (s.fraction ++ s.zone).takeWhile isDigit = s.fraction ∧
    (s.fraction ++ s.zone).dropWhile isDigit = s.zone := by
  obtain ⟨u, t, hzone, hu, -⟩ := hz.cons
  have hu' : ¬ isDigit u = true := by simp [hu]
  rw [hzone, List.takeWhile_append_of_pos hd, List.takeWhile_cons_of_neg hu', List.append_nil,
    List.dropWhile_append_of_pos hd, List.dropWhile_cons_of_neg hu']
  exact ⟨rfl, rfl⟩

omit hd hz in
theorem Stamp.eat_fraction (h : s.fraction ≠ []) :
    eatChar '.' (s.fractionText ++ s.zone) = some (s.fraction ++ s.zone) := by
  rw [Stamp.fractionText, if_neg h, List.cons_append, eatChar_cons]

end fraction

/-! ### The pattern of the protocol -/

namespace Stamp
variable {s : Stamp} (h : s.Shaped)
include h

theorem eatFraction_text : eatFraction (s.fractionText ++ s.zone) = some s.zone := by
  unfold eatFraction
  by_cases hf : s.fraction = []
  · obtain ⟨htext, hnone⟩ := no_fraction h.zone hf
    rw [htext, hnone]
  · have hpos := List.length_pos_iff.mpr hf
    rw [eat_fraction hf]
    dsimp only
    rw [(takeWhile_fraction h.fraction.2 h.zone).1, if_pos ⟨hpos, h.fraction.1⟩, List.drop_left]

theorem isTimestamp_text : isTimestamp s.text = true := by
  rw [isTimestamp, decide_eq_true_eq]
  simp only [text, dateText, clockText, List.append_assoc, List.cons_append,
    Option.bind_eq_bind, Option.bind_some, eatDigits_append h.year, eatDigits_append h.month,
    eatDigits_append h.day, eatDigits_append h.hour, eatDigits_append h.minute,
    eatDigits_append h.second, eatChar_cons, eatFraction_text h, eatZone_zone h.zone]

omit h in
/-- A field is where its place says. -/
theorem numberAt_mid {t p d r : Text} {start n : ℕ} (ht : t = p ++ (d ++ r))
    (hp : p.length = start) (hd : d.length = n) : numberAt t start n = readDigits d := by
  subst ht hp hd
  rw [numberAt, List.drop_left, List.take_left]

theorem length_dateText : s.dateText.length = 10 := by
  simp [dateText, h.year.1, h.month.1, h.day.1]

theorem length_clockText : s.clockText.length = 8 := by
  simp [clockText, h.hour.1, h.minute.1, h.second.1]

theorem drop_text : s.text.drop 19 = s.fractionText ++ s.zone := by
  have hsplit : s.text = (s.dateText ++ unit 'T' :: s.clockText) ++ (s.fractionText ++ s.zone) := by
    simp [text]
  have hlength : (s.dateText ++ unit 'T' :: s.clockText).length = 19 := by
    simp [length_dateText h, length_clockText h]
  rw [hsplit, ← hlength, List.drop_left]

/-- The pattern reads back the pieces. -/
theorem timestampFields_text : timestampFields s.text = some s.fields := by
  have hyear : numberAt s.text 0 4 = readDigits s.year :=
    numberAt_mid (p := []) (by simp only [text, dateText, List.append_assoc]; rfl) rfl h.year.1
  have hmonth : numberAt s.text 5 2 = readDigits s.month :=
    numberAt_mid (p := s.year ++ [unit '-'])
      (by simp only [text, dateText, List.append_assoc, List.cons_append, List.nil_append]; rfl)
      (by simp [h.year.1]) h.month.1
  have hday : numberAt s.text 8 2 = readDigits s.day :=
    numberAt_mid (p := s.year ++ unit '-' :: (s.month ++ [unit '-']))
      (by simp only [text, dateText, List.append_assoc, List.cons_append, List.nil_append]; rfl)
      (by simp [h.year.1, h.month.1]) h.day.1
  have hhour : numberAt s.text 11 2 = readDigits s.hour :=
    numberAt_mid (p := s.dateText ++ [unit 'T'])
      (by simp only [text, clockText, List.append_assoc, List.cons_append, List.nil_append]; rfl)
      (by simp [length_dateText h]) h.hour.1
  have hminute : numberAt s.text 14 2 = readDigits s.minute :=
    numberAt_mid (p := s.dateText ++ unit 'T' :: (s.hour ++ [unit ':']))
      (by simp only [text, clockText, List.append_assoc, List.cons_append, List.nil_append]; rfl)
      (by simp [length_dateText h, h.hour.1]) h.minute.1
  have hsecond : numberAt s.text 17 2 = readDigits s.second :=
    numberAt_mid (p := s.dateText ++ unit 'T' :: (s.hour ++ unit ':' :: (s.minute ++ [unit ':'])))
      (by simp only [text, clockText, List.append_assoc, List.cons_append, List.nil_append]; rfl)
      (by simp [length_dateText h, h.hour.1, h.minute.1]) h.second.1
  unfold timestampFields
  rw [if_pos (isTimestamp_text h)]
  dsimp only
  rw [drop_text h, hyear, hmonth, hday, hhour, hminute, hsecond]
  by_cases hf : s.fraction = []
  · obtain ⟨htext, hnone⟩ := no_fraction h.zone hf
    rw [htext, hnone]
    simp only [fields, hf]
  · obtain ⟨htake, hdrop⟩ := takeWhile_fraction h.fraction.2 h.zone
    rw [eat_fraction hf]
    dsimp only
    rw [htake, hdrop, fields]

end Stamp

end QeReport

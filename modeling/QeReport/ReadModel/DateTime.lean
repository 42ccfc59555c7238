import QeReport.ReadModel.HistoryOrder

/-! # The timestamps of the schema

The schema accepts a timestamp by its pattern and by the `date-time` format, which reads a time
that is not ordinary as a leap second after borrowing an hour for a negative minute.
`historyInstant` bounds the hour and the minute before it looks at the second, so the two agree
except on an hour or a minute out of range that a positive offset brings back to 23:59
(`historyInstant_schema_iff`). -/

namespace QeReport

namespace TimestampFields
variable (f : TimestampFields)

/-- The date is one of the calendar. -/
def isDate : Bool := 1 ≤ f.month && f.month ≤ 12 && 1 ≤ f.day && f.day ≤ f.daysInMonth

def sign : ℤ := if f.negative then -1 else 1

/-- `min - tzM * tzSign`. -/
def utcMinute : ℤ := f.minute - f.sign * f.offsetMinute

/-- `hr - tzH * tzSign - (utcMin < 0 ? 1 : 0)`. -/
def utcHour : ℤ := f.hour - f.sign * f.offsetHour - (if f.utcMinute < 0 then 1 else 0)

/-- The time of the `date-time` format. -/
def isTime : Bool :=
  f.offsetHour ≤ 23 && f.offsetMinute ≤ 59 &&
    ((f.hour ≤ 23 && f.minute ≤ 59 && f.second < 60) ||
      ((f.utcHour == 23 || f.utcHour == -1) && (f.utcMinute == 59 || f.utcMinute == -1) &&
        f.second < 61))

/-- An hour or a minute out of range that the offset brings back to 23:59. -/
structure Beyond : Prop where
  date : f.isDate = true
  offset : f.offsetHour ≤ 23 ∧ f.offsetMinute ≤ 59
  second : f.second ≤ 60
  positive : f.negative = false
  clock : (f.hour = 23 + f.offsetHour ∧ f.minute = 59 + f.offsetMinute ∧
      0 < f.offsetHour + f.offsetMinute) ∨
    (f.hour + 1 = f.offsetHour ∧ f.minute = 59 + f.offsetMinute ∧ 0 < f.offsetMinute) ∨
    (f.hour = 24 + f.offsetHour ∧ f.minute + 1 = f.offsetMinute)

theorem offset_eq : f.offset = f.sign * f.offsetHour * 60 + f.sign * f.offsetMinute := by
  rw [offset, sign]
  split_ifs
  · omega
  · omega

variable {f}

theorem isDate_iff : f.isDate = true ↔
    ¬ (f.month < 1 ∨ f.month > 12 ∨ f.day < 1 ∨ f.day > f.daysInMonth) := by
  rw [isDate]
  simp only [Bool.and_eq_true, decide_eq_true_eq]
  omega

/-- A clock in range stands at a leap second for the format exactly when it is 23:59 UTC. -/
theorem leap_iff (hhour : f.hour ≤ 23) (hminute : f.minute ≤ 59) (hoffset : f.offsetHour ≤ 23)
    (hoffset' : f.offsetMinute ≤ 59) : f.utcMinuteOfDay = 1439 ↔
      (f.utcHour = 23 ∨ f.utcHour = -1) ∧ (f.utcMinute = 59 ∨ f.utcMinute = -1) := by
  rw [utcMinuteOfDay, offset_eq, utcHour, utcMinute, sign]
  cases f.negative with
  | true =>
      simp only [if_true]
      split_ifs <;> omega
  | false =>
      simp only [Bool.false_eq_true, if_false]
      split_ifs <;> omega

/-- A clock out of range stands at a leap second for the format only under a positive offset. -/
theorem beyond_iff (hout : f.hour > 23 ∨ f.minute > 59) (hoffset : f.offsetHour ≤ 23)
    (hoffset' : f.offsetMinute ≤ 59) :
    ((f.utcHour = 23 ∨ f.utcHour = -1) ∧ (f.utcMinute = 59 ∨ f.utcMinute = -1)) ↔
      f.negative = false ∧
        ((f.hour = 23 + f.offsetHour ∧ f.minute = 59 + f.offsetMinute ∧
            0 < f.offsetHour + f.offsetMinute) ∨
          (f.hour + 1 = f.offsetHour ∧ f.minute = 59 + f.offsetMinute ∧ 0 < f.offsetMinute) ∨
          (f.hour = 24 + f.offsetHour ∧ f.minute + 1 = f.offsetMinute)) := by
  rw [utcHour, utcMinute, sign]
  cases f.negative with
  | true =>
      simp only [if_true, Bool.true_eq_false, false_and, iff_false]
      split_ifs <;> omega
  | false =>
      simp only [Bool.false_eq_true, if_false, true_and]
      split_ifs <;> omega

/-- The fields have a position. -/
theorem instant?_isSome : f.instant?.isSome = true ↔ f.isDate = true ∧ f.hour ≤ 23 ∧
    f.minute ≤ 59 ∧ f.second ≤ 60 ∧ f.offsetHour ≤ 23 ∧ f.offsetMinute ≤ 59 ∧
    (f.second < 60 ∨ f.utcMinuteOfDay = 1439) := by
  rw [instant?, isDate_iff]
  split_ifs with h1 h2 h3 h4
  · simp only [Option.isSome_none, Bool.false_eq_true, false_iff]
    rintro ⟨h, -⟩
    exact h h1
  · simp only [Option.isSome_none, Bool.false_eq_true, false_iff]
    rintro ⟨-, h⟩
    omega
  · simp only [Option.isSome_some, true_iff]
    omega
  · simp only [Option.isSome_none, Bool.false_eq_true, false_iff]
    rintro ⟨-, -, -, -, -, -, h | h⟩
    · exact h3 h
    · exact h4 h
  · simp only [Option.isSome_some, true_iff]
    rw [ne_eq, not_not] at h4
    refine ⟨h1, ?_⟩
    omega

theorem isTime_iff : f.isTime = true ↔ f.offsetHour ≤ 23 ∧ f.offsetMinute ≤ 59 ∧
    ((f.hour ≤ 23 ∧ f.minute ≤ 59 ∧ f.second < 60) ∨
      ((f.utcHour = 23 ∨ f.utcHour = -1) ∧ (f.utcMinute = 59 ∨ f.utcMinute = -1)) ∧
        f.second < 61) := by
  rw [isTime]
  simp only [Bool.and_eq_true, Bool.or_eq_true, decide_eq_true_eq, beq_iff_eq, and_assoc]

end TimestampFields

/-- The schema's `timestamp`: the pattern, and the `date-time` format. -/
def isSchemaTimestamp (t : Text) : Bool :=
  match timestampFields t with
  | none => false
  | some f => f.isDate && f.isTime

theorem exists_historyInstant {t : Text} : (∃ i, historyInstant t = .ok i) ↔
    ∃ f, timestampFields t = some f ∧ f.instant?.isSome = true := by
  unfold historyInstant
  cases timestampFields t with
  | none => simp
  | some f =>
      rw [Option.bind_some]
      cases hi : f.instant? with
      | none => simp [hi]
      | some i => simp [hi]

/-- A timestamp has a position exactly when the schema accepts it, unless its hour or its minute
is out of range and a positive offset brings it back to 23:59. -/
theorem historyInstant_schema_iff (t : Text) :
    ((∃ i, historyInstant t = .ok i) ↔ isSchemaTimestamp t = true) ↔
      ∀ f, timestampFields t = some f → ¬ f.Beyond := by
  rw [exists_historyInstant, isSchemaTimestamp]
  cases timestampFields t with
  | none => simp
  | some f =>
      simp only [Option.some.injEq, exists_eq_left', forall_eq', Bool.and_eq_true]
      rw [TimestampFields.instant?_isSome, TimestampFields.isTime_iff]
      by_cases hoffset : f.offsetHour ≤ 23 ∧ f.offsetMinute ≤ 59
      · by_cases hin : f.hour ≤ 23 ∧ f.minute ≤ 59
        · -- the clock is in range: both ask for an ordinary second or for 23:59 UTC
          have hleap := TimestampFields.leap_iff hin.1 hin.2 hoffset.1 hoffset.2
          have hnot : ¬ f.Beyond := by
            intro hb
            have hclock := hb.clock
            omega
          rw [← hleap]
          refine iff_of_true ?_ hnot
          refine and_congr_right (fun _ => ?_)
          omega
        · -- the clock is out of range: it has no position
          have hout : f.hour > 23 ∨ f.minute > 59 := by omega
          have hbeyond := TimestampFields.beyond_iff hout hoffset.1 hoffset.2
          rw [hbeyond]
          constructor
          · intro h hb
            have hvalid := h.mpr ⟨hb.date, hoffset.1, hoffset.2, .inr ⟨⟨hb.positive, hb.clock⟩,
              Nat.lt_succ_of_le hb.second⟩⟩
            omega
          · intro hb
            refine iff_of_false ?_ ?_
            · rintro ⟨-, h⟩
              omega
            · rintro ⟨hdate, -, -, h | ⟨⟨hpositive, hclock⟩, hsecond⟩⟩
              · omega
              · exact hb ⟨hdate, hoffset, by omega, hpositive, hclock⟩
      · refine iff_of_true (iff_of_false ?_ ?_) ?_
        · rintro ⟨-, -, -, -, h⟩
          omega
        · rintro ⟨-, h⟩
          omega
        · intro hb
          exact hoffset hb.offset

/-- 24:59:60 at one hour east of Greenwich is 23:59:60 UTC for the format, and no time here. -/
theorem historyInstant_beyond :
    ¬ ∀ t : Text, (∃ i, historyInstant t = .ok i) ↔ isSchemaTimestamp t = true := by
  intro h
  have hvalid : isSchemaTimestamp (txt "2026-01-01T24:59:60+01:00") = true := by decide
  obtain ⟨i, hi⟩ := (h (txt "2026-01-01T24:59:60+01:00")).mpr hvalid
  have hnone : (historyInstant (txt "2026-01-01T24:59:60+01:00")).toOption.isNone = true := by
    decide
  rw [hi] at hnone
  cases hnone

end QeReport

import QeReport.ReadModel.Stamp
import QeReport.Lib.Double

/-! # Operational instants

An expiry is stated as a `Date`, as a retention from now on, or as a text, and travels as the text
`toISOString` writes.  Client and server read the same texts as the same milliseconds; the text of
a year outside 0 to 9999 has six digits and a sign, which neither takes.  So an accepted expiry
arrives unchanged exactly when it lies in these years (`expiry_unchanged_iff`). -/

namespace QeReport.Http

/-! ### The grammar -/

/-- `([01]\d|2[0-3])`. -/
def eatHour : Text → Option Text
  | u :: v :: t =>
      if ((u == unit '0' || u == unit '1') && isDigit v) ||
        (u == unit '2' && unit '0' ≤ v && v ≤ unit '3') then some t
      else none
  | _ => none

/-- `([0-5]\d)`. -/
def eatSixty : Text → Option Text
  | u :: v :: t => if unit '0' ≤ u && u ≤ unit '5' && isDigit v then some t else none
  | _ => none

/-- `(?:\.(\d{1,3}))?`. -/
def eatMillis (t : Text) : Option Text :=
  match eatChar '.' t with
  | none => some t
  | some t =>
      let n := (t.takeWhile isDigit).length
      if 1 ≤ n ∧ n ≤ 3 then some (t.drop n) else none

/-- `OPERATIONAL`, the same language on both sides. -/
def isOperational (t : Text) : Bool :=
  let rest : Option Text := do
    let t ← eatChar '-' (← eatDigits 4 t)
    let t ← eatChar '-' (← eatDigits 2 t)
    let t ← eatChar 'T' (← eatDigits 2 t)
    let t ← eatChar ':' (← eatHour t)
    let t ← eatChar ':' (← eatSixty t)
    let t ← eatMillis (← eatSixty t)
    eatZone t
  rest = some []

/-- `OPERATIONAL_INSTANT_GRAMMAR`. -/
def operationalInstantGrammar : Text :=
  txt "an RFC 3339 instant with an explicit offset, seconds 00 to 59, and at most millisecond precision, such as 2027-01-01T00:00:00Z or 2027-01-01T00:00:00.123Z"

/-- `NotAnInstant`: its message. -/
def notAnInstant (what : Text) : Text := what ++ txt " must be " ++ operationalInstantGrammar

/-! ### Dates -/

/-- A valid `Date`: a whole number of milliseconds from the first of January 1970. -/
structure Date where
  ms : ℤ
  valid : |ms| ≤ 8640000000000000
deriving DecidableEq

/-- `new Date(ms)`; an invalid date is `none`. -/
def timeClip (ms : ℤ) : Option Date :=
  if h : |ms| ≤ 8640000000000000 then some ⟨ms, h⟩ else none

/-- The year of `toISOString`: four digits, or a sign and six. -/
def isoYear (y : ℤ) : Text :=
  if 0 ≤ y ∧ y ≤ 9999 then zeroPadded 4 y.toNat
  else (if y < 0 then unit '-' else unit '+') :: zeroPadded 6 y.natAbs

/-- The calendar date; a thousand cycles of four hundred years keep the days positive. -/
def Date.calendar (d : Date) : Calendar.Date :=
  Calendar.dateAt (d.ms / 86400000 + 719528 + 146097000).toNat

/-- The milliseconds of the day. -/
def Date.clock (d : Date) : ℕ := (d.ms % 86400000).toNat

def Date.year (d : Date) : ℤ := d.calendar.year - 400000

/-- `date.toISOString()`. -/
def Date.toISOString (d : Date) : Text :=
  isoYear d.year ++ unit '-' :: (zeroPadded 2 d.calendar.month ++ unit '-' ::
    (zeroPadded 2 d.calendar.day ++ unit 'T' :: (zeroPadded 2 (d.clock / 3600000) ++ unit ':' ::
      (zeroPadded 2 (d.clock / 60000 % 60) ++ unit ':' :: (zeroPadded 2 (d.clock / 1000 % 60) ++
        unit '.' :: (zeroPadded 3 (d.clock % 1000) ++ [unit 'Z']))))))

/-! ### The client -/

namespace Client

/-- `parseOperationalInstant(text, what)` of a string; the groups of its pattern stand where those
of the protocol's pattern stand. -/
def parseOperationalInstant (text what : Text) : Except Text Date :=
  if !isOperational text then .error (notAnInstant what)
  else
    match timestampFields text with
    | none => .error (notAnInstant what)
    | some f =>
        if f.month < 1 ∨ f.month > 12 ∨ f.day < 1 ∨ f.day > f.daysInMonth then
          .error (notAnInstant what)
        else if f.offsetHour > 23 ∨ f.offsetMinute > 59 then .error (notAnInstant what)
        else
          match timeClip (f.dateParse f.second f.millisecond) with
          | none => .error (notAnInstant what)
          | some date => .ok date

/-- `checkExpiresAt(expiresAt)`; an invalid date, or a value that is no date, is `none`. -/
def checkExpiresAt (expiresAt : Option Date) : Except Text Date :=
  match expiresAt with
  | none => .error
      (txt "expiresAt must be a valid Date: the instant after which the run may be deleted")
  | some date => .ok date

/-- `expiryAfter(retentionMs, now)`; a number that is not finite is `none`. -/
def expiryAfter (retentionMs : Option ℚ) (now : Option Date) : Except Text Date :=
  match retentionMs with
  | none => .error (txt "retentionMs must be a whole number of milliseconds of at least one")
  | some n =>
      if n.den ≠ 1 ∨ n < 1 then
        .error (txt "retentionMs must be a whole number of milliseconds of at least one")
      else
        match now with
        | none => .error (txt "now must be a valid Date")
        | some now =>
            match timeClip (double (now.ms + n)).num with
            | none => .error (txt "retentionMs is so large that it names no instant")
            | some date => .ok date

end Client

/-! ### The server -/

namespace Server

/-- `parseOperationalInstant(text, what)` of a string. -/
def parseOperationalInstant (text what : Text) : Except Text Date :=
  if !isOperational text then .error (notAnInstant what)
  else
    match historyInstant text with
    | .error _ => .error (notAnInstant what)
    | .ok position =>
        if position.leap ≠ 0 then .error (notAnInstant what)
        else
          match timeClip position.epochMs with
          | none => .error (notAnInstant what)
          | some date => .ok date

end Server

/-! ### The pieces the grammar takes -/

theorem readDigits_two (u v : CodeUnit) :
    readDigits [u, v] = 10 * (u.val - 48) + (v.val - 48) := by
  simp [readDigits]

/-- Two digits that read as at most `bound`. -/
def TwoDigits (bound : ℕ) (t : Text) : Prop := Digits 2 t ∧ readDigits t ≤ bound

theorem isDigit_bounds {u : CodeUnit} (h : isDigit u = true) : 48 ≤ u.val ∧ u.val ≤ 57 := by
  rw [isDigit, Bool.and_eq_true, decide_eq_true_eq, decide_eq_true_eq] at h
  exact h

theorem twoDigits_eq {bound : ℕ} {t : Text} (h : TwoDigits bound t) : ∃ u v, t = [u, v] ∧
    48 ≤ u.val ∧ u.val ≤ 57 ∧ 48 ≤ v.val ∧ v.val ≤ 57 ∧
      10 * (u.val - 48) + (v.val - 48) ≤ bound := by
  obtain ⟨⟨hlength, hdigits⟩, hbound⟩ := h
  obtain ⟨u, v, rfl⟩ := List.length_eq_two.mp hlength
  have hu := isDigit_bounds (hdigits u (by simp))
  have hv := isDigit_bounds (hdigits v (by simp))
  rw [readDigits_two] at hbound
  exact ⟨u, v, rfl, hu.1, hu.2, hv.1, hv.2, hbound⟩

theorem isDigit_of_bounds {u : CodeUnit} (hlow : 48 ≤ u.val) (hhigh : u.val ≤ 57) :
    isDigit u = true := by
  rw [isDigit, Bool.and_eq_true, decide_eq_true_eq, decide_eq_true_eq]
  exact ⟨hlow, hhigh⟩

theorem twoDigits_of {bound : ℕ} {u v : CodeUnit} (hu : 48 ≤ u.val ∧ u.val ≤ 57)
    (hv : 48 ≤ v.val ∧ v.val ≤ 57) (h : 10 * (u.val - 48) + (v.val - 48) ≤ bound) :
    TwoDigits bound [u, v] := by
  refine ⟨⟨rfl, fun w hw => ?_⟩, by rw [readDigits_two]; exact h⟩
  simp only [List.mem_cons, List.not_mem_nil, or_false] at hw
  rcases hw with rfl | rfl
  · exact isDigit_of_bounds hu.1 hu.2
  · exact isDigit_of_bounds hv.1 hv.2

theorem eatSixty_append {m r : Text} (h : TwoDigits 59 m) : eatSixty (m ++ r) = some r := by
  obtain ⟨u, v, rfl, hu, hu', hv, hv', hbound⟩ := twoDigits_eq h
  have hcondition : (unit '0' ≤ u && u ≤ unit '5' && isDigit v) = true := by
    rw [isDigit_of_bounds hv hv', Bool.and_true, Bool.and_eq_true, decide_eq_true_eq,
      decide_eq_true_eq]
    refine ⟨hu, ?_⟩
    change u.val ≤ 53
    omega
  exact if_pos hcondition

theorem eatSixty_eq_some {t r : Text} (h : eatSixty t = some r) :
    ∃ m, TwoDigits 59 m ∧ t = m ++ r := by
  match t with
  | [] => cases h
  | [_] => cases h
  | u :: v :: t =>
      rw [eatSixty] at h
      split_ifs at h with hcondition
      simp only [Bool.and_eq_true, decide_eq_true_eq] at hcondition
      obtain ⟨⟨hu, hu'⟩, hv⟩ := hcondition
      have hu' : u.val ≤ 53 := hu'
      have hu : 48 ≤ u.val := hu
      have hv := isDigit_bounds hv
      exact ⟨[u, v], twoDigits_of ⟨hu, by omega⟩ hv (by omega), by rw [Option.some.inj h]; rfl⟩

theorem eatHour_append {m r : Text} (h : TwoDigits 23 m) : eatHour (m ++ r) = some r := by
  obtain ⟨u, v, rfl, hu, hu', hv, hv', hbound⟩ := twoDigits_eq h
  have hcondition : (((u == unit '0' || u == unit '1') && isDigit v) ||
      (u == unit '2' && unit '0' ≤ v && v ≤ unit '3')) = true := by
    have hcases : u.val = 48 ∨ u.val = 49 ∨ (u.val = 50 ∧ v.val ≤ 51) := by omega
    rcases hcases with h0 | h1 | ⟨h2, h3⟩
    · have hunit : u = unit '0' := Fin.ext h0
      simp [hunit, isDigit_of_bounds hv hv']
    · have hunit : u = unit '1' := Fin.ext h1
      simp [hunit, isDigit_of_bounds hv hv']
    · have hunit : u = unit '2' := Fin.ext h2
      have hlow : unit '0' ≤ v := hv
      have hhigh : v ≤ unit '3' := h3
      simp [hunit, hlow, hhigh]
  exact if_pos hcondition

theorem eatHour_eq_some {t r : Text} (h : eatHour t = some r) :
    ∃ m, TwoDigits 23 m ∧ t = m ++ r := by
  match t with
  | [] => cases h
  | [_] => cases h
  | u :: v :: t =>
      rw [eatHour] at h
      split_ifs at h with hcondition
      simp only [Bool.or_eq_true, Bool.and_eq_true, beq_iff_eq, decide_eq_true_eq] at hcondition
      refine ⟨[u, v], ?_, by rw [Option.some.inj h]; rfl⟩
      rcases hcondition with ⟨hu, hv⟩ | ⟨⟨rfl, hlow⟩, hhigh⟩
      · have hv := isDigit_bounds hv
        rcases hu with rfl | rfl
        · exact twoDigits_of (by decide) hv (by change 10 * (48 - 48) + _ ≤ _; omega)
        · exact twoDigits_of (by decide) hv (by change 10 * (49 - 48) + _ ≤ _; omega)
      · have hlow : 48 ≤ v.val := hlow
        have hhigh : v.val ≤ 51 := hhigh
        exact twoDigits_of (by decide) ⟨hlow, by omega⟩ (by change 10 * (50 - 48) + _ ≤ _; omega)

/-- Pieces as the grammar of instants takes them. -/
structure Operational (s : Stamp) : Prop where
  shaped : s.Shaped
  fraction : s.fraction.length ≤ 3
  hour : TwoDigits 23 s.hour
  minute : TwoDigits 59 s.minute
  second : TwoDigits 59 s.second

theorem eatMillis_text {s : Stamp} (h : Operational s) :
    eatMillis (s.fractionText ++ s.zone) = some s.zone := by
  unfold eatMillis
  by_cases hf : s.fraction = []
  · obtain ⟨htext, hnone⟩ := Stamp.no_fraction h.shaped.zone hf
    rw [htext, hnone]
  · have hpos := List.length_pos_iff.mpr hf
    rw [Stamp.eat_fraction hf]
    dsimp only
    rw [(Stamp.takeWhile_fraction h.shaped.fraction.2 h.shaped.zone).1,
      if_pos ⟨hpos, h.fraction⟩, List.drop_left]

theorem isOperational_text {s : Stamp} (h : Operational s) : isOperational s.text = true := by
  rw [isOperational, decide_eq_true_eq]
  simp only [Stamp.text, Stamp.dateText, Stamp.clockText, List.append_assoc, List.cons_append,
    Option.bind_eq_bind, Option.bind_some, eatDigits_append h.shaped.year,
    eatDigits_append h.shaped.month, eatDigits_append h.shaped.day, eatHour_append h.hour,
    eatSixty_append h.minute, eatSixty_append h.second, eatChar_cons, eatMillis_text h,
    eatZone_zone h.shaped.zone]

theorem eatMillis_eq_some {t r : Text} (h : eatMillis t = some r) :
    ∃ f : Text, f.length ≤ 3 ∧ (∀ u ∈ f, isDigit u = true) ∧
      t = (if f = [] then [] else unit '.' :: f) ++ r := by
  unfold eatMillis at h
  cases hdot : eatChar '.' t with
  | none =>
      rw [hdot] at h
      exact ⟨[], by decide, nofun, Option.some.inj h⟩
  | some t' =>
      rw [hdot] at h
      dsimp only at h
      split_ifs at h with hlength
      have hne : t'.takeWhile isDigit ≠ [] := List.length_pos_iff.mp hlength.1
      refine ⟨t'.takeWhile isDigit, hlength.2, fun u hu => ?_, ?_⟩
      · exact List.mem_takeWhile_imp hu
      · have hsplit := List.takeWhile_append_dropWhile (p := isDigit) (l := t')
        have hdrop : t'.drop (t'.takeWhile isDigit).length = t'.dropWhile isDigit :=
          (congrArg (List.drop _) hsplit.symm).trans List.drop_left
        rw [if_neg hne, eatChar_eq_some hdot, ← Option.some.inj h, hdrop, List.cons_append, hsplit]

theorem pieces_of_operational {t : Text} (h : isOperational t = true) :
    ∃ s, Operational s ∧ t = s.text := by
  rw [isOperational, decide_eq_true_eq] at h
  simp only [Option.bind_eq_bind, Option.bind_eq_some_iff] at h
  obtain ⟨a₁, hy, t₁, hc₁, a₂, hmo, t₂, hc₂, a₃, hd, t₃, hc₃, a₄, hh, t₄, hc₄, a₅, hmi, t₅, hc₅, a₆,
    hs, t₆, hf, hz⟩ := h
  obtain ⟨year, hyear, rfl⟩ := eatDigits_eq_some hy
  obtain ⟨month, hmonth, rfl⟩ := eatDigits_eq_some hmo
  obtain ⟨day, hday, rfl⟩ := eatDigits_eq_some hd
  obtain ⟨hour, hhour, rfl⟩ := eatHour_eq_some hh
  obtain ⟨minute, hminute, rfl⟩ := eatSixty_eq_some hmi
  obtain ⟨second, hsecond, rfl⟩ := eatSixty_eq_some hs
  obtain ⟨fraction, hlength, hdigits, rfl⟩ := eatMillis_eq_some hf
  refine ⟨⟨year, month, day, hour, minute, second, fraction, t₆⟩, ⟨⟨hyear, hmonth, hday, hhour.1,
    hminute.1, hsecond.1, ⟨by dsimp only; omega, hdigits⟩, isZone_of_eat hz⟩, hlength, hhour,
    hminute, hsecond⟩, ?_⟩
  rw [eatChar_eq_some hc₁, eatChar_eq_some hc₂, eatChar_eq_some hc₃, eatChar_eq_some hc₄,
    eatChar_eq_some hc₅]
  simp only [Stamp.text, Stamp.dateText, Stamp.clockText, Stamp.fractionText, List.append_assoc,
    List.cons_append]

/-! ### The parsers -/

/-- What both parsers make of the pieces. -/
def readStamp (s : Stamp) (what : Text) : Except Text Date :=
  if ¬ (s.fields.month < 1 ∨ s.fields.month > 12 ∨ s.fields.day < 1 ∨
      s.fields.day > s.fields.daysInMonth) ∧
      s.fields.offsetHour ≤ 23 ∧ s.fields.offsetMinute ≤ 59 then
    match timeClip (s.fields.dateParse s.fields.second s.fields.millisecond) with
    | none => .error (notAnInstant what)
    | some date => .ok date
  else .error (notAnInstant what)

theorem client_text {s : Stamp} (h : Operational s) (what : Text) :
    Client.parseOperationalInstant s.text what = readStamp s what := by
  rw [Client.parseOperationalInstant, isOperational_text h, Stamp.timestampFields_text h.shaped,
    readStamp]
  simp only [Bool.not_true, Bool.false_eq_true, if_false]
  split_ifs with hdate hboth hoffset hboth hboth
  · exact absurd hdate hboth.1
  · rfl
  · omega
  · rfl
  · rfl
  · exact absurd ⟨hdate, by omega, by omega⟩ hboth

theorem server_text {s : Stamp} (h : Operational s) (what : Text) :
    Server.parseOperationalInstant s.text what = readStamp s what := by
  have hhour : s.fields.hour ≤ 23 := h.hour.2
  have hminute : s.fields.minute ≤ 59 := h.minute.2
  have hsecond : s.fields.second ≤ 59 := h.second.2
  rw [Server.parseOperationalInstant, isOperational_text h, historyInstant,
    Stamp.timestampFields_text h.shaped, Option.bind_some, readStamp]
  unfold TimestampFields.instant?
  simp only [Bool.not_true, Bool.false_eq_true, if_false]
  by_cases hdate : s.fields.month < 1 ∨ s.fields.month > 12 ∨ s.fields.day < 1 ∨
      s.fields.day > s.fields.daysInMonth
  · rw [if_pos hdate, if_neg (fun hboth => hboth.1 hdate)]
  · rw [if_neg hdate]
    by_cases hoffset : s.fields.offsetHour ≤ 23 ∧ s.fields.offsetMinute ≤ 59
    · rw [if_neg (by omega), if_pos (by omega), if_pos ⟨hdate, hoffset⟩]
      rfl
    · rw [if_pos (by omega), if_neg (fun hboth => hoffset hboth.2)]

/-- Client and server accept the same texts, as the same instants and with the same message. -/
theorem parsers_agree (text what : Text) :
    Client.parseOperationalInstant text what = Server.parseOperationalInstant text what := by
  by_cases h : isOperational text = true
  · obtain ⟨s, hs, rfl⟩ := pieces_of_operational h
    rw [client_text hs, server_text hs]
  · rw [Client.parseOperationalInstant, Server.parseOperationalInstant, if_pos (by simp [h]),
      if_pos (by simp [h])]

/-! ### The written date -/

/-- The years 0 to 9999 in UTC. -/
def FourDigitYear (ms : ℤ) : Prop := -62167219200000 ≤ ms ∧ ms ≤ 253402300799999

instance (ms : ℤ) : Decidable (FourDigitYear ms) := inferInstanceAs (Decidable (_ ∧ _))

section date
variable (d : Date)

/-- The days of a date from the first of January of the year −400000. -/
theorem shifted_days : ((d.ms / 86400000 + 719528 + 146097000).toNat : ℤ) =
    d.ms / 86400000 + 719528 + 146097000 := by
  have hvalid := abs_le.mp d.valid
  rw [Int.toNat_of_nonneg]
  omega

theorem clock_eq : (d.clock : ℤ) = d.ms % 86400000 :=
  Int.toNat_of_nonneg (Int.emod_nonneg _ (by decide))

theorem clock_lt : d.clock < 86400000 := by
  have h := clock_eq d
  omega

theorem fourDigitYear_iff : (0 ≤ d.year ∧ d.year ≤ 9999) ↔ FourDigitYear d.ms := by
  have hdays := shifted_days d
  obtain ⟨hlow, hhigh⟩ := Calendar.yearAt_spec (d.ms / 86400000 + 719528 + 146097000).toNat
  have hyear : d.year = (Calendar.yearAt (d.ms / 86400000 + 719528 + 146097000).toNat : ℕ) - 400000 :=
    rfl
  have hfirst : Calendar.daysBeforeYear 400000 = 146097000 := by
    rw [← Calendar.yearStart_eq]
    rfl
  have hlast : Calendar.daysBeforeYear 410000 = 149749425 := by
    rw [← Calendar.yearStart_eq]
    rfl
  rw [hyear, FourDigitYear]
  generalize (d.ms / 86400000 + 719528 + 146097000).toNat = n at hdays hlow hhigh
  generalize Calendar.yearAt n = y at hlow hhigh
  constructor
  · rintro ⟨h0, h9⟩
    have hstart := Calendar.daysBeforeYear_mono (show 400000 ≤ y by omega)
    have hend := Calendar.daysBeforeYear_mono (show y + 1 ≤ 410000 by omega)
    omega
  · rintro ⟨h0, h9⟩
    constructor
    · by_contra hneg
      have hend := Calendar.daysBeforeYear_mono (show y + 1 ≤ 400000 by omega)
      omega
    · by_contra hbig
      have hstart := Calendar.daysBeforeYear_mono (show 410000 ≤ y by omega)
      omega

/-- The pieces of the written date. -/
def Date.stamp : Stamp where
  year := zeroPadded 4 d.year.toNat
  month := zeroPadded 2 d.calendar.month
  day := zeroPadded 2 d.calendar.day
  hour := zeroPadded 2 (d.clock / 3600000)
  minute := zeroPadded 2 (d.clock / 60000 % 60)
  second := zeroPadded 2 (d.clock / 1000 % 60)
  fraction := zeroPadded 3 (d.clock % 1000)
  zone := [unit 'Z']

theorem fraction_ne_nil : d.stamp.fraction ≠ [] := by
  have hlength : d.stamp.fraction.length = 3 := (digits_zeroPadded 3 (d.clock % 1000)).1
  intro hnil
  rw [hnil] at hlength
  cases hlength

theorem stamp_operational : Operational d.stamp := by
  have hclock := clock_lt d
  have htwo : ∀ n, Digits 2 (zeroPadded 2 n) := digits_zeroPadded 2
  refine ⟨⟨digits_zeroPadded 4 _, htwo _, htwo _, htwo _, htwo _, htwo _,
    ⟨?_, (digits_zeroPadded 3 _).2⟩, .inl rfl⟩, ?_, ⟨htwo _, ?_⟩, ⟨htwo _, ?_⟩, ⟨htwo _, ?_⟩⟩
  · exact (digits_zeroPadded 3 _).1.trans_le (by decide)
  · exact (digits_zeroPadded 3 _).1.le
  · simp only [Date.stamp, readDigits_zeroPadded]
    omega
  · simp only [Date.stamp, readDigits_zeroPadded]
    omega
  · simp only [Date.stamp, readDigits_zeroPadded]
    omega

theorem toISOString_eq (h : FourDigitYear d.ms) : d.toISOString = d.stamp.text := by
  have hyear := (fourDigitYear_iff d).mpr h
  rw [Date.toISOString, isoYear, if_pos hyear, Stamp.text, Stamp.fractionText,
    if_neg (fraction_ne_nil d)]
  simp only [Stamp.dateText, Stamp.clockText, Date.stamp, List.append_assoc, List.cons_append]

/-- The fields that are read back. -/
structure ReadBack (f : TimestampFields) : Prop where
  year : (f.year : ℤ) = d.year
  month : f.month = d.calendar.month
  day : f.day = d.calendar.day
  offset : f.offset = 0 ∧ f.offsetHour = 0 ∧ f.offsetMinute = 0
  clock : ((f.hour * 60 + f.minute) * 60 + f.second) * 1000 + f.millisecond = d.clock

theorem calendar_valid : d.calendar.Valid := (Calendar.dateAt_spec _).1

theorem readBack_fields (h : FourDigitYear d.ms) : ReadBack d d.stamp.fields := by
  obtain ⟨h0, h9⟩ := (fourDigitYear_iff d).mpr h
  have hvalid := calendar_valid d
  have hmonthLength : Calendar.monthLength d.calendar.year d.calendar.month ≤ 31 := by
    unfold Calendar.monthLength
    split_ifs <;> omega
  have hclock := clock_lt d
  have hm := hvalid.month
  have hd := hvalid.day
  have hzone : (eatChar '-' d.stamp.zone).isSome = false ∧ numberAt d.stamp.zone 1 2 = 0 ∧
      numberAt d.stamp.zone 4 2 = 0 := by
    change (eatChar '-' [unit 'Z']).isSome = false ∧ numberAt [unit 'Z'] 1 2 = 0 ∧
      numberAt [unit 'Z'] 4 2 = 0
    decide
  have hmillis : d.stamp.fields.millisecond = d.clock % 1000 := by
    have hlength : (zeroPadded 3 (d.clock % 1000)).length = 3 := (digits_zeroPadded 3 _).1
    have htake : (zeroPadded 3 (d.clock % 1000) ++ txt "000").take 3 =
        zeroPadded 3 (d.clock % 1000) := by
      rw [List.take_append_of_le_length hlength.ge, List.take_of_length_le hlength.le]
    rw [TimestampFields.millisecond]
    change readDigits ((zeroPadded 3 (d.clock % 1000) ++ txt "000").take 3) = _
    rw [htake, readDigits_zeroPadded]
    omega
  refine ⟨?_, ?_, ?_, ⟨?_, hzone.2.1, hzone.2.2⟩, ?_⟩
  · simp only [Stamp.fields, Date.stamp, readDigits_zeroPadded]
    omega
  · simp only [Stamp.fields, Date.stamp, readDigits_zeroPadded]
    omega
  · simp only [Stamp.fields, Date.stamp, readDigits_zeroPadded]
    omega
  · simp only [TimestampFields.offset, Stamp.fields, hzone]
    rfl
  · rw [hmillis]
    simp only [Stamp.fields, Date.stamp, readDigits_zeroPadded]
    omega

/-- The months of a year have as many days for the parsers as in the calendar. -/
theorem daysInMonth_eq {f : TimestampFields} (hlow : 1 ≤ f.month) (hhigh : f.month ≤ 12) :
    f.daysInMonth = Calendar.monthLength f.year f.month := by
  have hleap : f.leapYear = Calendar.isLeapYear f.year := rfl
  rw [TimestampFields.daysInMonth, Calendar.monthLength, hleap]
  generalize f.month = m at hlow hhigh
  cases Calendar.isLeapYear f.year with
  | true => interval_cases m <;> rfl
  | false => interval_cases m <;> rfl

/-- The calendar date, moved by its thousand cycles. -/
theorem calendar_year (h : FourDigitYear d.ms) :
    ∃ y : ℕ, (y : ℤ) = d.year ∧ d.calendar.year = y + 400 * 1000 := by
  have h0 := ((fourDigitYear_iff d).mpr h).1
  rw [Date.year] at h0 ⊢
  exact ⟨d.calendar.year - 400000, by omega, by omega⟩

theorem readStamp_stamp (h : FourDigitYear d.ms) (what : Text) :
    readStamp d.stamp what = .ok d := by
  have hback := readBack_fields d h
  have hvalid := calendar_valid d
  obtain ⟨y, hy, hcycle⟩ := calendar_year d h
  have hyear : d.stamp.fields.year = y := by
    have hread := hback.year
    omega
  have hmonth : 1 ≤ d.stamp.fields.month ∧ d.stamp.fields.month ≤ 12 := by
    rw [hback.month]
    exact hvalid.month
  have hlength : d.stamp.fields.daysInMonth =
      Calendar.monthLength d.calendar.year d.calendar.month := by
    rw [daysInMonth_eq hmonth.1 hmonth.2, hyear, hback.month, hcycle, Calendar.monthLength_cycle]
  have hday : 1 ≤ d.stamp.fields.day ∧ d.stamp.fields.day ≤ d.stamp.fields.daysInMonth := by
    rw [hback.day, hlength]
    exact hvalid.day
  have hdate : d.stamp.fields.epochDay = d.ms / 86400000 := by
    have hnumber := (Calendar.dateAt_spec (d.ms / 86400000 + 719528 + 146097000).toNat).2
    change Calendar.dayNumber d.calendar.year d.calendar.month d.calendar.day = _ at hnumber
    have hyears := Calendar.daysBeforeYear_cycle y 1000
    have hmonths := @Calendar.daysBeforeMonth_cycle y _ 1000 hvalid.month.1 hvalid.month.2
    rw [shifted_days, Calendar.dayNumber, hcycle, hyears, hmonths] at hnumber
    rw [epochDay_eq hmonth.1 hmonth.2, Calendar.dayNumber_epoch, Calendar.dayNumber, hyear,
      hback.month, hback.day]
    push_cast at hnumber
    omega
  have hms : d.stamp.fields.dateParse d.stamp.fields.second d.stamp.fields.millisecond = d.ms := by
    have hclock := hback.clock
    have hclock' := clock_eq d
    rw [TimestampFields.dateParse, hdate, hback.offset.1]
    omega
  have hoffset := hback.offset.2
  rw [readStamp, if_pos ⟨by omega, by omega, by omega⟩, hms, timeClip, dif_pos d.valid]

/-- The text of a date in these years is read back. -/
theorem server_toISOString (h : FourDigitYear d.ms) (what : Text) :
    Server.parseOperationalInstant d.toISOString what = .ok d := by
  rw [toISOString_eq d h, server_text (stamp_operational d), readStamp_stamp d h]

/-- The text of any other date starts with a sign. -/
theorem server_refuses (h : ¬ FourDigitYear d.ms) (what : Text) :
    Server.parseOperationalInstant d.toISOString what = .error (notAnInstant what) := by
  have hyear : ¬ (0 ≤ d.year ∧ d.year ≤ 9999) := fun hyear => h ((fourDigitYear_iff d).mp hyear)
  have hsign : ∀ (u : CodeUnit) (t : Text), isDigit u = false → isOperational (u :: t) = false := by
    intro u t hu
    rw [isOperational, decide_eq_false_iff_not, eatDigits, hu]
    simp
  have hno : isOperational d.toISOString = false := by
    rw [Date.toISOString, isoYear, if_neg hyear]
    split_ifs
    · exact hsign _ _ (by decide)
    · exact hsign _ _ (by decide)
  rw [Server.parseOperationalInstant, hno]
  rfl

end date

/-! ### Expiries -/

/-- The ways to state an expiry. -/
inductive Expiry where
  | date (expiresAt : Option Date)
  | retention (retentionMs : Option ℚ) (now : Option Date)
  | text (t what : Text)

/-- The date the client accepts for an expiry. -/
def Expiry.accept : Expiry → Except Text Date
  | .date expiresAt => Client.checkExpiresAt expiresAt
  | .retention retentionMs now => do Client.checkExpiresAt (some (← Client.expiryAfter retentionMs now))
  | .text t what => do Client.checkExpiresAt (some (← Client.parseOperationalInstant t what))

/-- The text that is sent is read as the date that was accepted. -/
def Expiry.Arrives (e : Expiry) : Prop :=
  ∀ d, e.accept = .ok d → ∀ what, Server.parseOperationalInstant d.toISOString what = .ok d

/-- The stated instant lies in the years 0 to 9999, where it is one that is accepted. -/
def Expiry.InYears : Expiry → Prop
  | .date expiresAt => ∀ d, expiresAt = some d → FourDigitYear d.ms
  | .retention retentionMs now => ∀ (n : ℤ) (d : Date), retentionMs = some (n : ℚ) → 1 ≤ n →
      now = some d → d.ms + n ≤ 8640000000000000 → FourDigitYear (d.ms + n)
  | .text t _ => ∀ f, timestampFields t = some f → isOperational t = true →
      f.isDate = true → f.offsetHour ≤ 23 → f.offsetMinute ≤ 59 →
      -1036120320 ≤ f.utcMinutes ∧ f.utcMinutes < 4223371680

theorem arrives_of_ok {e : Expiry} {d : Date} (h : e.accept = .ok d) :
    e.Arrives ↔ FourDigitYear d.ms := by
  constructor
  · intro ha
    by_contra hyear
    have hread := ha d h []
    rw [server_refuses d hyear] at hread
    cases hread
  · intro hyear d' hd' what
    rw [h] at hd'
    cases hd'
    exact server_toISOString d hyear what

theorem arrives_of_error {e : Expiry} {m : Text} (h : e.accept = .error m) : e.Arrives := by
  intro d hd
  rw [h] at hd
  cases hd

/-- The sum of two integers within the range of dates is exact, and any other sum is out of it. -/
theorem timeClip_sum (i : ℤ) : timeClip (double (i : ℚ)).num = timeClip i := by
  by_cases h : |i| < 2 ^ 53
  · rw [double_of_lt h, Rat.num_intCast]
  · have hbig : (2 : ℚ) ^ 53 ≤ |double i| := le_double (not_lt.mp h)
    have hnum : (2 : ℤ) ^ 53 ≤ |(double (i : ℚ)).num| := by
      have hle : |double (i : ℚ)| ≤ |((double (i : ℚ)).num : ℚ)| := by
        have hden := Rat.mul_den_eq_num (double (i : ℚ))
        rw [← hden, abs_mul]
        refine le_mul_of_one_le_right (abs_nonneg _) ?_
        rw [Nat.abs_cast]
        exact_mod_cast (double (i : ℚ)).pos
      have hchain := hbig.trans hle
      exact_mod_cast hchain
    rw [timeClip, timeClip, dif_neg, dif_neg]
    · have hlow := not_lt.mp h
      norm_num at hlow
      omega
    · norm_num at hnum
      omega

theorem expiryAfter_int {n : ℤ} (hn : 1 ≤ n) (d : Date) :
    Client.expiryAfter (some (n : ℚ)) (some d) =
      match timeClip (d.ms + n) with
      | none => .error (txt "retentionMs is so large that it names no instant")
      | some date => .ok date := by
  have hn' : ¬ ((n : ℚ).den ≠ 1 ∨ (n : ℚ) < 1) := by
    rw [not_or, not_not, not_lt]
    exact ⟨Rat.den_intCast n, by exact_mod_cast hn⟩
  have hsum : ((d.ms : ℚ) + (n : ℚ)) = ((d.ms + n : ℤ) : ℚ) := by push_cast; ring
  rw [Client.expiryAfter, if_neg hn', hsum, timeClip_sum]

theorem retention_arrives_iff (retentionMs : Option ℚ) (now : Option Date) :
    (Expiry.retention retentionMs now).Arrives ↔ (Expiry.retention retentionMs now).InYears := by
  by_cases hgood : ∃ n : ℤ, retentionMs = some (n : ℚ) ∧ 1 ≤ n
  · obtain ⟨n, rfl, hn⟩ := hgood
    cases now with
    | none =>
        have hn' : ¬ ((n : ℚ).den ≠ 1 ∨ (n : ℚ) < 1) := by
          rw [not_or, not_not, not_lt]
          exact ⟨Rat.den_intCast n, by exact_mod_cast hn⟩
        refine iff_of_true (arrives_of_error (m := txt "now must be a valid Date") ?_) ?_
        · rw [Expiry.accept, Client.expiryAfter, if_neg hn']
          rfl
        · intro _ _ _ _ hnow
          cases hnow
    | some d =>
        have hafter := expiryAfter_int hn d
        have hlow := (abs_le.mp d.valid).1
        by_cases hrange : d.ms + n ≤ 8640000000000000
        · have hclip : |d.ms + n| ≤ 8640000000000000 := abs_le.mpr ⟨by omega, hrange⟩
          rw [timeClip, dif_pos hclip] at hafter
          have haccept : (Expiry.retention (some (n : ℚ)) (some d)).accept = .ok ⟨d.ms + n, hclip⟩ := by
            rw [Expiry.accept, hafter]
            rfl
          rw [arrives_of_ok haccept]
          constructor
          · intro hyear n' d' hn' _ hd' _
            obtain rfl : n = n' := by exact_mod_cast Option.some.inj hn'
            obtain rfl := Option.some.inj hd'
            exact hyear
          · intro hin
            exact hin n d rfl hn rfl hrange
        · have hclip : ¬ |d.ms + n| ≤ 8640000000000000 := fun h => hrange (abs_le.mp h).2
          rw [timeClip, dif_neg hclip] at hafter
          refine iff_of_true (arrives_of_error
            (m := txt "retentionMs is so large that it names no instant") ?_) ?_
          · rw [Expiry.accept, hafter]
            rfl
          · intro n' d' hn' _ hd' hle
            obtain rfl : n = n' := by exact_mod_cast Option.some.inj hn'
            obtain rfl := Option.some.inj hd'
            exact absurd hle hrange
  · refine iff_of_true (arrives_of_error
      (m := txt "retentionMs must be a whole number of milliseconds of at least one") ?_) ?_
    · cases retentionMs with
      | none => rfl
      | some q =>
          have hbad : q.den ≠ 1 ∨ q < 1 := by
            by_contra hno
            rw [not_or, not_not, not_lt] at hno
            have hq := Rat.coe_int_num_of_den_eq_one hno.1
            refine hgood ⟨q.num, by rw [hq], ?_⟩
            have hle := hno.2
            rw [← hq] at hle
            exact_mod_cast hle
          have herror : Client.expiryAfter (some q) now = .error
              (txt "retentionMs must be a whole number of milliseconds of at least one") :=
            if_pos hbad
          rw [Expiry.accept, herror]
          rfl
    · intro n _ hn h1
      exact absurd ⟨n, hn, h1⟩ hgood

/-- The instant of fields of the calendar is within the range of dates. -/
theorem dateParse_bounds {s : Stamp} (h : Operational s) (hdate : s.fields.isDate = true)
    (hoffset : s.fields.offsetHour ≤ 23) (hoffset' : s.fields.offsetMinute ≤ 59) :
    |s.fields.dateParse s.fields.second s.fields.millisecond| ≤ 8640000000000000 ∧
      (FourDigitYear (s.fields.dateParse s.fields.second s.fields.millisecond) ↔
        -1036120320 ≤ s.fields.utcMinutes ∧ s.fields.utcMinutes < 4223371680) := by
  have hyear : s.fields.year < 10 ^ 4 := by
    have hlt := readDigits_lt (List.all_eq_true.mpr h.shaped.year.2)
    rwa [h.shaped.year.1] at hlt
  have hms : s.fields.millisecond < 1000 :=
    millisecond_lt (List.all_eq_true.mpr h.shaped.fraction.2)
  have hhour : s.fields.hour ≤ 23 := h.hour.2
  have hminute : s.fields.minute ≤ 59 := h.minute.2
  have hsecond : s.fields.second ≤ 59 := h.second.2
  have hdate' := TimestampFields.isDate_iff.mp hdate
  have hmonth : 1 ≤ s.fields.month ∧ s.fields.month ≤ 12 := by omega
  have hlength : s.fields.daysInMonth ≤ 31 := by
    rw [daysInMonth_eq hmonth.1 hmonth.2, Calendar.monthLength]
    split_ifs <;> omega
  have hmonths := @Calendar.daysBeforeMonth_le s.fields.year _ hmonth.1 hmonth.2
  have hyears := Calendar.daysBeforeYear_mono (show s.fields.year ≤ 10000 by omega)
  have hlast : Calendar.daysBeforeYear 10000 = 3652425 := by
    rw [← Calendar.yearStart_eq]
    rfl
  have hoff : |s.fields.offset| ≤ 1439 := by
    rw [TimestampFields.offset, abs_le]
    split_ifs <;> omega
  have hoff := abs_le.mp hoff
  rw [TimestampFields.dateParse, TimestampFields.utcMinutes, epochDay_eq hmonth.1 hmonth.2,
    Calendar.dayNumber_epoch, Calendar.dayNumber, FourDigitYear, abs_le]
  omega

theorem text_arrives_iff (t what : Text) :
    (Expiry.text t what).Arrives ↔ (Expiry.text t what).InYears := by
  by_cases hop : isOperational t = true
  · obtain ⟨s, hs, rfl⟩ := pieces_of_operational hop
    have hfields := Stamp.timestampFields_text hs.shaped
    have hparse := client_text hs what
    by_cases hgood : s.fields.isDate = true ∧ s.fields.offsetHour ≤ 23 ∧ s.fields.offsetMinute ≤ 59
    · obtain ⟨hdate, hoffset, hoffset'⟩ := hgood
      obtain ⟨hclip, hyears⟩ := dateParse_bounds hs hdate hoffset hoffset'
      rw [readStamp, if_pos ⟨TimestampFields.isDate_iff.mp hdate, hoffset, hoffset'⟩, timeClip,
        dif_pos hclip] at hparse
      have haccept : (Expiry.text s.text what).accept =
          .ok ⟨s.fields.dateParse s.fields.second s.fields.millisecond, hclip⟩ := by
        rw [Expiry.accept, hparse]
        rfl
      rw [arrives_of_ok haccept, hyears]
      constructor
      · intro hin f hf _ _ _ _
        rw [hfields] at hf
        obtain rfl := Option.some.inj hf
        exact hin
      · intro hin
        exact hin s.fields hfields hop hdate hoffset hoffset'
    · rw [readStamp, if_neg (fun h => hgood ⟨TimestampFields.isDate_iff.mpr h.1, h.2⟩)] at hparse
      refine iff_of_true (arrives_of_error (m := notAnInstant what) ?_) ?_
      · rw [Expiry.accept, hparse]
        rfl
      · intro f hf _ hdate hoffset hoffset'
        rw [hfields] at hf
        obtain rfl := Option.some.inj hf
        exact absurd ⟨hdate, hoffset, hoffset'⟩ hgood
  · refine iff_of_true (arrives_of_error (m := notAnInstant what) ?_) ?_
    · have hno : (!isOperational t) = true := by simpa using hop
      have herror : Client.parseOperationalInstant t what = .error (notAnInstant what) :=
        if_pos hno
      rw [Expiry.accept, herror]
      rfl
    · intro _ _ hop'
      exact absurd hop' hop

/-- The parsers agree, and an expiry that is accepted arrives unchanged exactly when the instant
it states lies in the years 0 to 9999. -/
theorem expiry_unchanged_iff (text what : Text) (e : Expiry) :
    Client.parseOperationalInstant text what = Server.parseOperationalInstant text what ∧
      (e.Arrives ↔ e.InYears) := by
  refine ⟨parsers_agree text what, ?_⟩
  cases e with
  | date expiresAt =>
      cases expiresAt with
      | none =>
          refine iff_of_true (arrives_of_error rfl) ?_
          intro d hd
          cases hd
      | some d =>
          rw [arrives_of_ok (d := d) rfl]
          exact ⟨fun h d' hd' => Option.some.inj hd' ▸ h, fun h => h d rfl⟩
  | retention retentionMs now => exact retention_arrives_iff retentionMs now
  | text text what => exact text_arrives_iff text what

/-- The last moment of the year 9999 one hour west of Greenwich is accepted and refused. -/
theorem expiry_unchanged_west : ¬ ∀ e : Expiry, e.Arrives := by
  intro h
  have harrives := h (.text (txt "9999-12-31T23:59:59-01:00") (txt "expiresAt"))
  have haccept : (Expiry.text (txt "9999-12-31T23:59:59-01:00") (txt "expiresAt")).accept =
      .ok ⟨253402304399000, by decide⟩ := by
    decide
  exact absurd ((arrives_of_ok haccept).mp harrives) (by decide)

end QeReport.Http

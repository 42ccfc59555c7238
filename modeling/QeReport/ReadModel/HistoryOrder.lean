import QeReport.Protocol.Codec
import QeReport.ReadModel.Model

/-! # The order of a history

Where a producer timestamp stands in history order: its instant to the millisecond, and for a
leap second the last millisecond before it with the place inside it.  Occurrences are ordered by
their instants, then by run id and execution id. -/

namespace QeReport

/-! ### Instants -/

/-- The position of a timestamp in history order. -/
structure HistoryInstant where
  epochMs : ℤ
  leap : ℕ
deriving DecidableEq

/-- What the timestamp pattern captures. -/
structure TimestampFields where
  year : ℕ
  month : ℕ
  day : ℕ
  hour : ℕ
  minute : ℕ
  second : ℕ
  fraction : Text
  /-- The sign of the offset is a minus. -/
  negative : Bool
  offsetHour : ℕ
  offsetMinute : ℕ

/-- `text.slice(start, start + n)` as a number. -/
def numberAt (t : Text) (start n : ℕ) : ℕ := readDigits ((t.drop start).take n)

/-- `TIMESTAMP.exec(occurredAt)`: the fields stand at fixed places up to the fraction. -/
def timestampFields (t : Text) : Option TimestampFields :=
  if isTimestamp t then
    let rest := t.drop 19
    let fraction := match eatChar '.' rest with
      | none => []
      | some digits => digits.takeWhile isDigit
    let zone := match eatChar '.' rest with
      | none => rest
      | some digits => digits.dropWhile isDigit
    some
      { year := numberAt t 0 4
        month := numberAt t 5 2
        day := numberAt t 8 2
        hour := numberAt t 11 2
        minute := numberAt t 14 2
        second := numberAt t 17 2
        fraction
        negative := (eatChar '-' zone).isSome
        offsetHour := numberAt zone 1 2
        offsetMinute := numberAt zone 4 2 }
  else none

namespace TimestampFields
variable (f : TimestampFields)

def leapYear : Bool := f.year % 4 == 0 && (f.year % 100 != 0 || f.year % 400 == 0)

/-- The days of the month, zero for a month there is not. -/
def daysInMonth : ℕ :=
  if f.month = 2 ∧ f.leapYear = true then 29
  else [0, 31, 28, 31, 30, 31, 30, 31, 31, 30, 31, 30, 31].getD f.month 0

/-- The offset from UTC in minutes. -/
def offset : ℤ := (if f.negative then -1 else 1) * (f.offsetHour * 60 + f.offsetMinute : ℕ)

/-- The days from the first of January 1970, in the Gregorian calendar. -/
def epochDay : ℤ :=
  (365 * f.year + (f.year + 3) / 4 - (f.year + 99) / 100 + (f.year + 399) / 400 : ℤ) +
    ([0, 0, 31, 59, 90, 120, 151, 181, 212, 243, 273, 304, 334].getD f.month 0 : ℕ) +
    (if f.month > 2 ∧ f.leapYear = true then 1 else 0) + f.day - 1 - 719528

/-- `Date.parse` of the fields with the given second and millisecond; it is finite for every
four-digit year. -/
def dateParse (second millisecond : ℕ) : ℤ :=
  (((f.epochDay * 24 + f.hour) * 60 + f.minute - f.offset) * 60 + second) * 1000 + millisecond

/-- The fraction in milliseconds, truncated. -/
def millisecond : ℕ := readDigits ((f.fraction ++ txt "000").take 3)

/-- The minute of the day in UTC. -/
def utcMinuteOfDay : ℤ := ((f.hour * 60 + f.minute : ℕ) - f.offset) % 1440

/-- The position of the fields, where the calendar and the clock have them. -/
def instant? : Option HistoryInstant :=
  if f.month < 1 ∨ f.month > 12 ∨ f.day < 1 ∨ f.day > f.daysInMonth then none
  else if f.hour > 23 ∨ f.minute > 59 ∨ f.second > 60 ∨ f.offsetHour > 23 ∨ f.offsetMinute > 59 then
    none
  else if f.second < 60 then some ⟨f.dateParse f.second f.millisecond, 0⟩
  -- A leap second is the second after 23:59:59 UTC and nowhere else.
  else if f.utcMinuteOfDay ≠ 1439 then none
  else some ⟨f.dateParse 59 999, 1 + f.millisecond⟩

end TimestampFields

/-- `historyInstant(occurredAt)`. -/
def historyInstant (occurredAt : Text) : Except Text HistoryInstant :=
  match (timestampFields occurredAt).bind TimestampFields.instant? with
  | some i => .ok i
  | none => .error (txt "not a protocol timestamp: " ++ jsonText (.str (occurredAt.take 64)))

/-- `compareHistoryInstants(a, b)`. -/
def compareHistoryInstants (a b : HistoryInstant) : Ordering :=
  (compare a.epochMs b.epochMs).then (compare a.leap b.leap)

/-! ### Occurrences -/

/-- One execution of a historical test in a run. -/
structure ExecutionOccurrence where
  projectId : Text
  runnerName : Text
  historicalId : Text
  runId : Text
  executionId : Text
  sessionIds : List Text
  historicalIdStability : HistoricalIdStability
  occurredAt : Text
  attemptCount : ℕ
  complete : Bool
  finalStatus : Option Status
  expectedStatus : Option ExpectedStatus
  flaky : Bool
  runVerdict : Verdict
  runComplete : Bool
  sessionStatus : Option SessionStatus
deriving DecidableEq

/-- `compareHistoryOccurrences` of two occurrences with their instants. -/
def compareHistoryOccurrences (a b : HistoryInstant × ExecutionOccurrence) : Ordering :=
  (compareHistoryInstants a.1 b.1).then
    ((compare a.2.runId b.2.runId).then (compare a.2.executionId b.2.executionId))

/-- The occurrence with its instant. -/
def placed (o : ExecutionOccurrence) : Except Text (HistoryInstant × ExecutionOccurrence) :=
  (fun i => (i, o)) <$> historyInstant o.occurredAt

/-- `list.sort(compareHistoryOccurrences)`: every element of a list of two or more is compared, so
that a timestamp without an instant throws. -/
def sortOccurrences (l : List ExecutionOccurrence) : Except Text (List ExecutionOccurrence) :=
  if l.length < 2 then .ok l
  else (fun placed => (sortBy compareHistoryOccurrences placed).map Prod.snd) <$> l.mapM placed

end QeReport

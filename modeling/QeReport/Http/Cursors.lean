import QeReport.Http.Instants
import QeReport.Lib.Base64
import QeReport.Lib.JsonReading
import QeReport.Lib.Sha256
import QeReport.Lib.Utf8
import QeReport.Protocol.Codec

/-! # Continuation tokens

A cursor is unpadded base64url of a small JSON document: a version, a kind, a position, and a
binding, the SHA-256 of what the page is a page of.  Reading one back checks the length and the
alphabet of the token, that it is the one spelling of its bytes, that the document has exactly the
members of its kind, and every one of them.  What a page ends at comes back, a cursor of another
listing does not, and whatever is accepted is a position (`cursors_exact`). -/

namespace QeReport.Http

/-- A refusal of the API. -/
structure Problem where
  status : ℕ
  code : Text
  detail : Text
deriving DecidableEq

namespace Cursor

def malformed : Problem :=
  ⟨400, txt "BAD_REQUEST", txt "the cursor is not one this listing issued"⟩

/-! ### Documents -/

/-- The bytes a binding is the digest of. -/
def boundBytes (parts : List Text) : List ℕ := utf8 (jsonText (.arr (parts.map .str)))

/-- `binding(parts)`. -/
def binding (parts : List Text) : Text := Base64.encode (Sha256.digestBytes (boundBytes parts))

/-- `encode(document)`. -/
def encode (document : List (Text × Json)) : Text := Base64.encode (utf8 (jsonText (.obj document)))

/-- `document[key]` of a parsed object, where the last of several members of one name counts. -/
def property (document : List (Text × Json)) (key : String) : Option Json :=
  memberOf document.reverse (txt key)

/-- `[...names].sort().join(',')`. -/
def joinedNames (names : List Text) : Text := commaSeparated (sortBy compare names)

/-- `decode(cursor, members)`. -/
def decode (cursor : Text) (members : List Text) : Except Problem (List (Text × Json)) :=
  if 2048 < cursor.length ∨ cursor = [] ∨ cursor.all Base64.isLetter = false then .error malformed
  else
    let text := readUtf8 none (Base64.decode cursor)
    if Base64.encode (utf8 text) ≠ cursor then .error malformed
    else
      match parseJson text with
      | some (.obj document) =>
        if joinedNames (document.map Prod.fst).dedup ≠ joinedNames members then .error malformed
        else
          match property document "v" with
          | some (.num version) =>
            if version.parsed? = some 1 then .ok document else .error malformed
          | _ => .error malformed
      | _ => .error malformed

/-- `document[key] === value` for a string. -/
def isText (document : List (Text × Json)) (key : String) (value : Text) : Bool :=
  match property document key with
  | some (.str s) => s = value
  | _ => false

/-! ### Run listings -/

/-- An ingestion sequence. -/
structure Sequence where
  value : ℕ
  bounded : value ≤ 9223372036854775807
deriving DecidableEq

def runsParts (projectId : Text) : List Text := [txt "runs", projectId]

/-- `encodeRunsCursor(projectId, beforeIngestionSequence)`. -/
def encodeRunsCursor (projectId : Text) (before : Sequence) : Text :=
  encode [(txt "v", .num (JsNumber.ofInt 1)), (txt "k", .str (txt "runs")),
    (txt "b", .str (binding (runsParts projectId))), (txt "s", .str (natText before.value))]

/-- `/^(0|[1-9][0-9]{0,18})$/`. -/
def isSequence (t : Text) : Bool :=
  match t with
  | [] => false
  | u :: rest =>
    if u == unit '0' then rest.isEmpty else isDigit u && rest.all isDigit && rest.length ≤ 18

/-- `decodeRunsCursor(projectId, cursor)`. -/
def decodeRunsCursor (projectId cursor : Text) : Except Problem Sequence := do
  let d ← decode cursor [txt "v", txt "k", txt "b", txt "s"]
  if !isText d "k" (txt "runs") || !isText d "b" (binding (runsParts projectId)) then
    throw malformed
  match property d "s" with
  | some (.str s) =>
    if !isSequence s then throw malformed
    if h : readDigits s ≤ 9223372036854775807 then return ⟨readDigits s, h⟩ else throw malformed
  | _ => throw malformed

/-! ### Instants -/

/-- The text fits a template, in which `0` stands for a digit. -/
def fits : Text → Text → Bool
  | [], [] => true
  | p :: template, u :: t => (if p == unit '0' then isDigit u else p == u) && fits template t
  | _, _ => false

/-- What follows the year of `ISO_INSTANT`. -/
def afterYear : Text := txt "-00-00T00:00:00.000Z"

/-- The sign of a year. -/
def isSign (u : CodeUnit) : Bool := u == unit '+' || u == unit '-'

def unsigned (t : Text) : Text := if t.head?.any isSign then t.tail else t

/-- `ISO_INSTANT.test(t)`. -/
def isIsoInstant (t : Text) : Bool :=
  let digits := (unsigned t).takeWhile isDigit
  4 ≤ digits.length && digits.length ≤ 6 && fits afterYear ((unsigned t).dropWhile isDigit)

/-- The year of the date-time string format: four digits, or a sign and six that is not a negative
zero. -/
def yearOf (t : Text) : Option ℤ :=
  let digits := (unsigned t).takeWhile isDigit
  if t.head?.any isSign then
    if digits.length ≠ 6 then none
    else if t.head? = some (unit '-') then
      if readDigits digits = 0 then none else some (-readDigits digits)
    else some (readDigits digits)
  else if digits.length = 4 then some (readDigits digits)
  else none

/-- The date a text of the date-time string format denotes, in the form `toISOString` writes. -/
def isoDate (t : Text) : Option Date :=
  match yearOf t with
  | none => none
  | some year =>
    let rest := (unsigned t).dropWhile isDigit
    let month := numberAt rest 1 2
    let day := numberAt rest 4 2
    let hour := numberAt rest 7 2
    let minute := numberAt rest 10 2
    let second := numberAt rest 13 2
    -- a thousand cycles of four hundred years keep the year positive
    let shifted := (year + 400000).toNat
    if !fits afterYear rest then none
    else if month < 1 ∨ 12 < month ∨ day < 1 ∨ Calendar.monthLength shifted month < day then none
    else if 23 < hour ∨ 59 < minute ∨ 59 < second then none
    else
      timeClip ((Calendar.dayNumber shifted month day - 719528 - 146097000) * 86400000 +
        (((hour * 60 + minute) * 60 + second) * 1000 + numberAt rest 16 3))

/-! ### Histories -/

/-- `isProtocolIdentifier(value)` of a string. -/
def isProtocolIdentifier (t : Text) : Bool := isIdentifier t && t.length ≤ 128

/-- The position after an occurrence. -/
structure HistoryCursor where
  occurredAt : Date
  leap : ℕ
  runId : Text
  executionId : Text
  leap_le : leap ≤ 1000
  run_identifier : isProtocolIdentifier runId = true
  execution_identifier : isProtocolIdentifier executionId = true
deriving DecidableEq

def historyParts (projectId runnerName historicalId : Text) : List Text :=
  [txt "history", projectId, runnerName, historicalId]

/-- `encodeHistoryCursor(projectId, runnerName, historicalId, after)`. -/
def encodeHistoryCursor (projectId runnerName historicalId : Text) (after : HistoryCursor) : Text :=
  encode [(txt "v", .num (JsNumber.ofInt 1)), (txt "k", .str (txt "history")),
    (txt "b", .str (binding (historyParts projectId runnerName historicalId))),
    (txt "t", .str after.occurredAt.toISOString), (txt "l", .num (JsNumber.ofInt after.leap)),
    (txt "r", .str after.runId), (txt "e", .str after.executionId)]

section history
variable (other : Text → Option Date)

/-- `new Date(t)`; `other` is what the implementation makes of a text in another format. -/
def newDate (t : Text) : Option Date :=
  match isoDate t with
  | some d => some d
  | none => other t

/-- `decodeHistoryCursor(projectId, runnerName, historicalId, cursor)`. -/
def decodeHistoryCursor (projectId runnerName historicalId cursor : Text) :
    Except Problem HistoryCursor := do
  let d ← decode cursor
    [txt "v", txt "k", txt "b", txt "t", txt "l", txt "r", txt "e"]
  if !isText d "k" (txt "history") ||
      !isText d "b" (binding (historyParts projectId runnerName historicalId)) then
    throw malformed
  match property d "t", property d "l", property d "r", property d "e" with
  | some (.str t), some (.num l), some (.str r), some (.str e) =>
    if !isIsoInstant t then throw malformed
    match newDate other t, l.parsed? with
    | some occurredAt, some leap =>
      if occurredAt.toISOString ≠ t then throw malformed
      if h : (0 ≤ leap ∧ leap ≤ 1000) ∧ isProtocolIdentifier r = true ∧
          isProtocolIdentifier e = true then
        return ⟨occurredAt, leap.toNat, r, e, by omega, h.2.1, h.2.2⟩
      else throw malformed
    | _, _ => throw malformed
  | _, _, _, _ => throw malformed

end history

/-! ### Instants read back -/

/-- The fixed part of a written date. -/
def clockText (d : Date) : Text :=
  unit '-' :: (zeroPadded 2 d.calendar.month ++ unit '-' ::
    (zeroPadded 2 d.calendar.day ++ unit 'T' :: (zeroPadded 2 (d.clock / 3600000) ++ unit ':' ::
      (zeroPadded 2 (d.clock / 60000 % 60) ++ unit ':' :: (zeroPadded 2 (d.clock / 1000 % 60) ++
        unit '.' :: (zeroPadded 3 (d.clock % 1000) ++ [unit 'Z']))))))

theorem toISOString_clockText (d : Date) : d.toISOString = isoYear d.year ++ clockText d := rfl

theorem fits_clockText (d : Date) : fits afterYear (clockText d) = true := by
  have hdigit : ∀ n : ℕ, isDigit (Fin.ofNat 65536 (48 + n % 10)) = true := fun n =>
    isDigit_ofNat (Nat.mod_lt _ (by decide))
  have hafter : afterYear = [unit '-', unit '0', unit '0', unit '-', unit '0', unit '0', unit 'T',
      unit '0', unit '0', unit ':', unit '0', unit '0', unit ':', unit '0', unit '0', unit '.',
      unit '0', unit '0', unit '0', unit 'Z'] := by decide
  have hmark : (unit '-' == unit '0') = false ∧ (unit 'T' == unit '0') = false ∧
      (unit ':' == unit '0') = false ∧ (unit '.' == unit '0') = false ∧
      (unit 'Z' == unit '0') = false := by decide
  obtain ⟨h1, h2, h3, h4, h5⟩ := hmark
  rw [hafter]
  simp only [clockText, zeroPadded, List.nil_append, List.cons_append, fits, h1, h2, h3, h4, h5,
    beq_self_eq_true, if_true, Bool.false_eq_true, if_false, hdigit, Bool.and_self]

/-- The digits of the year stand before the fixed part. -/
theorem span_clockText {ds : Text} (hds : ∀ u ∈ ds, isDigit u = true) (d : Date) :
    (ds ++ clockText d).takeWhile isDigit = ds ∧
      (ds ++ clockText d).dropWhile isDigit = clockText d := by
  have hdash : ¬ isDigit (unit '-') = true := by decide
  constructor
  · rw [List.takeWhile_append_of_pos hds, clockText, List.takeWhile_cons_of_neg hdash,
      List.append_nil]
  · rw [List.dropWhile_append_of_pos hds, clockText, List.dropWhile_cons_of_neg hdash]

theorem clock_fields (d : Date) : numberAt (clockText d) 1 2 = d.calendar.month % 100 ∧
    numberAt (clockText d) 4 2 = d.calendar.day % 100 ∧
    numberAt (clockText d) 7 2 = d.clock / 3600000 % 100 ∧
    numberAt (clockText d) 10 2 = d.clock / 60000 % 60 % 100 ∧
    numberAt (clockText d) 13 2 = d.clock / 1000 % 60 % 100 ∧
    numberAt (clockText d) 16 3 = d.clock % 1000 % 1000 :=
  ⟨readDigits_zeroPadded 2 _, readDigits_zeroPadded 2 _, readDigits_zeroPadded 2 _,
    readDigits_zeroPadded 2 _, readDigits_zeroPadded 2 _, readDigits_zeroPadded 3 _⟩

theorem year_bounds (d : Date) : -400000 ≤ d.year ∧ d.year < 1000000 := by
  have hdays := shifted_days d
  have hvalid := abs_le.mp d.valid
  obtain ⟨hlow, -⟩ := Calendar.yearAt_spec (d.ms / 86400000 + 719528 + 146097000).toNat
  have hyear : d.year = (Calendar.yearAt (d.ms / 86400000 + 719528 + 146097000).toNat : ℕ) - 400000 :=
    rfl
  have hlast : Calendar.daysBeforeYear 1400000 = 511339500 := by
    rw [← Calendar.yearStart_eq]
    rfl
  refine ⟨by omega, ?_⟩
  by_contra hlarge
  have hstart := Calendar.daysBeforeYear_mono (show 1400000 ≤
    Calendar.yearAt (d.ms / 86400000 + 719528 + 146097000).toNat by omega)
  omega

/-- The year of a written date is read back, and what follows it is the fixed part. -/
structure YearRead (d : Date) (digits : Text) : Prop where
  year : yearOf d.toISOString = some d.year
  unsigned : unsigned d.toISOString = digits ++ clockText d
  digit : ∀ u ∈ digits, isDigit u = true
  length : 4 ≤ digits.length ∧ digits.length ≤ 6

theorem isSign_digit {u : CodeUnit} (h : isDigit u = true) : isSign u = false := by
  rw [isSign, Bool.or_eq_false_iff, beq_eq_false_iff_ne, beq_eq_false_iff_ne]
  constructor
  · rintro rfl
    exact absurd h (by decide)
  · rintro rfl
    exact absurd h (by decide)

theorem unsigned_signed {sign : CodeUnit} (h : isSign sign = true) (t : Text) :
    (sign :: t).head?.any isSign = true ∧ unsigned (sign :: t) = t := by
  have hhead : (sign :: t).head?.any isSign = true := by
    rw [List.head?_cons, Option.any_some]
    exact h
  exact ⟨hhead, if_pos hhead⟩

theorem yearRead (d : Date) : ∃ digits, YearRead d digits := by
  obtain ⟨hlow, hhigh⟩ := year_bounds d
  have hsix := digits_zeroPadded 6 d.year.natAbs
  obtain ⟨htake, -⟩ := span_clockText hsix.2 d
  have hread : readDigits (zeroPadded 6 d.year.natAbs) = d.year.natAbs := by
    rw [readDigits_zeroPadded]
    omega
  by_cases hfour : 0 ≤ d.year ∧ d.year ≤ 9999
  · have hdigits := digits_zeroPadded 4 d.year.toNat
    obtain ⟨htake, -⟩ := span_clockText hdigits.2 d
    have hiso : d.toISOString = zeroPadded 4 d.year.toNat ++ clockText d := by
      rw [toISOString_clockText, isoYear, if_pos hfour]
    have hhead : d.toISOString.head?.any isSign = false := by
      have hfirst : (zeroPadded 4 d.year.toNat ++ clockText d).head? =
          some (Fin.ofNat 65536 (48 + d.year.toNat / 10 / 10 / 10 % 10)) := rfl
      rw [hiso, hfirst, Option.any_some]
      exact isSign_digit (isDigit_ofNat (Nat.mod_lt _ (by decide)))
    have hunsigned : unsigned d.toISOString = zeroPadded 4 d.year.toNat ++ clockText d := by
      rw [unsigned, hhead, hiso]
      rfl
    refine ⟨_, ?_, hunsigned, hdigits.2, by rw [hdigits.1]; decide⟩
    rw [yearOf, hunsigned, hhead, htake, hdigits.1, readDigits_zeroPadded]
    simp
    omega
  · by_cases hneg : d.year < 0
    · have hiso : d.toISOString = unit '-' :: (zeroPadded 6 d.year.natAbs ++ clockText d) := by
        rw [toISOString_clockText, isoYear, if_neg hfour, if_pos hneg, List.cons_append]
      obtain ⟨hhead, hunsigned⟩ := unsigned_signed (show isSign (unit '-') = true by decide)
        (zeroPadded 6 d.year.natAbs ++ clockText d)
      refine ⟨zeroPadded 6 d.year.natAbs, ?_, by rw [hiso, hunsigned], hsix.2, by rw [hsix.1]; decide⟩
      rw [hiso, yearOf, hunsigned, hhead, htake, hsix.1, hread]
      have hne : ¬ d.year.natAbs = 0 := by omega
      simp only [ne_eq, not_true_eq_false, if_true, if_false, List.head?_cons, hne]
      exact congrArg some (by omega)
    · have hiso : d.toISOString = unit '+' :: (zeroPadded 6 d.year.natAbs ++ clockText d) := by
        rw [toISOString_clockText, isoYear, if_neg hfour, if_neg hneg, List.cons_append]
      obtain ⟨hhead, hunsigned⟩ := unsigned_signed (show isSign (unit '+') = true by decide)
        (zeroPadded 6 d.year.natAbs ++ clockText d)
      refine ⟨zeroPadded 6 d.year.natAbs, ?_, by rw [hiso, hunsigned], hsix.2, by rw [hsix.1]; decide⟩
      rw [hiso, yearOf, hunsigned, hhead, htake, hsix.1, hread]
      have hplus : unit '+' ≠ unit '-' := by decide
      simp [hplus]
      omega

theorem isIsoInstant_toISOString (d : Date) : isIsoInstant d.toISOString = true := by
  obtain ⟨digits, h⟩ := yearRead d
  obtain ⟨htake, hdrop⟩ := span_clockText h.digit d
  rw [isIsoInstant, h.unsigned, htake, hdrop, fits_clockText, decide_eq_true h.length.1,
    decide_eq_true h.length.2]
  rfl

theorem timeClip_eq {d : Date} {ms : ℤ} (h : ms = d.ms) : timeClip ms = some d := by
  subst h
  exact dif_pos d.valid

/-- Every date is read back from what `toISOString` writes. -/
theorem isoDate_toISOString (d : Date) : isoDate d.toISOString = some d := by
  obtain ⟨digits, h⟩ := yearRead d
  obtain ⟨-, hdrop⟩ := span_clockText h.digit d
  obtain ⟨hmonth, hday, hhour, hminute, hsecond, hmillis⟩ := clock_fields d
  have hvalid := calendar_valid d
  have hclock := clock_eq d
  have hlt := clock_lt d
  have hlength : Calendar.monthLength d.calendar.year d.calendar.month ≤ 31 := by
    unfold Calendar.monthLength
    split_ifs <;> omega
  have hyear : (d.year + 400000).toNat = d.calendar.year := by
    rw [Date.year]
    omega
  have hnumber := (Calendar.dateAt_spec (d.ms / 86400000 + 719528 + 146097000).toNat).2
  change Calendar.dayNumber d.calendar.year d.calendar.month d.calendar.day = _ at hnumber
  rw [shifted_days] at hnumber
  obtain ⟨⟨hm1, hm12⟩, hd1, hdlast⟩ := hvalid
  rw [isoDate, h.year]
  dsimp only
  rw [h.unsigned, hdrop, hmonth, hday, hhour, hminute, hsecond, hmillis, hyear, fits_clockText,
    Nat.mod_eq_of_lt (show d.calendar.month < 100 by omega),
    Nat.mod_eq_of_lt (show d.calendar.day < 100 by omega), hnumber]
  rw [if_neg (by decide), if_neg (by omega), if_neg (by omega)]
  apply timeClip_eq
  omega

/-! ### Written documents -/

/-- Printable ASCII. -/
def IsPrintable (t : Text) : Prop := ∀ u ∈ t, 0x20 ≤ u ∧ u < 0x7F

instance (t : Text) : Decidable (IsPrintable t) :=
  decidable_of_iff (t.all (fun u => 0x20 ≤ u && u < 0x7F) = true) (by simp [IsPrintable])

theorem IsPrintable.ascii {t : Text} (h : IsPrintable t) : IsAscii t := fun u hu =>
  (h u hu).2.trans (by decide)

theorem IsPrintable.append {s t : Text} (hs : IsPrintable s) (ht : IsPrintable t) :
    IsPrintable (s ++ t) := by
  intro u hu
  exact (List.mem_append.mp hu).elim (hs u) (ht u)

theorem IsPrintable.cons {u : CodeUnit} {t : Text} (hu : 0x20 ≤ u ∧ u < 0x7F)
    (ht : IsPrintable t) : IsPrintable (u :: t) := by
  intro v hv
  rcases List.mem_cons.mp hv with rfl | hv
  · exact hu
  · exact ht v hv

/-- Printable text is escaped, if at all, by one backslash. -/
theorem escapeUnit_printable {u : CodeUnit} (h : 0x20 ≤ u ∧ u < 0x7F) :
    (escapeUnit u).length ≤ 2 ∧ IsPrintable (escapeUnit u) := by
  obtain ⟨hhigh, hlow⟩ := isSurrogate_ascii (h.2.trans (by decide))
  have hback : (0x20 : CodeUnit) ≤ unit '\\' ∧ unit '\\' < 0x7F := by decide
  have hnil : IsPrintable [] := fun u hu => absurd hu List.not_mem_nil
  have hlarge : ∀ w : CodeUnit, w < 0x20 → ¬ (u == w) = true := by
    intro w hw heq
    rw [beq_iff_eq.mp heq] at h
    exact absurd h.1 (not_le_of_gt hw)
  unfold escapeUnit
  rw [hhigh, hlow, if_neg (hlarge 8 (by decide)), if_neg (hlarge 12 (by decide)),
    if_neg (hlarge 10 (by decide)), if_neg (hlarge 13 (by decide)), if_neg (hlarge 9 (by decide)),
    decide_eq_false (not_lt_of_ge h.1)]
  split_ifs with hquote hslash hother
  · exact ⟨le_rfl, .cons hback (.cons (by decide) hnil)⟩
  · exact ⟨le_rfl, .cons hback (.cons hback hnil)⟩
  · cases hother
  · exact ⟨Nat.le_succ 1, .cons h hnil⟩

theorem quoteUnits_printable {t : Text} (h : IsPrintable t) :
    (quoteUnits t).length ≤ 2 * t.length ∧ IsPrintable (quoteUnits t) := by
  induction t using quoteUnits.induct with
  | case1 => exact ⟨le_rfl, fun u hu => absurd hu List.not_mem_nil⟩
  | case2 u => exact escapeUnit_printable (h u List.mem_cons_self)
  | case3 u v t hpair ih =>
    rw [(isSurrogate_ascii ((h u List.mem_cons_self).2.trans (by decide))).1] at hpair
    cases hpair
  | case4 u v t hpair ih =>
    obtain ⟨hlength, hprint⟩ := ih fun w hw => h w (List.mem_cons_of_mem _ hw)
    obtain ⟨hlength', hprint'⟩ := escapeUnit_printable (h u List.mem_cons_self)
    rw [quoteUnits, if_neg hpair]
    refine ⟨?_, hprint'.append hprint⟩
    rw [List.length_append, List.length_cons]
    omega

theorem quote_printable {t : Text} (h : IsPrintable t) :
    (quote t).length ≤ 2 * t.length + 2 ∧ IsPrintable (quote t) := by
  obtain ⟨hlength, hprint⟩ := quoteUnits_printable h
  have hquote : (0x20 : CodeUnit) ≤ unit '"' ∧ unit '"' < 0x7F := by decide
  constructor
  · rw [quote, List.length_cons, List.length_append, List.length_singleton]
    omega
  · exact .cons hquote (hprint.append (.cons hquote fun u hu => absurd hu List.not_mem_nil))

theorem isDigit_printable {u : CodeUnit} (h : isDigit u = true) : 0x20 ≤ u ∧ u < 0x7F := by
  obtain ⟨hlow, hhigh⟩ := isDigit_bounds h
  constructor
  · exact Fin.le_def.mpr (le_trans (by decide) hlow)
  · exact Fin.lt_def.mpr (lt_of_le_of_lt hhigh (by decide))

theorem natText_printable (n : ℕ) : IsPrintable (natText n) := by
  obtain ⟨u, t, ht, hu, hall, -⟩ := natText_cons n
  rw [ht]
  exact .cons (isDigit_printable hu) fun v hv => isDigit_printable (List.all_eq_true.mp hall v hv)

/-- What a document is written of: printable members, and how long the text of one is. -/
structure Written (m : Text × Json) (n : ℕ) : Prop where
  printable : IsPrintable (memberText (m.1, jsonText m.2))
  length : (memberText (m.1, jsonText m.2)).length ≤ n

theorem written_str {key : String} (hkey : IsPrintable (txt key)) {t : Text} (h : IsPrintable t) :
    Written (txt key, .str t) (2 * (txt key).length + 2 * t.length + 5) := by
  obtain ⟨hlength, hprint⟩ := quote_printable hkey
  obtain ⟨hlength', hprint'⟩ := quote_printable h
  constructor
  · exact hprint.append (.cons (by decide) hprint')
  · change (quote (txt key) ++ unit ':' :: quote t).length ≤ _
    rw [List.length_append, List.length_cons]
    omega

theorem written_num {key : String} (hkey : IsPrintable (txt key)) (n : ℕ) :
    Written (txt key, .num (JsNumber.ofInt n)) (2 * (txt key).length + (natText n).length + 3) := by
  obtain ⟨hlength, hprint⟩ := quote_printable hkey
  have hnumber := natText_printable n
  constructor
  · exact hprint.append (.cons (by decide) hnumber)
  · change (quote (txt key) ++ unit ':' :: natText n).length ≤ _
    rw [List.length_append, List.length_cons]
    omega

theorem commaSeparated_printable {ts : List Text} (h : ∀ t ∈ ts, IsPrintable t) :
    IsPrintable (commaSeparated ts) ∧
      (commaSeparated ts).length ≤ (ts.map (·.length + 1)).sum := by
  induction ts using commaSeparated.induct with
  | case1 => exact ⟨fun u hu => absurd hu List.not_mem_nil, le_rfl⟩
  | case2 t => exact ⟨h t List.mem_cons_self, by simp [commaSeparated]⟩
  | case3 t ts hne ih =>
    obtain ⟨hprint, hlength⟩ := ih fun t' ht' => h t' (List.mem_cons_of_mem _ ht')
    rw [commaSeparated]
    · refine ⟨(h t List.mem_cons_self).append (.cons (by decide) hprint), ?_⟩
      rw [List.length_append, List.length_cons, List.map_cons, List.sum_cons]
      omega
    · exact hne

theorem written_printable {document : List (Text × Json)} {lengths : List ℕ}
    (h : List.Forall₂ Written document lengths) :
    ∀ m ∈ document, IsPrintable (memberText (m.1, jsonText m.2)) := by
  induction h with
  | nil => exact nofun
  | cons hm _ ih =>
    intro m' hm'
    rcases List.mem_cons.mp hm' with rfl | hm'
    · exact hm.printable
    · exact ih m' hm'

/-- A document is as long as its members, a comma for each and two braces. -/
theorem document_printable {document : List (Text × Json)} {lengths : List ℕ}
    (h : List.Forall₂ Written document lengths) :
    IsPrintable (jsonText (.obj document)) ∧
      (jsonText (.obj document)).length ≤ (lengths.map (· + 1)).sum + 2 := by
  have hmembers : (jsonMembers document).map memberText =
      document.map (fun m => memberText (m.1, jsonText m.2)) := by
    rw [jsonMembers_eq, List.map_map]
    rfl
  have hprint : ∀ t ∈ (jsonMembers document).map memberText, IsPrintable t := by
    intro t ht
    rw [hmembers] at ht
    obtain ⟨m, hm, rfl⟩ := List.mem_map.mp ht
    exact written_printable h m hm
  obtain ⟨hcomma, hlength⟩ := commaSeparated_printable hprint
  have hsum : (((jsonMembers document).map memberText).map (·.length + 1)).sum ≤
      (lengths.map (· + 1)).sum := by
    rw [hmembers, List.map_map]
    clear hmembers hprint hcomma hlength
    induction h with
    | nil => exact le_rfl
    | cons hm _ ih =>
      simp only [List.map_cons, List.sum_cons]
      exact Nat.add_le_add (Nat.succ_le_succ hm.length) ih
  have hbrace : IsPrintable (unit '\x7b' :: (commaSeparated ((jsonMembers document).map memberText) ++
      [unit '\x7d'])) :=
    .cons (by decide) (hcomma.append (.cons (by decide) fun u hu => absurd hu List.not_mem_nil))
  rw [jsonText]
  refine ⟨hbrace, ?_⟩
  rw [List.length_cons, List.length_append, List.length_singleton]
  omega

/-- A written document is read back when it has the members asked for. -/
theorem decode_encode {document : List (Text × Json)} {lengths : List ℕ}
    (h : List.Forall₂ Written document lengths) (hshort : (lengths.map (· + 1)).sum ≤ 1500)
    (hversion : property document "v" = some (.num (JsNumber.ofInt 1))) (members : List Text) :
    decode (encode document) members =
      if joinedNames (document.map Prod.fst).dedup = joinedNames members then .ok document
      else .error malformed := by
  obtain ⟨hprint, hlength⟩ := document_printable h
  have hascii := hprint.ascii
  have hutf8 := utf8_ascii hascii
  have hbytes : ∀ b ∈ utf8 (jsonText (.obj document)), b < 256 := by
    rw [hutf8]
    intro b hb
    obtain ⟨u, hu, rfl⟩ := List.mem_map.mp hb
    exact lt_trans (Fin.lt_def.mp (hascii u hu)) (by decide)
  have hne : encode document ≠ [] := by
    apply Base64.encode_ne_nil
    apply utf8_ne_nil
    rw [jsonText]
    exact List.cons_ne_nil _ _
  have hsize : ¬ 2048 < (encode document).length := by
    have hbase := Base64.length_encode_le (utf8 (jsonText (.obj document)))
    rw [hutf8, List.length_map, ← hutf8] at hbase
    rw [encode]
    omega
  have hletters : (encode document).all Base64.isLetter = true :=
    List.all_eq_true.mpr (Base64.isLetter_encode hbytes)
  have hone : (JsNumber.ofInt 1).parsed? = some 1 := by
    rw [JsNumber.parsed?_ofInt, if_pos (by decide)]
  have htext : readUtf8 none (Base64.decode (encode document)) = jsonText (.obj document) := by
    rw [encode, Base64.decode_encode hbytes, readUtf8_ascii hascii]
  rw [decode, if_neg (by simp [hsize, hne, hletters])]
  dsimp only
  rw [htext, if_neg (by rw [encode]; exact fun hc => hc rfl), parseJson_jsonText]
  dsimp only
  rw [hversion]
  dsimp only
  rw [if_pos hone, ite_not]

/-! ### Bindings -/

theorem isLetter_printable {u : CodeUnit} (h : Base64.isLetter u = true) : 0x20 ≤ u ∧ u < 0x7F := by
  have hrange : ∀ {a b : CodeUnit}, 0x20 ≤ a → b < 0x7F → a ≤ u → u ≤ b → 0x20 ≤ u ∧ u < 0x7F :=
    fun ha hb hau hub => ⟨ha.trans hau, hub.trans_lt hb⟩
  simp only [Base64.isLetter, Bool.or_eq_true, Bool.and_eq_true, decide_eq_true_eq,
    beq_iff_eq] at h
  rcases h with (((⟨ha, hb⟩ | ⟨ha, hb⟩) | ⟨ha, hb⟩) | rfl) | rfl
  · exact hrange (by decide) (by decide) ha hb
  · exact hrange (by decide) (by decide) ha hb
  · exact hrange (by decide) (by decide) ha hb
  · decide
  · decide

theorem binding_printable (parts : List Text) : IsPrintable (binding parts) := fun u hu =>
  isLetter_printable (Base64.isLetter_encode (fun _ hb => Sha256.lt_of_mem_digestBytes hb) u hu)

theorem length_binding (parts : List Text) : (binding parts).length ≤ 43 := by
  have hlength := Base64.length_encode_le (Sha256.digestBytes (boundBytes parts))
  rw [Sha256.length_digestBytes] at hlength
  rw [binding]
  omega

theorem jsonTexts_str (parts : List Text) : jsonTexts (parts.map .str) = parts.map quote := by
  induction parts with
  | nil => rfl
  | cons t parts ih => rw [List.map_cons, jsonTexts, jsonText, ih, stringify, List.map_cons]

theorem isWellFormed_parts (parts : List Text) :
    isWellFormed (jsonText (.arr (parts.map .str))) = true := by
  have hquotes : ∀ t ∈ parts.map quote, isWellFormed t = true := by
    intro t ht
    obtain ⟨s, -, rfl⟩ := List.mem_map.mp ht
    exact isWellFormed_quote s
  rw [jsonText, jsonTexts_str]
  apply isWellFormed_cons (by decide)
  exact isWellFormed_append (isWellFormed_commaSeparated hquotes) (by decide)

/-- What a page is a page of can be told from the bytes its binding is the digest of. -/
theorem boundBytes_injective {parts parts' : List Text} (h : boundBytes parts = boundBytes parts') :
    parts = parts' := by
  have htext := utf8_injective (isWellFormed_parts parts) (isWellFormed_parts parts') h
  have hvalue := congrArg parseJson htext
  rw [parseJson_jsonText, parseJson_jsonText, Option.some.injEq, Json.arr.injEq] at hvalue
  exact List.map_injective_iff.mpr (fun s t heq => Json.str.inj heq) hvalue

/-- The digests of two bindings differ when what they bind does. -/
def NoCollision (parts parts' : List Text) : Prop :=
  Sha256.digestBytes (boundBytes parts) = Sha256.digestBytes (boundBytes parts') →
    boundBytes parts = boundBytes parts'

theorem binding_ne {parts parts' : List Text} (hne : parts ≠ parts')
    (hsha : NoCollision parts parts') : binding parts ≠ binding parts' := by
  intro h
  have hdigest := Base64.encode_injective (fun _ hb => Sha256.lt_of_mem_digestBytes hb)
    (fun _ hb => Sha256.lt_of_mem_digestBytes hb) h
  exact hne (boundBytes_injective (hsha hdigest))

/-! ### Positions read back -/

theorem isSequence_natText {n : ℕ} (h : n ≤ 9223372036854775807) :
    isSequence (natText n) = true := by
  have hlength := length_natText_le (k := 19) (by decide) (lt_of_le_of_lt h (by decide))
  obtain ⟨u, t, ht, hu, hall, hzero⟩ := natText_cons n
  rw [ht, List.length_cons] at hlength
  rw [ht, isSequence]
  split_ifs with hu0
  · rw [(hzero (beq_iff_eq.mp hu0)).2]
    rfl
  · rw [hu, hall, decide_eq_true (by omega)]
    rfl

theorem isProtocolIdentifier_printable {t : Text} (h : isProtocolIdentifier t = true) :
    IsPrintable t ∧ t.length ≤ 128 := by
  rw [isProtocolIdentifier, Bool.and_eq_true, decide_eq_true_eq, isIdentifier,
    Bool.and_eq_true, List.all_eq_true] at h
  refine ⟨fun u hu => ?_, h.2⟩
  have hunit := h.1.2 u hu
  rw [Bool.and_eq_true, decide_eq_true_eq, decide_eq_true_eq] at hunit
  exact ⟨le_trans (by decide) hunit.1, lt_of_le_of_lt hunit.2 (by decide)⟩

theorem fits_printable {template t : Text} (htemplate : IsPrintable template)
    (h : fits template t = true) : IsPrintable t ∧ t.length = template.length := by
  induction template, t using fits.induct with
  | case1 => exact ⟨htemplate, rfl⟩
  | case2 p template u t ih =>
    rw [fits, Bool.and_eq_true] at h
    obtain ⟨hprint, hlength⟩ := ih (fun v hv => htemplate v (List.mem_cons_of_mem _ hv)) h.2
    refine ⟨.cons ?_ hprint, by rw [List.length_cons, List.length_cons, hlength]⟩
    have hunit := h.1
    split_ifs at hunit
    · exact isDigit_printable hunit
    · rw [← beq_iff_eq.mp hunit]
      exact htemplate p List.mem_cons_self
  | case3 =>
    rw [fits] at h
    · cases h
    all_goals assumption

theorem toISOString_printable (d : Date) :
    IsPrintable d.toISOString ∧ d.toISOString.length ≤ 27 := by
  obtain ⟨digits, h⟩ := yearRead d
  obtain ⟨hclock, hlength⟩ := fits_printable (by decide) (fits_clockText d)
  have hdigits : IsPrintable digits := fun u hu => isDigit_printable (h.digit u hu)
  have hafter : afterYear.length = 20 := by decide
  have hfour := h.length
  have hunsigned := h.unsigned
  rw [Cursor.unsigned] at hunsigned
  split_ifs at hunsigned with hsign
  · cases ht : d.toISOString with
    | nil =>
      rw [ht] at hsign
      cases hsign
    | cons u t =>
      rw [ht, List.head?_cons, Option.any_some] at hsign
      rw [ht, List.tail_cons] at hunsigned
      have hu : 0x20 ≤ u ∧ u < 0x7F := by
        rw [isSign, Bool.or_eq_true, beq_iff_eq, beq_iff_eq] at hsign
        rcases hsign with rfl | rfl
        · decide
        · decide
      rw [hunsigned, List.length_cons, List.length_append]
      exact ⟨.cons hu (hdigits.append hclock), by omega⟩
  · rw [hunsigned, List.length_append]
    exact ⟨hdigits.append hclock, by omega⟩

/-- The members of a run cursor. -/
def runsDocument (projectId : Text) (before : Sequence) : List (Text × Json) :=
  [(txt "v", .num (JsNumber.ofInt 1)), (txt "k", .str (txt "runs")),
    (txt "b", .str (binding (runsParts projectId))), (txt "s", .str (natText before.value))]

theorem decode_runsDocument (projectId : Text) (before : Sequence) (members : List Text) :
    decode (encodeRunsCursor projectId before) members =
      if joinedNames [txt "v", txt "k", txt "b", txt "s"] = joinedNames members then
        .ok (runsDocument projectId before)
      else .error malformed := by
  have hshort := length_natText_le (k := 19) (by decide)
    (lt_of_le_of_lt before.bounded (by decide))
  have hbound := length_binding (runsParts projectId)
  have hone : (natText 1).length = 1 := by decide
  have hkeys : (txt "v").length = 1 ∧ (txt "k").length = 1 ∧ (txt "b").length = 1 ∧
      (txt "s").length = 1 ∧ (txt "runs").length = 4 := by decide
  obtain ⟨hv, hk, hb, hs, hruns⟩ := hkeys
  have hwritten : List.Forall₂ Written (runsDocument projectId before) [_, _, _, _] :=
    .cons (written_num (by decide) 1) <|
    .cons (written_str (by decide) (by decide)) <|
    .cons (written_str (by decide) (binding_printable _)) <|
    .cons (written_str (by decide) (natText_printable _)) .nil
  have hnames : ((runsDocument projectId before).map Prod.fst).dedup =
      [txt "v", txt "k", txt "b", txt "s"] := by
    change [txt "v", txt "k", txt "b", txt "s"].dedup = _
    decide
  have hread := decode_encode hwritten ?_ rfl members
  · rw [hnames] at hread
    exact hread
  · simp only [List.map_cons, List.map_nil, List.sum_cons, List.sum_nil]
    omega

/-- A run cursor is read back by the listing whose binding it carries. -/
theorem decode_runs (projectId projectId' : Text) (before : Sequence) :
    decodeRunsCursor projectId' (encodeRunsCursor projectId before) =
      if binding (runsParts projectId) = binding (runsParts projectId') then .ok before
      else .error malformed := by
  have hsequence := isSequence_natText before.bounded
  have hkind : property (runsDocument projectId before) "k" = some (.str (txt "runs")) := rfl
  have hbound : property (runsDocument projectId before) "b" =
    some (.str (binding (runsParts projectId))) := rfl
  have hposition : property (runsDocument projectId before) "s" =
    some (.str (natText before.value)) := rfl
  have hvalue : readDigits (natText before.value) ≤ 9223372036854775807 := by
    rw [readDigits_natText]
    exact before.bounded
  have hread : (⟨readDigits (natText before.value), hvalue⟩ : Sequence) = before := by
    cases before
    simp only [readDigits_natText]
  rw [decodeRunsCursor, decode_runsDocument, if_pos rfl]
  by_cases hsame : binding (runsParts projectId) = binding (runsParts projectId')
  · simp [bind, Except.bind, pure, Except.pure, isText, hkind, hbound, hposition, hsame, hsequence,
      hvalue, hread]
  · simp [bind, Except.bind, throw, throwThe, MonadExceptOf.throw, isText, hkind, hbound, hsame]

/-- The members of a history cursor. -/
def historyDocument (projectId runnerName historicalId : Text) (after : HistoryCursor) :
    List (Text × Json) :=
  [(txt "v", .num (JsNumber.ofInt 1)), (txt "k", .str (txt "history")),
    (txt "b", .str (binding (historyParts projectId runnerName historicalId))),
    (txt "t", .str after.occurredAt.toISOString), (txt "l", .num (JsNumber.ofInt after.leap)),
    (txt "r", .str after.runId), (txt "e", .str after.executionId)]

theorem decode_historyDocument (projectId runnerName historicalId : Text) (after : HistoryCursor)
    (members : List Text) :
    decode (encodeHistoryCursor projectId runnerName historicalId after) members =
      if joinedNames [txt "v", txt "k", txt "b", txt "t", txt "l", txt "r", txt "e"] =
          joinedNames members then
        .ok (historyDocument projectId runnerName historicalId after)
      else .error malformed := by
  have hleap := length_natText_le (k := 4) (by decide) (lt_of_le_of_lt after.leap_le (by decide))
  have hbound := length_binding (historyParts projectId runnerName historicalId)
  obtain ⟨htime, htime'⟩ := toISOString_printable after.occurredAt
  obtain ⟨hrun, hrun'⟩ := isProtocolIdentifier_printable after.run_identifier
  obtain ⟨hexecution, hexecution'⟩ := isProtocolIdentifier_printable after.execution_identifier
  have hone : (natText 1).length = 1 := by decide
  have hkeys : (txt "v").length = 1 ∧ (txt "k").length = 1 ∧ (txt "b").length = 1 ∧
      (txt "t").length = 1 ∧ (txt "l").length = 1 ∧ (txt "r").length = 1 ∧ (txt "e").length = 1 ∧
      (txt "history").length = 7 := by decide
  obtain ⟨hv, hk, hb, ht, hl, hr, he, hhistory⟩ := hkeys
  have hwritten : List.Forall₂ Written (historyDocument projectId runnerName historicalId after)
      [_, _, _, _, _, _, _] :=
    .cons (written_num (by decide) 1) <|
    .cons (written_str (by decide) (by decide)) <|
    .cons (written_str (by decide) (binding_printable _)) <|
    .cons (written_str (by decide) htime) <|
    .cons (written_num (by decide) after.leap) <|
    .cons (written_str (by decide) hrun) <|
    .cons (written_str (by decide) hexecution) .nil
  have hnames : ((historyDocument projectId runnerName historicalId after).map Prod.fst).dedup =
      [txt "v", txt "k", txt "b", txt "t", txt "l", txt "r", txt "e"] := by
    change [txt "v", txt "k", txt "b", txt "t", txt "l", txt "r", txt "e"].dedup = _
    decide
  have hread := decode_encode hwritten ?_ rfl members
  · rw [hnames] at hread
    exact hread
  · simp only [List.map_cons, List.map_nil, List.sum_cons, List.sum_nil]
    omega

/-- A history cursor is read back by the history whose binding it carries. -/
theorem decode_history (other : Text → Option Date)
    (projectId runnerName historicalId projectId' runnerName' historicalId' : Text)
    (after : HistoryCursor) :
    decodeHistoryCursor other projectId' runnerName' historicalId'
        (encodeHistoryCursor projectId runnerName historicalId after) =
      if binding (historyParts projectId runnerName historicalId) =
          binding (historyParts projectId' runnerName' historicalId') then .ok after
      else .error malformed := by
  have hkind : property (historyDocument projectId runnerName historicalId after) "k" =
    some (.str (txt "history")) := rfl
  have hbound : property (historyDocument projectId runnerName historicalId after) "b" =
    some (.str (binding (historyParts projectId runnerName historicalId))) := rfl
  have htime : property (historyDocument projectId runnerName historicalId after) "t" =
    some (.str after.occurredAt.toISOString) := rfl
  have hleap : property (historyDocument projectId runnerName historicalId after) "l" =
    some (.num (JsNumber.ofInt after.leap)) := rfl
  have hrun : property (historyDocument projectId runnerName historicalId after) "r" =
    some (.str after.runId) := rfl
  have hexecution : property (historyDocument projectId runnerName historicalId after) "e" =
    some (.str after.executionId) := rfl
  have hdate : newDate other after.occurredAt.toISOString = some after.occurredAt := by
    rw [newDate, isoDate_toISOString]
  have hle := after.leap_le
  have hparsed : (JsNumber.ofInt after.leap).parsed? = some (after.leap : ℤ) := by
    rw [JsNumber.parsed?_ofInt, if_pos (by omega)]
  rw [decodeHistoryCursor, decode_historyDocument, if_pos rfl]
  by_cases hsame : binding (historyParts projectId runnerName historicalId) =
      binding (historyParts projectId' runnerName' historicalId')
  · simp [bind, Except.bind, pure, Except.pure, isText, hkind, hbound, htime, hleap, hrun,
      hexecution, hsame, isIsoInstant_toISOString, hdate, hparsed, hle, after.run_identifier,
      after.execution_identifier]
  · simp [bind, Except.bind, throw, throwThe, MonadExceptOf.throw, isText, hkind, hbound, hsame]

/-! ### Listings -/

/-- What a page is a page of. -/
inductive Listing where
  | runs (projectId : Text)
  | history (projectId runnerName historicalId : Text)
deriving DecidableEq

namespace Listing

/-- What a page of the listing ends at. -/
def Position : Listing → Type
  | .runs _ => Sequence
  | .history _ _ _ => HistoryCursor

def parts : Listing → List Text
  | .runs projectId => runsParts projectId
  | .history projectId runnerName historicalId => historyParts projectId runnerName historicalId

def encode : (l : Listing) → l.Position → Text
  | .runs projectId, before => encodeRunsCursor projectId before
  | .history projectId runnerName historicalId, after =>
      encodeHistoryCursor projectId runnerName historicalId after

def decode (other : Text → Option Date) : (l : Listing) → Text → Except Problem l.Position
  | .runs projectId, cursor => decodeRunsCursor projectId cursor
  | .history projectId runnerName historicalId, cursor =>
      decodeHistoryCursor other projectId runnerName historicalId cursor

end Listing

variable (other : Text → Option Date)

theorem decode_own (l : Listing) (p : l.Position) : l.decode other (l.encode p) = .ok p := by
  cases l with
  | runs projectId => exact (decode_runs projectId projectId p).trans (if_pos rfl)
  | history projectId runnerName historicalId =>
    exact (decode_history other _ _ _ projectId runnerName historicalId p).trans (if_pos rfl)

theorem joinedNames_kinds : joinedNames [txt "v", txt "k", txt "b", txt "s"] ≠
    joinedNames [txt "v", txt "k", txt "b", txt "t", txt "l", txt "r", txt "e"] := by
  decide

theorem decodeHistoryCursor_runs (projectId runnerName historicalId projectId' : Text)
    (before : Sequence) :
    decodeHistoryCursor other projectId runnerName historicalId
      (encodeRunsCursor projectId' before) = .error malformed := by
  rw [decodeHistoryCursor, decode_runsDocument, if_neg joinedNames_kinds]
  rfl

theorem decodeRunsCursor_history (projectId projectId' runnerName historicalId : Text)
    (after : HistoryCursor) :
    decodeRunsCursor projectId (encodeHistoryCursor projectId' runnerName historicalId after) =
      .error malformed := by
  rw [decodeRunsCursor, decode_historyDocument, if_neg joinedNames_kinds.symm]
  rfl

/-- The members of the two kinds differ, and within a kind the bindings do. -/
theorem decode_foreign {l l' : Listing} (hne : l ≠ l') (hsha : NoCollision l.parts l'.parts)
    (p : l.Position) : l'.decode other (l.encode p) = .error malformed := by
  cases l with
  | runs projectId =>
    cases l' with
    | runs projectId' =>
      have hparts : runsParts projectId ≠ runsParts projectId' := by
        intro h
        exact hne (congrArg Listing.runs (List.cons.inj (List.cons.inj h).2).1)
      exact (decode_runs projectId projectId' p).trans (if_neg (binding_ne hparts hsha))
    | history projectId' runnerName' historicalId' =>
      exact decodeHistoryCursor_runs other projectId' runnerName' historicalId' projectId p
  | history projectId runnerName historicalId =>
    cases l' with
    | runs projectId' =>
      exact decodeRunsCursor_history projectId' projectId runnerName historicalId p
    | history projectId' runnerName' historicalId' =>
      have hparts : historyParts projectId runnerName historicalId ≠
          historyParts projectId' runnerName' historicalId' := by
        intro h
        simp only [historyParts, List.cons.injEq, and_true, true_and] at h
        obtain ⟨rfl, rfl, rfl⟩ := h
        exact hne rfl
      exact (decode_history other _ _ _ _ _ _ p).trans (if_neg (binding_ne hparts hsha))

theorem decode_error {cursor : Text} {members : List Text} {problem : Problem}
    (h : Cursor.decode cursor members = .error problem) : problem = malformed := by
  rw [Cursor.decode] at h
  dsimp only at h
  split at h
  · exact (Except.error.inj h).symm
  split at h
  · exact (Except.error.inj h).symm
  split at h
  · split at h
    · exact (Except.error.inj h).symm
    split at h
    · split at h
      · cases h
      · exact (Except.error.inj h).symm
    · exact (Except.error.inj h).symm
  · exact (Except.error.inj h).symm

theorem decodeRunsCursor_error {projectId cursor : Text} {problem : Problem}
    (h : decodeRunsCursor projectId cursor = .error problem) : problem = malformed := by
  rw [decodeRunsCursor] at h
  cases hd : Cursor.decode cursor [txt "v", txt "k", txt "b", txt "s"] with
  | error e =>
    rw [hd] at h
    rw [← decode_error hd]
    exact (Except.error.inj h).symm
  | ok d =>
    rw [hd] at h
    simp only [bind, Except.bind, pure, Except.pure, throw, throwThe, MonadExceptOf.throw] at h
    split at h
    · exact (Except.error.inj h).symm
    split at h
    · split at h
      · exact (Except.error.inj h).symm
      split at h
      · cases h
      · exact (Except.error.inj h).symm
    · exact (Except.error.inj h).symm

theorem decodeHistoryCursor_error {projectId runnerName historicalId cursor : Text}
    {problem : Problem}
    (h : decodeHistoryCursor other projectId runnerName historicalId cursor = .error problem) :
    problem = malformed := by
  rw [decodeHistoryCursor] at h
  cases hd : Cursor.decode cursor
      [txt "v", txt "k", txt "b", txt "t", txt "l", txt "r", txt "e"] with
  | error e =>
    rw [hd] at h
    rw [← decode_error hd]
    exact (Except.error.inj h).symm
  | ok d =>
    rw [hd] at h
    simp only [bind, Except.bind, pure, Except.pure, throw, throwThe, MonadExceptOf.throw] at h
    split at h
    · exact (Except.error.inj h).symm
    split at h
    · split at h
      · exact (Except.error.inj h).symm
      split at h
      · split at h
        · exact (Except.error.inj h).symm
        split at h
        · cases h
        · exact (Except.error.inj h).symm
      · exact (Except.error.inj h).symm
    · exact (Except.error.inj h).symm

/-- Whatever a listing refuses, it refuses with the one problem. -/
theorem decode_malformed {l : Listing} {cursor : Text} {problem : Problem}
    (h : l.decode other cursor = .error problem) : problem = malformed := by
  cases l with
  | runs projectId => exact decodeRunsCursor_error h
  | history projectId runnerName historicalId => exact decodeHistoryCursor_error other h

/-- A position comes back from its cursor, a cursor of another listing is refused, and every text
is either refused as malformed or read as a position that comes back from its own cursor. -/
theorem cursors_exact (l : Listing) :
    (∀ p, l.decode other (l.encode p) = .ok p) ∧
      (∀ l', l ≠ l' → NoCollision l.parts l'.parts →
        ∀ p, l'.decode other (l.encode p) = .error malformed) ∧
      ∀ cursor, l.decode other cursor = .error malformed ∨
        ∃ p, l.decode other cursor = .ok p ∧ l.decode other (l.encode p) = .ok p := by
  refine ⟨decode_own other l, fun l' hne hsha p => decode_foreign other hne hsha p, ?_⟩
  intro cursor
  cases h : l.decode other cursor with
  | error problem => exact .inl (congrArg Except.error (decode_malformed other h))
  | ok p => exact .inr ⟨p, rfl, decode_own other l p⟩

theorem cursors_exact_sample :
    (Listing.runs (txt "B")).decode (fun _ => none)
      ((Listing.runs (txt "A")).encode ⟨7, by decide⟩) = .error malformed :=
  (cursors_exact (fun _ => none) (.runs (txt "A"))).2.1 (.runs (txt "B")) (by decide)
    (fun h => absurd h (by decide)) ⟨7, by decide⟩

end Cursor

end QeReport.Http

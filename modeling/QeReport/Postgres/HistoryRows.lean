import QeReport.Http.Cursors
import QeReport.Postgres.Storable
import QeReport.Protocol.SchemaAccepted
import QeReport.ReadModel.Timeline

/-! # What the schema and the clock bound

The rows of a history are placed by an instant, a place inside a leap second, a run id and an
execution id.  For the runs of valid reports each of these is within the bounds of a cursor: the
schema bounds the identifiers (`identified_of_accepted`), and the instant of a timestamp with a
four-digit year is a date (`historyInstant_bounds`). -/

namespace QeReport

open Schema Http.Cursor

/-! ### Identifiers -/

theorem length_points_ascii {t : Text} (h : IsAscii t) : (points t).length = t.length := by
  induction t using points.induct with
  | case1 => rfl
  | case2 u => rfl
  | case3 u v t hpair ih =>
    rw [(isSurrogate_ascii (h u List.mem_cons_self)).1] at hpair
    cases hpair
  | case4 u v t hpair ih =>
    rw [points, if_neg hpair, List.length_cons, ih fun w hw => h w (List.mem_cons_of_mem _ hw)]
    rfl

theorem isIdentifier_ascii {t : Text} (h : isIdentifier t = true) : IsAscii t := by
  rw [isIdentifier, Bool.and_eq_true, List.all_eq_true] at h
  intro u hu
  have hunit := h.2 u hu
  rw [Bool.and_eq_true, decide_eq_true_eq, decide_eq_true_eq] at hunit
  exact hunit.2.trans_lt (by decide)

/-- The schema's identifiers are those of the API. -/
theorem protocolIdentifier_of_accepts {t : Text} (h : EventSchema.identifier (.str t) = true) :
    isProtocolIdentifier t = true := by
  have hall := schema_eq_true.mp h
  have hpattern : isIdentifier t = true := hall (pattern isIdentifier) (by simp)
  have hlength : (points t).length ≤ 128 := of_decide_eq_true (hall (maxLength 128) (by simp))
  rw [length_points_ascii (isIdentifier_ascii hpattern)] at hlength
  rw [isProtocolIdentifier, hpattern, decide_eq_true hlength]
  rfl

/-- The identifiers of an event that a history is ordered by. -/
structure Identified (e : AnyEvent) : Prop where
  runId : isProtocolIdentifier e.envelope.runId = true
  executionId : ∀ p, e.payload? = some (.attemptStarted p) →
    isProtocolIdentifier p.test.executionId = true

/-- A member that the schema of an object names. -/
theorem accepts_member {names : List Text} {ps : List (Text × Schema)} {o : Obj} {k : Text}
    {s : Schema} {w : Json}
    (h : schema [type .object, Schema.required names, properties ps] (.obj o) = true)
    (hk : (k, s) ∈ ps) (hw : memberOf o k = some w) : s w = true :=
  properties_member (schema_eq_true.mp h _ (by simp)) hk hw

theorem readEnvelope_runId {root : Obj} {envelope : Envelope} {t : Text}
    (h : readEnvelope root = .ok (envelope, t)) :
    memberOf root (txt "runId") = some (.str envelope.runId) := by
  obtain ⟨version, -, h⟩ := bind_eq_ok.mp h
  obtain ⟨⟨⟩, -, h⟩ := bind_eq_ok.mp h
  obtain ⟨eventType, -, h⟩ := bind_eq_ok.mp h
  obtain ⟨eventId, -, h⟩ := bind_eq_ok.mp h
  obtain ⟨runId, hrun, h⟩ := bind_eq_ok.mp h
  obtain ⟨sessionId, -, h⟩ := bind_eq_ok.mp h
  obtain ⟨sequence, -, h⟩ := bind_eq_ok.mp h
  obtain ⟨occurredAt, -, h⟩ := bind_eq_ok.mp h
  obtain ⟨ignorable, -, h⟩ := bind_eq_ok.mp h
  cases h
  exact (identifier_eq_ok hrun).1

/-- The test of an attempt.started event is an object that holds its execution id. -/
theorem readAttemptStarted_test {o : Obj} {at_ : Text} {p : AttemptStartedPayload}
    (h : readAttemptStarted o at_ = .ok p) : ∃ test, memberOf o (txt "test") = some (.obj test) ∧
      memberOf test (txt "executionId") = some (.str p.test.executionId) := by
  obtain ⟨n, -, h⟩ := bind_eq_ok.mp h
  split_ifs at h
  · cases h
  · obtain ⟨raw, hraw, h⟩ := bind_eq_ok.mp h
    obtain ⟨testRaw, hobject, h⟩ := bind_eq_ok.mp h
    obtain ⟨attemptId, -, h⟩ := bind_eq_ok.mp h
    obtain ⟨test, htest, h⟩ := bind_eq_ok.mp h
    cases h
    obtain ⟨word, -, htest⟩ := bind_eq_ok.mp htest
    obtain ⟨stability, -, htest⟩ := bind_eq_ok.mp htest
    obtain ⟨historicalId, -, htest⟩ := bind_eq_ok.mp htest
    split_ifs at htest
    · cases htest
    · cases htest
    · obtain ⟨rawPath, -, htest⟩ := bind_eq_ok.mp htest
      obtain ⟨path, -, htest⟩ := bind_eq_ok.mp htest
      obtain ⟨executionId, hid, htest⟩ := bind_eq_ok.mp htest
      obtain ⟨displayName, -, htest⟩ := bind_eq_ok.mp htest
      obtain ⟨location, -, htest⟩ := bind_eq_ok.mp htest
      obtain ⟨tags, -, htest⟩ := bind_eq_ok.mp htest
      obtain ⟨labels, -, htest⟩ := bind_eq_ok.mp htest
      cases htest
      refine ⟨testRaw, ?_, (identifier_eq_ok hid).1⟩
      rw [required_eq_ok hraw]
      cases raw with
      | obj members =>
        cases hobject
        rfl
      | null => cases hobject
      | bool b => cases hobject
      | num n => cases hobject
      | str s => cases hobject
      | arr items => cases hobject

/-- An attempt.started payload was read by the reader of its type. -/
theorem readPayload_attempt {t : EventType} {o : Obj} {p : AttemptStartedPayload}
    (h : readPayload t o = .ok (.attemptStarted p)) :
    t = .attemptStarted ∧ readAttemptStarted o (txt "/payload") = .ok p := by
  cases t with
  | attemptStarted =>
    obtain ⟨q, hq, hqp⟩ := map_eq_ok.mp h
    cases hqp
    exact ⟨rfl, hq⟩
  | runFinished => cases h
  | _ =>
    obtain ⟨q, -, hqp⟩ := map_eq_ok.mp h
    cases hqp

/-- The identifiers of an event that the schema accepts. -/
theorem identified_of_accepted {dateTime : Text → Bool} {v : Json} {e : AnyEvent}
    (h : eventFromObject v = .ok e)
    (hv : EventSchema.validates dateTime e.knownType v = true) : Identified e := by
  have henvelope : EventSchema.envelope dateTime v = true := by
    cases ht : e.knownType with
    | none =>
      rw [ht] at hv
      exact hv
    | some t =>
      rw [ht] at hv
      exact schema_eq_true.mp hv _ List.mem_cons_self
  cases v with
  | obj root =>
    obtain ⟨⟨envelope, t⟩, henv, h⟩ := bind_eq_ok.mp h
    have hrun := protocolIdentifier_of_accepts
      (accepts_member henvelope (k := txt "runId") (by simp) (readEnvelope_runId henv))
    simp only at h
    split at h
    · rename_i payload hpayload
      split at h
      · rename_i type _
        obtain ⟨p, hp, h⟩ := map_eq_ok.mp h
        cases h
        refine ⟨hrun, ?_⟩
        intro q hq
        cases Option.some.inj hq
        obtain ⟨rfl, hread⟩ := readPayload_attempt hp
        obtain ⟨test, htest, hid⟩ := readAttemptStarted_test hread
        have hbranch : EventSchema.branch .attemptStarted (.obj root) = true :=
          schema_eq_true.mp hv _ (by simp [Payload.eventType])
        have hattempt : EventSchema.attemptStarted (.obj payload) = true :=
          properties_member (schema_eq_true.mp hbranch _ (List.mem_cons_of_mem _ List.mem_cons_self))
            (by simp [EventSchema.payload]) hpayload
        have hcase : EventSchema.testCase (.obj test) = true :=
          accepts_member hattempt (k := txt "test") (by simp) htest
        exact protocolIdentifier_of_accepts
          (properties_member (schema_eq_true.mp hcase _ (List.mem_cons_of_mem _
            (List.mem_cons_of_mem _ List.mem_cons_self))) (k := txt "executionId") (by simp) hid)
      · split_ifs at h
        · cases h
          exact ⟨hrun, fun p hp => by cases hp⟩
    · cases h
  | null => cases h
  | bool b => cases h
  | num n => cases h
  | str s => cases h
  | arr items => cases h

/-! ### Instants -/

theorem eatDigits_take {n : ℕ} {t rest : Text} (h : eatDigits n t = some rest) :
    (t.take n).all isDigit = true := by
  induction n generalizing t with
  | zero => rfl
  | succ n ih =>
    cases t with
    | nil => cases h
    | cons u t =>
      rw [eatDigits] at h
      split_ifs at h with hu
      rw [List.take_succ_cons, List.all_cons, hu, ih h]
      rfl

/-- A timestamp begins with the four digits of its year. -/
theorem year_le {t : Text} {f : TimestampFields} (h : timestampFields t = some f) :
    f.year ≤ 9999 := by
  unfold timestampFields at h
  split_ifs at h with htime
  rw [isTimestamp, decide_eq_true_eq] at htime
  obtain ⟨rest, hrest, -⟩ := Option.bind_eq_some_iff.mp htime
  have hlt := readDigits_lt (eatDigits_take hrest)
  have hpow : (10 : ℕ) ^ (t.take 4).length ≤ 10 ^ 4 :=
    Nat.pow_le_pow_right (by decide) (List.length_take_le 4 t)
  have hyear : f.year = readDigits (t.take 4) := by
    cases h
    rfl
  omega

/-- The days of a four-digit year lie within ten thousand years. -/
theorem epochDay_bounds {f : TimestampFields} (hyear : f.year ≤ 9999) (hmonth : f.month ≤ 12)
    (hday : f.day ≤ 31) : -720000 ≤ f.epochDay ∧ f.epochDay ≤ 2935000 := by
  have hbefore : [0, 0, 31, 59, 90, 120, 151, 181, 212, 243, 273, 304, 334].getD f.month 0 ≤ 334 := by
    have hall : ∀ m ≤ 12,
        [0, 0, 31, 59, 90, 120, 151, 181, 212, 243, 273, 304, 334].getD m 0 ≤ 334 := by decide
    exact hall _ hmonth
  unfold TimestampFields.epochDay
  split_ifs <;> omega

theorem daysInMonth_le (f : TimestampFields) (hmonth : f.month ≤ 12) : f.daysInMonth ≤ 31 := by
  have hall : ∀ m ≤ 12, [0, 31, 28, 31, 30, 31, 30, 31, 31, 30, 31, 30, 31].getD m 0 ≤ 31 := by decide
  unfold TimestampFields.daysInMonth
  split_ifs
  · decide
  · exact hall _ hmonth

theorem offset_bounds {f : TimestampFields} (hhour : f.offsetHour ≤ 23)
    (hminute : f.offsetMinute ≤ 59) : -1439 ≤ f.offset ∧ f.offset ≤ 1439 := by
  unfold TimestampFields.offset
  split_ifs <;> omega

theorem dateParse_bounds {f : TimestampFields} {s m : ℕ} (hyear : f.year ≤ 9999)
    (hdate : ¬ (f.month < 1 ∨ f.month > 12 ∨ f.day < 1 ∨ f.day > f.daysInMonth))
    (htime : ¬ (f.hour > 23 ∨ f.minute > 59 ∨ f.second > 60 ∨ f.offsetHour > 23 ∨
      f.offsetMinute > 59)) (hs : s ≤ 60) (hm : m < 1000) :
    |f.dateParse s m| ≤ 8640000000000000 := by
  have hdays := daysInMonth_le f (by omega)
  obtain ⟨hlow, hhigh⟩ := epochDay_bounds hyear (by omega) (show f.day ≤ 31 by omega)
  obtain ⟨hbefore, hafter⟩ := offset_bounds (f := f) (by omega) (by omega)
  rw [TimestampFields.dateParse, abs_le]
  constructor
  · omega
  · omega

/-- Wherever a timestamp is placed, its instant is a date and its place in a leap second one of a
cursor. -/
theorem historyInstant_bounds {t : Text} {i : HistoryInstant} (h : historyInstant t = .ok i) :
    |i.epochMs| ≤ 8640000000000000 ∧ i.leap ≤ 1000 := by
  unfold historyInstant at h
  split at h
  · rename_i j hj
    cases h
    obtain ⟨f, hf, hinstant⟩ := Option.bind_eq_some_iff.mp hj
    have hyear := year_le hf
    have hmilli := millisecond_lt (fraction_digits hf)
    unfold TimestampFields.instant? at hinstant
    split_ifs at hinstant with hdate htime hsecond hleap
    · have hdays := dateParse_bounds hyear hdate htime (show f.second ≤ 60 by omega) hmilli
      cases hinstant
      exact ⟨hdays, Nat.zero_le _⟩
    · have hdays := dateParse_bounds hyear hdate htime (show 59 ≤ 60 by decide)
        (show 999 < 1000 by decide)
      cases hinstant
      exact ⟨hdays, by dsimp only; omega⟩
  · cases h

/-! ### Projected runs -/

/-- The run is the projection of a valid report under a project. -/
def ProjectedUnder (rt : Runtime) (projectId : Text) (run : ProjectedRun) : Prop :=
  ∃ fs options calls runDirectory, (reportOf rt fs options calls).valid = true ∧
    projectRun projectId runDirectory (snapshotOf rt fs options calls) = .ok run

/-- What orders the occurrences of a run. -/
structure Orderable (projectId : Text) (run : ProjectedRun) : Prop where
  projectId : run.projectId = projectId
  runId : isProtocolIdentifier run.runId = true
  executionIds : ∀ x ∈ run.executions, isProtocolIdentifier x.executionId = true
  distinct : (run.executions.map (fun x => x.executionId)).Nodup
  attempts : ∀ x ∈ run.executions, x.attempts ≠ []

/-- A line that was read is one the schema accepted. -/
theorem reading_validates {rt : Runtime} {limit : ℕ} {raw : Text} {r : Reading}
    (h : reading rt limit raw = some r) :
    ∃ v, eventFromObject v = .ok r.event ∧ rt.validate r.event.knownType v = none := by
  have h := (@readLine_eq_ok rt limit 0 [] raw r).mpr h
  unfold readLine at h
  split_ifs at h
  cases hp : rt.parse raw with
  | error m =>
    rw [hp] at h
    cases h
  | ok v =>
    rw [hp] at h
    cases hv : eventFromObject v with
    | error err =>
      simp only [hv] at h
      cases h
    | ok e =>
      simp only [hv] at h
      cases hval : rt.validate e.knownType v with
      | some errors =>
        rw [hval] at h
        cases h
      | none =>
        rw [hval] at h
        cases h
        exact ⟨v, hv, hval⟩

/-- The executions of a projection are grouped by their ids. -/
theorem executions_nodup {attempts : JsMap Text Projector.AttemptState}
    {sessions : JsMap Text Projector.SessionState} {xs : List TestExecution}
    (h : Projector.groupExecutions attempts sessions = .ok xs) :
    (xs.map (fun x => x.executionId)).Nodup := by
  have hkeys : ∀ {gs : List (Text × List Projector.AttemptState)} {xs : List TestExecution},
      List.Forall₂ (fun g x => Projector.groupExecution sessions g.1 g.2 = .ok x) gs xs →
      xs.map (fun x => x.executionId) = gs.map Prod.fst := by
    intro gs xs hall
    induction hall with
    | nil => rfl
    | cons hx _ ih =>
      rw [List.map_cons, List.map_cons, ih, (Projector.groupExecution_eq_ok hx).1]
  rw [hkeys (Projector.mapM_eq_ok h)]
  exact ((sortBy_perm _).map Prod.fst).nodup_iff.mpr (JsMap.nodup _)

section projected
variable {rt : Runtime} {dateTime : Text → Bool}
  (hschema : ∀ t v, rt.validate t v = none → EventSchema.validates dateTime t v = true)
include hschema

/-- Every event of a log has the identifiers of the schema. -/
theorem identified_of_mem {options : ValidateOptions} {calls : List FeedCall} {e : AnyEvent}
    (he : e ∈ runLog rt options calls) : Identified e := by
  obtain ⟨x, hx, rfl⟩ := List.mem_map.mp he
  obtain ⟨c, -, hxc⟩ := mem_allLines.mp ((fresh_sublist _).subset hx)
  obtain ⟨v, hv, hvalid⟩ := reading_validates (mem_callLines hxc)
  exact identified_of_accepted hv (hschema _ v hvalid)

/-- The runs of valid reports can be ordered. -/
theorem orderable {projectId : Text} {run : ProjectedRun} (h : ProjectedUnder rt projectId run) :
    Orderable projectId run := by
  obtain ⟨fs, options, calls, runDirectory, hvalid, hrun⟩ := h
  have hne : (snapshotOf rt fs options calls).events ≠ [] := by
    intro hnil
    obtain ⟨e, he, -⟩ := projectRun_runId hrun
    rw [hnil] at he
    cases he
  have hv := (valid_iff rt fs options calls).mp hvalid
  have hevents := snapshot_events hv hne
  obtain ⟨runId, xs, hxs, hok⟩ :=
    Projector.projectRun_eq hv.lifecycle hvalid hevents hne projectId runDirectory
  obtain ⟨e, he, hrunId⟩ := projectRun_runId hrun
  rw [hok] at hrun
  cases hrun
  have hknown : .known e ∈ runLog rt options calls := by
    rw [hevents] at he
    obtain ⟨x, hx, hxe⟩ := List.mem_filterMap.mp he
    cases x with
    | known k =>
      obtain rfl := Option.some.inj hxe
      exact hx
    | unknown u => cases hxe
  refine ⟨rfl, ?_, ?_, executions_nodup hxs, ?_⟩
  · rw [hrunId]
    exact (identified_of_mem hschema hknown).runId
  · intro x hx
    obtain ⟨a, ha⟩ := Projector.executionOf hxs hx
    have hstart := identified_of_mem hschema (Projector.startEvent_mem hv.lifecycle ha.mem)
    rw [← ha.executionId]
    exact hstart.executionId _ rfl
  · intro x hx hnil
    obtain ⟨a, ha⟩ := Projector.executionOf hxs hx
    have hfirst := ha.first
    rw [hnil] at hfirst
    cases hfirst

end projected

end QeReport

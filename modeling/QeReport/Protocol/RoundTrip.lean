import QeReport.Lib.Double
import QeReport.Protocol.Codec
import QeReport.Protocol.Writer

/-! # Reading what was written

`eventFromObject` of `eventToObject`: an object the codec wrote is read as the payload it was
written from, with its empty collections left out (`Payload.normal`), or it is refused for an
identifier, a number or a rule of the payload.  A payload read from a written object is written
as that very object again, so that the codec reads its own output as it was
(`eventFromObject_written`). -/

namespace QeReport

/-! ### Members of a written object -/

/-- The value of a member that may be left out. -/
def field : List (Text × Option Json) → Text → Option Json
  | [], _ => none
  | (k, v) :: ms, key => if k = key then v else field ms key

theorem field_eq_none {ms : List (Text × Option Json)} {key : Text} (h : key ∉ ms.map Prod.fst) :
    field ms key = none := by
  induction ms with
  | nil => rfl
  | cons m ms ih =>
      obtain ⟨k, v⟩ := m
      rw [List.map_cons, List.mem_cons, not_or] at h
      rw [field, if_neg (Ne.symm h.1), ih h.2]

theorem memberOf_omitUndefined (ms : List (Text × Option Json)) (h : (ms.map Prod.fst).Nodup)
    (key : Text) : memberOf (omitUndefined ms) key = field ms key := by
  induction ms with
  | nil => rfl
  | cons m ms ih =>
      obtain ⟨k, v⟩ := m
      rw [List.map_cons, List.nodup_cons] at h
      have hrest := ih h.2
      cases v with
      | none =>
          have hskip : omitUndefined ((k, none) :: ms) = omitUndefined ms := rfl
          rw [hskip, hrest, field]
          split_ifs with hk
          · exact field_eq_none (hk ▸ h.1)
          · rfl
      | some v =>
          have hkeep : omitUndefined ((k, some v) :: ms) = (k, v) :: omitUndefined ms := rfl
          rw [hkeep, field]
          split_ifs with hk
          · simp [memberOf, hk]
          · rw [← hrest]
            simp [memberOf, hk]

/-! ### Readers of single fields -/

section fields
variable {o : Obj} {key at_ : Text}

theorem present_of_memberOf {v : Option Json} (h : memberOf o key = v) (hv : v ≠ some .null) :
    present o key = v := by
  rw [present, h]
  split
  · rfl
  · exact absurd rfl hv
  · rfl

theorem required_of {v : Json} (h : memberOf o key = some v) (hv : v ≠ .null) :
    required o key at_ = .ok v := by
  rw [required, present_of_memberOf h (by simpa using hv)]

theorem requiredString_of {s : Text} (h : memberOf o key = writeText s) :
    requiredString o key at_ = .ok s := by
  rw [requiredString, required_of h (by simp)]
  rfl

theorem optionalString_of {s : Option Text} (h : memberOf o key = s.bind writeText) :
    optionalString o key at_ = .ok s := by
  rw [optionalString]
  cases s with
  | none => rw [present_of_memberOf h (by simp)]; rfl
  | some s => rw [present_of_memberOf h (by simp [writeText])]; rfl

theorem identifier_of {s : Text} (h : memberOf o key = writeText s) :
    identifier o key at_ = checkIdentifier (child at_ key) s := by
  rw [identifier, requiredString_of h]
  rfl

theorem optionalIdentifier_of {s : Option Text} (h : memberOf o key = s.bind writeText) :
    optionalIdentifier o key at_ = s.mapM (checkIdentifier (child at_ key)) := by
  rw [optionalIdentifier, optionalString_of h]
  cases s with
  | none => rfl
  | some s => rfl

theorem asInteger_ofInt (i : ℤ) :
    asInteger at_ (.num (.ofInt i)) =
      if isSafe i then .ok i else invalid at_ (txt "must be an integer") := by
  rw [asInteger, safeInteger?_ofInt]
  split_ifs with h <;> rfl

theorem integral_of {i : ℤ} (h : memberOf o key = writeInt i) :
    integral o key at_ = asInteger (child at_ key) (.num (.ofInt i)) := by
  rw [integral, required_of h (by simp)]
  rfl

theorem optionalIntegral_of {i : Option ℤ} (h : memberOf o key = i.bind writeInt) :
    optionalIntegral o key at_ = i.mapM (fun i => asInteger (child at_ key) (.num (.ofInt i))) := by
  rw [optionalIntegral]
  cases i with
  | none => rw [present_of_memberOf h (by simp)]; rfl
  | some i =>
      rw [present_of_memberOf h (by simp [writeInt])]
      rfl

theorem optionalObject_of {α : Type} {read : Obj → Text → Read α} {members : Option Obj}
    (h : memberOf o key = members.map .obj) :
    optionalObject o key at_ read = members.mapM (fun ms => read ms (child at_ key)) := by
  rw [optionalObject]
  cases members with
  | none => rw [present_of_memberOf h (by simp)]; rfl
  | some ms =>
      rw [present_of_memberOf h (by simp)]
      rfl

/-- A collection that is left out when it is empty. -/
def nonEmpty {α : Type} : Option (List α) → Option (List α)
  | some [] => none
  | l => l

theorem mapM_record (at_ : Text) (r : Record) :
    (r.map (fun m => (m.1, Json.str m.2))).mapM (fun (k, v) =>
      (fun s => (k, s)) <$> asString (child at_ k) v) = .ok r := by
  induction r with
  | nil => rfl
  | cons m r ih =>
      rw [List.map_cons, List.mapM_cons, ih]
      rfl

theorem stringMap_of {r : Option Record} (h : memberOf o key = r.bind writeRecord) :
    stringMap o key at_ = .ok (nonEmpty r) := by
  rw [stringMap]
  rcases r with _ | _ | ⟨m, r⟩
  · rw [present_of_memberOf h (by simp)]; rfl
  · rw [present_of_memberOf h (by simp [writeRecord])]; rfl
  · rw [present_of_memberOf h (by simp [writeRecord])]
    have hread := mapM_record (child at_ key) (m :: r)
    simp only [Option.bind_some, writeRecord, hread]
    rfl

theorem mapItems_written {α : Type} {read : Json → Text → Read α} {write : α → Json}
    (h : ∀ a ptr b, read (write a) ptr = .ok b → b = a) {l l' : List α}
    (hl : mapItems read at_ (l.map write) = .ok l') : l' = l := by
  rw [mapItems] at hl
  generalize 0 = n at hl
  induction l generalizing n l' with
  | nil => exact (Except.ok.inj hl).symm
  | cons a l ih =>
      rw [List.map_cons, List.zipIdx_cons, List.mapM_cons] at hl
      obtain ⟨b, hb, hl⟩ := bind_eq_ok.mp hl
      obtain ⟨bs, hbs, hl⟩ := bind_eq_ok.mp hl
      cases hl
      rw [h a _ b hb, ih (n + 1) hbs]

theorem stringList_of {l l' : Option (List Text)} (h : memberOf o key = l.bind writeTags)
    (hl : stringList o key at_ = .ok l') : l' = nonEmpty l := by
  rw [stringList] at hl
  rcases l with _ | _ | ⟨t, l⟩
  · rw [present_of_memberOf h (by simp)] at hl
    exact (Except.ok.inj hl).symm
  · rw [present_of_memberOf h (by simp [writeTags])] at hl
    exact (Except.ok.inj hl).symm
  · rw [present_of_memberOf h (by simp [writeTags])] at hl
    simp only [Option.bind_some, writeTags] at hl
    cases hm : mapItems (fun v ptr => asString ptr v) (child at_ key) (List.map Json.str (t :: l)) with
    | error e => rw [hm] at hl; cases hl
    | ok l'' =>
        rw [hm] at hl
        cases hl
        rw [mapItems_written (fun _ _ _ hb => (Except.ok.inj hb).symm) hm]
        rfl

theorem optionalObject_written {α : Type} {read : Obj → Text → Read α} {write : α → Option Json}
    {members : α → Obj} (hwrite : ∀ a, write a = some (.obj (members a)))
    (hread : ∀ a ptr b, read (members a) ptr = .ok b → b = a) {x y : Option α}
    (h : memberOf o key = x.bind write) (hy : optionalObject o key at_ read = .ok y) : y = x := by
  have hmembers : x.bind write = (x.map members).map .obj := by
    cases x with
    | none => rfl
    | some a => exact hwrite a
  rw [optionalObject_of (h.trans hmembers)] at hy
  cases x with
  | none => exact (Except.ok.inj hy).symm
  | some a =>
      cases hb : read (members a) (child at_ key) with
      | error e =>
          rw [Option.map_some, Option.mapM_some, hb] at hy
          cases hy
      | ok b =>
          rw [Option.map_some, Option.mapM_some, hb] at hy
          cases hy
          rw [hread a _ b hb]

theorem checkIdentifier_eq_ok {s s' : Text} (h : checkIdentifier at_ s = .ok s') : s' = s := by
  unfold checkIdentifier at h
  split_ifs at h
  · exact (Except.ok.inj h).symm
  · cases h

theorem asInteger_eq_ok {i j : ℤ} (h : asInteger at_ (.num (.ofInt i)) = .ok j) :
    j = i ∧ isSafe i := by
  rw [asInteger_ofInt] at h
  split_ifs at h with hi
  · exact ⟨(Except.ok.inj h).symm, hi⟩
  · cases h

/-- A reader of an optional value gives back what it was given. -/
theorem mapM_eq_self {α : Type} {f : α → Read α} (hf : ∀ a b, f a = .ok b → b = a)
    {x y : Option α} (h : x.mapM f = .ok y) : y = x := by
  cases x with
  | none => exact (Except.ok.inj h).symm
  | some a =>
      cases ha : f a with
      | error e =>
          rw [Option.mapM_some, ha] at h
          cases h
      | ok b =>
          rw [Option.mapM_some, ha] at h
          cases h
          rw [hf a b ha]

theorem optionalIntegral_written {i j : Option ℤ} (h : memberOf o key = i.bind writeInt)
    (hj : optionalIntegral o key at_ = .ok j) : j = i := by
  rw [optionalIntegral_of h] at hj
  exact mapM_eq_self (fun _ _ hb => (asInteger_eq_ok hb).1) hj

theorem optionalIdentifier_written {s s' : Option Text} (h : memberOf o key = s.bind writeText)
    (hs : optionalIdentifier o key at_ = .ok s') : s' = s := by
  rw [optionalIdentifier_of h] at hs
  exact mapM_eq_self (fun _ _ hb => checkIdentifier_eq_ok hb) hs

theorem identifier_written {s s' : Text} (h : memberOf o key = writeText s)
    (hs : identifier o key at_ = .ok s') : s' = s := by
  rw [identifier_of h] at hs
  exact checkIdentifier_eq_ok hs

/-- The word of an enumeration is read as the value it names. -/
theorem oneOf_text {α : Type} {allowed : List α} {text : α → Text} {a : α}
    (h : allowed.find? (fun b => text b = text a) = some a) :
    oneOf (text a) allowed text at_ = .ok a := by
  rw [oneOf, h]

theorem optionalString_word {α : Type} {text : α → Text} {x : Option α}
    (h : memberOf o key = x.bind (fun a => writeText (text a))) :
    optionalString o key at_ = .ok (x.map text) := by
  refine optionalString_of (h.trans ?_)
  cases x with
  | none => rfl
  | some a => rfl

theorem mapM_word {α : Type} {text : α → Text} {read : Text → Read α}
    (hread : ∀ a, read (text a) = .ok a) {x y : Option α} (h : (x.map text).mapM read = .ok y) :
    y = x := by
  cases x with
  | none => exact (Except.ok.inj h).symm
  | some a =>
      rw [Option.map_some, Option.mapM_some, hread] at h
      exact (Except.ok.inj h).symm

end fields

/-! ### Parts of payloads -/

section parts
variable {at_ : Text}

theorem component_written (c : Component) (at_ : Text) :
    component (omitUndefined
      [(txt "name", writeText c.name), (txt "version", c.version.bind writeText)]) at_ = .ok c := by
  have hm := memberOf_omitUndefined
    [(txt "name", writeText c.name), (txt "version", c.version.bind writeText)]
    (by simp only [List.map]; decide)
  rw [component, requiredString_of ((hm _).trans rfl), optionalString_of ((hm _).trans rfl)]
  rfl

theorem executor_written (x : Executor) (at_ : Text) :
    executor (omitUndefined
      [(txt "name", x.name.bind writeText), (txt "buildId", x.buildId.bind writeText),
        (txt "buildUrl", x.buildUrl.bind writeText)]) at_ = .ok x := by
  have hm := memberOf_omitUndefined
    [(txt "name", x.name.bind writeText), (txt "buildId", x.buildId.bind writeText),
      (txt "buildUrl", x.buildUrl.bind writeText)] (by simp only [List.map]; decide)
  rw [executor, optionalString_of ((hm _).trans rfl), optionalString_of ((hm _).trans rfl),
    optionalString_of ((hm _).trans rfl)]
  rfl

theorem source_written (x : Source) (at_ : Text) :
    source (omitUndefined
      [(txt "repository", x.repository.bind writeText),
        (txt "revision", x.revision.bind writeText), (txt "branch", x.branch.bind writeText)])
      at_ = .ok x := by
  have hm := memberOf_omitUndefined
    [(txt "repository", x.repository.bind writeText), (txt "revision", x.revision.bind writeText),
      (txt "branch", x.branch.bind writeText)] (by simp only [List.map]; decide)
  rw [source, optionalString_of ((hm _).trans rfl), optionalString_of ((hm _).trans rfl),
    optionalString_of ((hm _).trans rfl)]
  rfl

theorem location_written {l l' : Location}
    (h : location (omitUndefined [(txt "file", writeText l.file), (txt "line", l.line.bind writeInt),
      (txt "column", l.column.bind writeInt)]) at_ = .ok l') : l' = l := by
  have hm := memberOf_omitUndefined
    [(txt "file", writeText l.file), (txt "line", l.line.bind writeInt),
      (txt "column", l.column.bind writeInt)] (by simp only [List.map]; decide)
  obtain ⟨file, hfile, h⟩ := bind_eq_ok.mp h
  obtain ⟨line, hline, h⟩ := bind_eq_ok.mp h
  obtain ⟨column, hcolumn, h⟩ := bind_eq_ok.mp h
  cases h
  rw [requiredString_of ((hm _).trans rfl)] at hfile
  rw [← Except.ok.inj hfile, optionalIntegral_written ((hm _).trans rfl) hline,
    optionalIntegral_written ((hm _).trans rfl) hcolumn]

theorem optionalLocation_written {o : Obj} {l l' : Option Location}
    (h : memberOf o (txt "location") = l.bind writeLocation)
    (hl : optionalObject o (txt "location") at_ location = .ok l') : l' = l :=
  optionalObject_written (fun _ => rfl) (fun _ _ _ hb => location_written hb) h hl

theorem failure_written {f f' : Failure} (h : failure (writeFailure f) at_ = .ok f') : f' = f := by
  have hm := memberOf_omitUndefined
    [(txt "message", writeText f.message), (txt "type", f.type.bind writeText),
      (txt "stackTrace", f.stackTrace.bind writeText),
      (txt "phase", f.phase.bind (fun p => writeText p.text)),
      (txt "location", f.location.bind writeLocation)] (by simp only [List.map]; decide)
  obtain ⟨o, ho, h⟩ := bind_eq_ok.mp h
  obtain rfl := (Except.ok.inj ho).symm
  obtain ⟨phaseRaw, hraw, h⟩ := bind_eq_ok.mp h
  obtain ⟨message, hmessage, h⟩ := bind_eq_ok.mp h
  obtain ⟨type, htype, h⟩ := bind_eq_ok.mp h
  obtain ⟨stackTrace, hstack, h⟩ := bind_eq_ok.mp h
  obtain ⟨phase, hphase, h⟩ := bind_eq_ok.mp h
  obtain ⟨location, hlocation, h⟩ := bind_eq_ok.mp h
  cases h
  rw [requiredString_of ((hm _).trans rfl)] at hmessage
  rw [optionalString_of ((hm _).trans rfl)] at htype
  rw [optionalString_of ((hm _).trans rfl)] at hstack
  rw [optionalString_word (hm (txt "phase"))] at hraw
  obtain rfl := Except.ok.inj hraw
  have hphases : phase = f.phase :=
    mapM_word (fun p => oneOf_text (by cases p <;> rfl)) hphase
  rw [← Except.ok.inj hmessage, ← Except.ok.inj htype, ← Except.ok.inj hstack, hphases,
    optionalLocation_written ((hm _).trans rfl) hlocation]

theorem failures_written {o : Obj} {l l' : Option (List Failure)}
    (h : memberOf o (txt "failures") = l.bind writeFailures) (hl : failures o at_ = .ok l') :
    l' = nonEmpty l := by
  rw [failures] at hl
  rcases l with _ | _ | ⟨f, l⟩
  · rw [present_of_memberOf h (by simp)] at hl
    exact (Except.ok.inj hl).symm
  · rw [present_of_memberOf h (by simp [writeFailures])] at hl
    exact (Except.ok.inj hl).symm
  · rw [present_of_memberOf h (by simp [writeFailures])] at hl
    simp only [Option.bind_some, writeFailures] at hl
    cases hm : mapItems failure (child at_ (txt "failures")) ((f :: l).map writeFailure) with
    | error e => rw [hm] at hl; cases hl
    | ok l'' =>
        rw [hm] at hl
        cases hl
        rw [mapItems_written (fun _ _ _ hb => failure_written hb) hm]
        rfl

theorem pathSegments_written {path path' : List PathSegment}
    (h : pathSegments (.arr (path.map (fun s => .obj [(txt "kind", .str s.kind),
      (txt "name", .str s.name)]))) at_ = .ok path') : path' = path :=
  mapItems_written (fun _ _ _ hb => (Except.ok.inj hb).symm) h

theorem testCase_written {t t' : TestCase}
    (h : testCase (omitUndefined [(txt "executionId", writeText t.executionId),
      (txt "historicalId", t.historicalId.bind writeText),
      (txt "historicalIdStability", writeText t.historicalIdStability.text),
      (txt "displayName", writeText t.displayName), (txt "path", writePath t.path),
      (txt "location", t.location.bind writeLocation), (txt "tags", t.tags.bind writeTags),
      (txt "labels", t.labels.bind writeRecord)]) at_ = .ok t') :
    t' = { t with tags := nonEmpty t.tags, labels := nonEmpty t.labels } := by
  have hm := memberOf_omitUndefined [(txt "executionId", writeText t.executionId),
    (txt "historicalId", t.historicalId.bind writeText),
    (txt "historicalIdStability", writeText t.historicalIdStability.text),
    (txt "displayName", writeText t.displayName), (txt "path", writePath t.path),
    (txt "location", t.location.bind writeLocation), (txt "tags", t.tags.bind writeTags),
    (txt "labels", t.labels.bind writeRecord)] (by simp only [List.map]; decide)
  obtain ⟨raw, hraw, h⟩ := bind_eq_ok.mp h
  rw [requiredString_of ((hm _).trans rfl)] at hraw
  obtain rfl := Except.ok.inj hraw
  obtain ⟨stability, hstability, h⟩ := bind_eq_ok.mp h
  rw [oneOf_text (by cases t.historicalIdStability <;> rfl)] at hstability
  obtain rfl := Except.ok.inj hstability
  obtain ⟨historicalId, hid, h⟩ := bind_eq_ok.mp h
  rw [optionalString_of ((hm _).trans rfl)] at hid
  obtain rfl := Except.ok.inj hid
  split_ifs at h
  · cases h
  · cases h
  · obtain ⟨rawPath, hrawPath, h⟩ := bind_eq_ok.mp h
    rw [required_of ((hm _).trans rfl) (by simp)] at hrawPath
    obtain rfl := Except.ok.inj hrawPath
    obtain ⟨path, hpath, h⟩ := bind_eq_ok.mp h
    obtain ⟨executionId, hexecution, h⟩ := bind_eq_ok.mp h
    obtain ⟨displayName, hname, h⟩ := bind_eq_ok.mp h
    obtain ⟨location, hlocation, h⟩ := bind_eq_ok.mp h
    obtain ⟨tags, htags, h⟩ := bind_eq_ok.mp h
    obtain ⟨labels, hlabels, h⟩ := bind_eq_ok.mp h
    cases h
    rw [requiredString_of ((hm _).trans rfl)] at hname
    rw [stringMap_of ((hm _).trans rfl)] at hlabels
    rw [pathSegments_written hpath, identifier_written ((hm _).trans rfl) hexecution,
      ← Except.ok.inj hname, optionalLocation_written ((hm _).trans rfl) hlocation,
      stringList_of ((hm _).trans rfl) htags, ← Except.ok.inj hlabels]

end parts

/-! ### Payloads -/

/-- The payload with its empty collections left out. -/
def Payload.normal : Payload → Payload
  | .sessionStarted p =>
      .sessionStarted { p with environment := nonEmpty p.environment, labels := nonEmpty p.labels }
  | .sessionFinished p => .sessionFinished { p with failures := nonEmpty p.failures }
  | .attemptStarted p => .attemptStarted { p with
      test := { p.test with tags := nonEmpty p.test.tags, labels := nonEmpty p.test.labels } }
  | .attemptFinished p => .attemptFinished { p with failures := nonEmpty p.failures }
  | .stepFinished p => .stepFinished { p with failures := nonEmpty p.failures }
  | p => p

theorem bind_nonEmpty {α β : Type} (write : List α → Option β) (h : write [] = none)
    (l : Option (List α)) : (nonEmpty l).bind write = l.bind write := by
  rcases l with _ | _ | ⟨a, l⟩
  · rfl
  · exact h.symm
  · rfl

theorem writePayload_normal (p : Payload) : writePayload p.normal = writePayload p := by
  have hfailures := bind_nonEmpty writeFailures rfl
  have hrecord := bind_nonEmpty writeRecord rfl
  have htags := bind_nonEmpty writeTags rfl
  cases p with
  | sessionStarted p => simp only [Payload.normal, writePayload, hrecord]
  | sessionFinished p => simp only [Payload.normal, writePayload, hfailures]
  | attemptStarted p => simp only [Payload.normal, writePayload, writeTest, htags, hrecord]
  | attemptFinished p => simp only [Payload.normal, writePayload, hfailures]
  | stepFinished p => simp only [Payload.normal, writePayload, hfailures]
  | runFinished => rfl
  | stepStarted p => rfl
  | attachmentAdded p => rfl
  | scopeFailed p => rfl

section payloads
variable {at_ : Text}

theorem readSessionStarted_written {p p' : SessionStartedPayload}
    (h : readSessionStarted (writePayload (.sessionStarted p)) at_ = .ok p') :
    p' = { p with environment := nonEmpty p.environment, labels := nonEmpty p.labels } := by
  rw [writePayload] at h
  have hm := memberOf_omitUndefined
    [(txt "producer", writeComponent p.producer), (txt "runner", p.runner.bind writeComponent),
      (txt "environment", p.environment.bind writeRecord),
      (txt "executor", p.executor.bind writeExecutor), (txt "source", p.source.bind writeSource),
      (txt "labels", p.labels.bind writeRecord)] (by simp only [List.map]; decide)
  obtain ⟨raw, hraw, h⟩ := bind_eq_ok.mp h
  rw [required_of ((hm _).trans rfl) (by simp)] at hraw
  obtain rfl := Except.ok.inj hraw
  obtain ⟨members, hmembers, h⟩ := bind_eq_ok.mp h
  obtain rfl := Except.ok.inj hmembers
  obtain ⟨producer, hproducer, h⟩ := bind_eq_ok.mp h
  rw [component_written] at hproducer
  obtain rfl := Except.ok.inj hproducer
  obtain ⟨runner, hrunner, h⟩ := bind_eq_ok.mp h
  obtain ⟨environment, henvironment, h⟩ := bind_eq_ok.mp h
  obtain ⟨executor, hexecutor, h⟩ := bind_eq_ok.mp h
  obtain ⟨source, hsource, h⟩ := bind_eq_ok.mp h
  obtain ⟨labels, hlabels, h⟩ := bind_eq_ok.mp h
  cases h
  rw [stringMap_of ((hm _).trans rfl)] at henvironment hlabels
  rw [optionalObject_written (fun _ => rfl)
      (fun c ptr b hb => by rw [component_written] at hb; exact (Except.ok.inj hb).symm)
      (hm (txt "runner")) hrunner,
    optionalObject_written (fun _ => rfl)
      (fun c ptr b hb => by rw [executor_written] at hb; exact (Except.ok.inj hb).symm)
      (hm (txt "executor")) hexecutor,
    optionalObject_written (fun _ => rfl)
      (fun c ptr b hb => by rw [source_written] at hb; exact (Except.ok.inj hb).symm)
      (hm (txt "source")) hsource,
    ← Except.ok.inj henvironment, ← Except.ok.inj hlabels]

theorem readSessionFinished_written {p p' : SessionFinishedPayload}
    (h : readSessionFinished (writePayload (.sessionFinished p)) at_ = .ok p') :
    p' = { p with failures := nonEmpty p.failures } := by
  rw [writePayload] at h
  have hm := memberOf_omitUndefined
    [(txt "status", p.status.bind (fun s => writeText s.text)),
      (txt "rawStatus", p.rawStatus.bind writeText),
      (txt "failures", p.failures.bind writeFailures)] (by simp only [List.map]; decide)
  obtain ⟨raw, hraw, h⟩ := bind_eq_ok.mp h
  rw [optionalString_word (hm (txt "status"))] at hraw
  obtain rfl := Except.ok.inj hraw
  obtain ⟨status, hstatus, h⟩ := bind_eq_ok.mp h
  have hword : ∀ s : SessionStatus, readSessionStatus at_ s.text = .ok s := by
    intro s
    cases s <;> rfl
  obtain rfl := mapM_word hword hstatus
  obtain ⟨rawStatus, hrawStatus, h⟩ := bind_eq_ok.mp h
  rw [optionalString_of ((hm _).trans rfl)] at hrawStatus
  obtain rfl := Except.ok.inj hrawStatus
  obtain ⟨fs, hfs, h⟩ := bind_eq_ok.mp h
  obtain rfl := failures_written ((hm _).trans rfl) hfs
  simp only at h
  split_ifs at h with h1 h2 h3 h4
  all_goals first
    | cases h; done
    | skip
  · obtain rfl := Except.ok.inj h
    rcases hf : p.failures with _ | _ | ⟨f, l⟩
    · rfl
    · rfl
    · rw [hf] at h4
      cases h4
  · obtain rfl := Except.ok.inj h
    rcases hf : p.failures with _ | _ | ⟨f, l⟩
    · rw [hf] at h4
      exact absurd rfl h4
    · rw [hf] at h4
      exact absurd rfl h4
    · rfl

theorem readAttemptStarted_written {p p' : AttemptStartedPayload}
    (h : readAttemptStarted (writePayload (.attemptStarted p)) at_ = .ok p') :
    p' = { p with
      test := { p.test with tags := nonEmpty p.test.tags, labels := nonEmpty p.test.labels } } := by
  rw [writePayload] at h
  have hm := memberOf_omitUndefined
    [(txt "attemptId", writeText p.attemptId), (txt "attemptNumber", writeInt p.attemptNumber),
      (txt "test", writeTest p.test)] (by simp only [List.map]; decide)
  obtain ⟨n, hn, h⟩ := bind_eq_ok.mp h
  rw [integral_of ((hm _).trans rfl)] at hn
  obtain rfl := (asInteger_eq_ok hn).1
  split_ifs at h
  · cases h
  · obtain ⟨raw, hraw, h⟩ := bind_eq_ok.mp h
    rw [required_of ((hm _).trans rfl) (by simp)] at hraw
    obtain rfl := Except.ok.inj hraw
    obtain ⟨members, hmembers, h⟩ := bind_eq_ok.mp h
    obtain rfl := Except.ok.inj hmembers
    obtain ⟨attemptId, hid, h⟩ := bind_eq_ok.mp h
    obtain ⟨test, htest, h⟩ := bind_eq_ok.mp h
    cases h
    rw [identifier_written ((hm _).trans rfl) hid, testCase_written htest, Int.toNat_natCast]

theorem readAttemptFinished_written {p p' : AttemptFinishedPayload}
    (h : readAttemptFinished (writePayload (.attemptFinished p)) at_ = .ok p') :
    p' = { p with failures := nonEmpty p.failures } := by
  rw [writePayload] at h
  have hm := memberOf_omitUndefined
    [(txt "attemptId", writeText p.attemptId), (txt "status", writeText p.status.text),
      (txt "rawStatus", p.rawStatus.bind writeText),
      (txt "expectedStatus", p.expectedStatus.bind (fun s => writeText s.text)),
      (txt "durationMs", p.durationMs.bind writeInt),
      (txt "failures", p.failures.bind writeFailures)] (by simp only [List.map]; decide)
  obtain ⟨expectedRaw, hraw, h⟩ := bind_eq_ok.mp h
  rw [optionalString_word (hm (txt "expectedStatus"))] at hraw
  obtain rfl := Except.ok.inj hraw
  obtain ⟨attemptId, hid, h⟩ := bind_eq_ok.mp h
  obtain ⟨word, hword, h⟩ := bind_eq_ok.mp h
  rw [requiredString_of ((hm _).trans rfl)] at hword
  obtain rfl := Except.ok.inj hword
  obtain ⟨status, hstatus, h⟩ := bind_eq_ok.mp h
  rw [oneOf_text (by cases p.status <;> rfl)] at hstatus
  obtain ⟨rawStatus, hrawStatus, h⟩ := bind_eq_ok.mp h
  rw [optionalString_of ((hm _).trans rfl)] at hrawStatus
  obtain ⟨expectedStatus, hexpected, h⟩ := bind_eq_ok.mp h
  obtain ⟨durationMs, hduration, h⟩ := bind_eq_ok.mp h
  obtain ⟨fs, hfs, h⟩ := bind_eq_ok.mp h
  cases h
  rw [identifier_written ((hm _).trans rfl) hid, ← Except.ok.inj hstatus,
    ← Except.ok.inj hrawStatus, mapM_word (fun s => oneOf_text (by cases s <;> rfl)) hexpected,
    optionalIntegral_written ((hm _).trans rfl) hduration, failures_written ((hm _).trans rfl) hfs]

theorem readStepStarted_written {p p' : StepStartedPayload}
    (h : readStepStarted (writePayload (.stepStarted p)) at_ = .ok p') : p' = p := by
  rw [writePayload] at h
  have hm := memberOf_omitUndefined
    [(txt "stepId", writeText p.stepId), (txt "attemptId", writeText p.attemptId),
      (txt "parentStepId", p.parentStepId.bind writeText), (txt "name", writeText p.name),
      (txt "kind", p.kind.bind writeText), (txt "location", p.location.bind writeLocation)]
    (by simp only [List.map]; decide)
  obtain ⟨stepId, hstep, h⟩ := bind_eq_ok.mp h
  obtain ⟨attemptId, hid, h⟩ := bind_eq_ok.mp h
  obtain ⟨name, hname, h⟩ := bind_eq_ok.mp h
  rw [requiredString_of ((hm _).trans rfl)] at hname
  obtain ⟨parentStepId, hparent, h⟩ := bind_eq_ok.mp h
  obtain ⟨kind, hkind, h⟩ := bind_eq_ok.mp h
  rw [optionalString_of ((hm _).trans rfl)] at hkind
  obtain ⟨location, hlocation, h⟩ := bind_eq_ok.mp h
  cases h
  rw [identifier_written ((hm _).trans rfl) hstep, identifier_written ((hm _).trans rfl) hid,
    optionalIdentifier_written ((hm _).trans rfl) hparent, ← Except.ok.inj hname,
    ← Except.ok.inj hkind, optionalLocation_written ((hm _).trans rfl) hlocation]

theorem readStepFinished_written {p p' : StepFinishedPayload}
    (h : readStepFinished (writePayload (.stepFinished p)) at_ = .ok p') :
    p' = { p with failures := nonEmpty p.failures } := by
  rw [writePayload] at h
  have hm := memberOf_omitUndefined
    [(txt "stepId", writeText p.stepId), (txt "attemptId", writeText p.attemptId),
      (txt "status", writeText p.status.text), (txt "rawStatus", p.rawStatus.bind writeText),
      (txt "durationMs", p.durationMs.bind writeInt),
      (txt "failures", p.failures.bind writeFailures)] (by simp only [List.map]; decide)
  obtain ⟨stepId, hstep, h⟩ := bind_eq_ok.mp h
  obtain ⟨attemptId, hid, h⟩ := bind_eq_ok.mp h
  obtain ⟨word, hword, h⟩ := bind_eq_ok.mp h
  rw [requiredString_of ((hm _).trans rfl)] at hword
  obtain rfl := Except.ok.inj hword
  obtain ⟨status, hstatus, h⟩ := bind_eq_ok.mp h
  rw [oneOf_text (by cases p.status <;> rfl)] at hstatus
  obtain ⟨rawStatus, hrawStatus, h⟩ := bind_eq_ok.mp h
  rw [optionalString_of ((hm _).trans rfl)] at hrawStatus
  obtain ⟨durationMs, hduration, h⟩ := bind_eq_ok.mp h
  obtain ⟨fs, hfs, h⟩ := bind_eq_ok.mp h
  cases h
  rw [identifier_written ((hm _).trans rfl) hstep, identifier_written ((hm _).trans rfl) hid,
    ← Except.ok.inj hstatus, ← Except.ok.inj hrawStatus,
    optionalIntegral_written ((hm _).trans rfl) hduration, failures_written ((hm _).trans rfl) hfs]

theorem readAttachmentAdded_written {p p' : AttachmentAddedPayload}
    (h : readAttachmentAdded (writePayload (.attachmentAdded p)) at_ = .ok p') : p' = p := by
  rw [writePayload] at h
  have hm := memberOf_omitUndefined
    [(txt "attemptId", writeText p.attemptId), (txt "stepId", p.stepId.bind writeText),
      (txt "name", writeText p.name), (txt "mediaType", writeText p.mediaType),
      (txt "sizeBytes", writeInt p.sizeBytes), (txt "sha256", writeText p.sha256)]
    (by simp only [List.map]; decide)
  obtain ⟨attemptId, hid, h⟩ := bind_eq_ok.mp h
  obtain ⟨name, hname, h⟩ := bind_eq_ok.mp h
  rw [requiredString_of ((hm _).trans rfl)] at hname
  obtain ⟨mediaType, hmedia, h⟩ := bind_eq_ok.mp h
  rw [requiredString_of ((hm _).trans rfl)] at hmedia
  obtain ⟨sizeBytes, hsize, h⟩ := bind_eq_ok.mp h
  rw [integral_of ((hm _).trans rfl)] at hsize
  obtain ⟨sha256, hsha, h⟩ := bind_eq_ok.mp h
  rw [requiredString_of ((hm _).trans rfl)] at hsha
  obtain ⟨stepId, hstep, h⟩ := bind_eq_ok.mp h
  cases h
  rw [identifier_written ((hm _).trans rfl) hid, ← Except.ok.inj hname, ← Except.ok.inj hmedia,
    (asInteger_eq_ok hsize).1, ← Except.ok.inj hsha,
    optionalIdentifier_written ((hm _).trans rfl) hstep]

theorem readScopeFailed_written {p p' : ScopeFailedPayload}
    (h : readScopeFailed (writePayload (.scopeFailed p)) at_ = .ok p') : p' = p := by
  rw [writePayload] at h
  have hm := memberOf_omitUndefined
    [(txt "path", writePath p.path), (txt "displayName", p.displayName.bind writeText),
      (txt "rawStatus", p.rawStatus.bind writeText),
      (txt "location", p.location.bind writeLocation), (txt "failures", writeFailures p.failures)]
    (by simp only [List.map]; decide)
  obtain ⟨raw, hraw, h⟩ := bind_eq_ok.mp h
  rw [required_of ((hm _).trans rfl) (by simp)] at hraw
  obtain rfl := Except.ok.inj hraw
  obtain ⟨path, hpath, h⟩ := bind_eq_ok.mp h
  obtain rfl := pathSegments_written hpath
  split_ifs at h
  · cases h
  · obtain ⟨fs, hfs, h⟩ := bind_eq_ok.mp h
    have hfs' : fs = nonEmpty (some p.failures) := failures_written ((hm _).trans rfl) hfs
    split at h
    · cases h
    · cases h
    · rename_i l _
      have hl : l = p.failures := by
        rcases hp : p.failures with _ | ⟨f, l'⟩
        · rw [hp] at hfs'
          cases hfs'
        · rw [hp] at hfs'
          exact Option.some.inj hfs'
      obtain ⟨displayName, hname, h⟩ := bind_eq_ok.mp h
      rw [optionalString_of ((hm _).trans rfl)] at hname
      obtain ⟨rawStatus, hrawStatus, h⟩ := bind_eq_ok.mp h
      rw [optionalString_of ((hm _).trans rfl)] at hrawStatus
      obtain ⟨location, hlocation, h⟩ := bind_eq_ok.mp h
      cases h
      rw [hl, ← Except.ok.inj hname, ← Except.ok.inj hrawStatus,
        optionalLocation_written ((hm _).trans rfl) hlocation]

/-- A payload read from a written object is the one it was written from. -/
theorem readPayload_written {p p' : Payload} (h : readPayload p.eventType (writePayload p) = .ok p') :
    p' = p.normal := by
  have hmap : ∀ {α : Type} {r : Read α} {f : α → Payload}, f <$> r = .ok p' →
      ∃ a, r = .ok a ∧ p' = f a := by
    intro α r f hr
    cases r with
    | error e => cases hr
    | ok a => exact ⟨a, rfl, (Except.ok.inj hr).symm⟩
  cases p with
  | sessionStarted p =>
      obtain ⟨a, ha, rfl⟩ := hmap h
      rw [readSessionStarted_written ha]
      rfl
  | sessionFinished p =>
      obtain ⟨a, ha, rfl⟩ := hmap h
      rw [readSessionFinished_written ha]
      rfl
  | runFinished => exact (Except.ok.inj h).symm
  | attemptStarted p =>
      obtain ⟨a, ha, rfl⟩ := hmap h
      rw [readAttemptStarted_written ha]
      rfl
  | attemptFinished p =>
      obtain ⟨a, ha, rfl⟩ := hmap h
      rw [readAttemptFinished_written ha]
      rfl
  | stepStarted p =>
      obtain ⟨a, ha, rfl⟩ := hmap h
      rw [readStepStarted_written ha]
      rfl
  | stepFinished p =>
      obtain ⟨a, ha, rfl⟩ := hmap h
      rw [readStepFinished_written ha]
      rfl
  | attachmentAdded p =>
      obtain ⟨a, ha, rfl⟩ := hmap h
      rw [readAttachmentAdded_written ha]
      rfl
  | scopeFailed p =>
      obtain ⟨a, ha, rfl⟩ := hmap h
      rw [readScopeFailed_written ha]
      rfl

end payloads

/-! ### Events -/

theorem Payload.eventType_normal (p : Payload) : p.normal.eventType = p.eventType := by
  cases p <;> rfl

theorem knownEventType_text (t : EventType) : knownEventType t.text = some t := by
  cases t <;> rfl

/-- The event with the empty collections of its payload left out. -/
def Event.normal (e : Event) : Event := { e with payload := e.payload.normal }

theorem eventToObject_normal (e : Event) :
    eventToObject (.known e.normal) = eventToObject (.known e) := by
  simp only [eventToObject, AnyEvent.envelope, AnyEvent.eventType, AnyEvent.payloadObject,
    Event.normal, writePayload_normal, Payload.eventType_normal]

/-- The members of a written event. -/
theorem eventToObject_member (e : Event) : ∃ root, eventToObject (.known e) = .obj root ∧
    memberOf root (txt "protocolVersion") = writeText e.protocolVersion ∧
    memberOf root (txt "eventId") = writeText e.eventId ∧
    memberOf root (txt "eventType") = writeText e.payload.eventType.text ∧
    memberOf root (txt "runId") = writeText e.runId ∧
    memberOf root (txt "sessionId") = writeText e.sessionId ∧
    memberOf root (txt "sequence") = writeInt e.sequence ∧
    memberOf root (txt "occurredAt") = writeText e.occurredAt ∧
    memberOf root (txt "ignorable") = e.ignorable.map .bool ∧
    memberOf root (txt "payload") = some (.obj (writePayload e.payload)) := by
  have hm := memberOf_omitUndefined
    [(txt "protocolVersion", writeText e.protocolVersion), (txt "eventId", writeText e.eventId),
      (txt "eventType", writeText e.payload.eventType.text), (txt "runId", writeText e.runId),
      (txt "sessionId", writeText e.sessionId), (txt "sequence", writeInt e.sequence),
      (txt "occurredAt", writeText e.occurredAt), (txt "ignorable", e.ignorable.map .bool),
      (txt "payload", some (.obj (writePayload e.payload)))] (by simp only [List.map]; decide)
  exact ⟨_, rfl, (hm _).trans rfl, (hm _).trans rfl, (hm _).trans rfl, (hm _).trans rfl,
    (hm _).trans rfl, (hm _).trans rfl, (hm _).trans rfl, (hm _).trans rfl, (hm _).trans rfl⟩

theorem readIgnorable_of {root : Obj} {ignorable : Option Bool}
    (h : memberOf root (txt "ignorable") = ignorable.map .bool) :
    readIgnorable root = .ok ignorable := by
  rw [readIgnorable]
  cases ignorable with
  | none => rw [present_of_memberOf h (by simp)]; rfl
  | some b => rw [present_of_memberOf h (by simp)]; rfl

/-- The envelope passes every check of the codec. -/
structure Envelope.Readable (e : Envelope) : Prop where
  version : readVersion e.protocolVersion = .ok ()
  eventId : isIdentifier e.eventId = true
  runId : isIdentifier e.runId = true
  sessionId : isIdentifier e.sessionId = true
  sequence : 1 ≤ e.sequence
  safe : isSafe e.sequence
  occurredAt : isTimestamp e.occurredAt = true

theorem checkIdentifier_of {at_ t : Text} (h : isIdentifier t = true) :
    checkIdentifier at_ t = .ok t := if_pos h

theorem isIdentifier_of_check {at_ s t : Text} (h : checkIdentifier at_ s = .ok t) :
    isIdentifier s = true := by
  unfold checkIdentifier at h
  split_ifs at h with hs
  · exact hs
  · cases h

theorem readEventType_of {root : Obj} {t : EventType}
    (h : memberOf root (txt "eventType") = writeText t.text) : readEventType root = .ok t.text := by
  rw [readEventType, requiredString_of h]
  cases t <;> rfl

theorem readSequence_of {root : Obj} {n : ℕ} (h : memberOf root (txt "sequence") = writeInt n)
    (hpos : 1 ≤ n) (hsafe : isSafe n) : readSequence root = .ok n := by
  rw [readSequence, integral_of h, asInteger_ofInt, if_pos hsafe]
  have hn : ¬ ((n : ℤ) < 1) := by omega
  exact if_neg hn

theorem readOccurredAt_of {root : Obj} {t : Text}
    (h : memberOf root (txt "occurredAt") = writeText t) (ht : isTimestamp t = true) :
    readOccurredAt root = .ok t := by
  rw [readOccurredAt, requiredString_of h]
  exact if_pos ht

/-- The envelope of a written event is read back exactly when it is readable. -/
theorem readEnvelope_written {e : Event} {root : Obj}
    (hroot : eventToObject (.known e) = .obj root) {r : Envelope × Text} :
    readEnvelope root = .ok r ↔
      e.toEnvelope.Readable ∧ r = (e.toEnvelope, e.payload.eventType.text) := by
  obtain ⟨root', hroot', hversion, hid, htype, hrun, hsession, hsequence, htime, hignorable, -⟩ :=
    eventToObject_member e
  obtain rfl := Json.obj.inj (hroot.symm.trans hroot')
  constructor
  · intro henv
    obtain ⟨version, hv, henv⟩ := bind_eq_ok.mp henv
    rw [requiredString_of hversion] at hv
    obtain rfl := Except.ok.inj hv
    obtain ⟨_, hsupported, henv⟩ := bind_eq_ok.mp henv
    obtain ⟨eventType, ht, henv⟩ := bind_eq_ok.mp henv
    rw [readEventType_of htype] at ht
    obtain rfl := Except.ok.inj ht
    obtain ⟨eventId, hi, henv⟩ := bind_eq_ok.mp henv
    obtain ⟨runId, hr, henv⟩ := bind_eq_ok.mp henv
    obtain ⟨sessionId, hs, henv⟩ := bind_eq_ok.mp henv
    obtain ⟨sequence, hq, henv⟩ := bind_eq_ok.mp henv
    obtain ⟨occurredAt, ho, henv⟩ := bind_eq_ok.mp henv
    obtain ⟨ignorable, hg, henv⟩ := bind_eq_ok.mp henv
    rw [identifier_of hid] at hi
    rw [identifier_of hrun] at hr
    rw [identifier_of hsession] at hs
    rw [readIgnorable_of hignorable] at hg
    obtain ⟨i, hint, hq⟩ := bind_eq_ok.mp hq
    rw [integral_of hsequence] at hint
    obtain ⟨rfl, hsafe⟩ := asInteger_eq_ok hint
    have hq' : 1 ≤ e.sequence ∧ e.sequence = sequence := by
      split_ifs at hq
      · cases hq
      · exact ⟨by omega, by rw [← Except.ok.inj hq, Int.toNat_natCast]⟩
    rw [readOccurredAt, requiredString_of htime] at ho
    obtain ⟨t, ht, ho⟩ := bind_eq_ok.mp ho
    obtain rfl := Except.ok.inj ht
    have ho' : isTimestamp e.occurredAt = true ∧ occurredAt = e.occurredAt := by
      split_ifs at ho with h
      · exact ⟨h, (Except.ok.inj ho).symm⟩
      · cases ho
    refine ⟨⟨hsupported, isIdentifier_of_check hi, isIdentifier_of_check hr,
      isIdentifier_of_check hs, hq'.1, hsafe, ho'.1⟩, ?_⟩
    rw [← Except.ok.inj henv, checkIdentifier_eq_ok hi, checkIdentifier_eq_ok hr,
      checkIdentifier_eq_ok hs, ← hq'.2, ho'.2, ← Except.ok.inj hg]
  · rintro ⟨h, rfl⟩
    rw [readEnvelope, requiredString_of hversion, identifier_of hid, identifier_of hrun,
      identifier_of hsession, checkIdentifier_of h.eventId, checkIdentifier_of h.runId,
      checkIdentifier_of h.sessionId, readEventType_of htype,
      readSequence_of hsequence h.sequence h.safe, readOccurredAt_of htime h.occurredAt,
      readIgnorable_of hignorable]
    simp only [bind, Except.bind, h.version]
    rfl

/-- What the codec reads from a written event, and when it reads it. -/
theorem eventFromObject_eq_ok {e : Event} {e' : AnyEvent} :
    eventFromObject (eventToObject (.known e)) = .ok e' ↔ e.toEnvelope.Readable ∧
      readPayload e.payload.eventType (writePayload e.payload) = .ok e.payload.normal ∧
      e' = .known e.normal := by
  obtain ⟨root, hroot, -, -, -, -, -, -, -, -, hpayload⟩ := eventToObject_member e
  rw [hroot]
  constructor
  · intro h
    obtain ⟨⟨envelope, t⟩, henv, h⟩ := bind_eq_ok.mp h
    obtain ⟨hreadable, heq⟩ := (readEnvelope_written hroot).mp henv
    obtain ⟨rfl, rfl⟩ := Prod.mk.inj heq
    simp only [hpayload, knownEventType_text] at h
    cases hp : readPayload e.payload.eventType (writePayload e.payload) with
    | error err =>
        rw [hp] at h
        cases h
    | ok p' =>
        rw [hp] at h
        obtain rfl := readPayload_written hp
        exact ⟨hreadable, rfl, (Except.ok.inj h).symm⟩
  · rintro ⟨hreadable, hp, rfl⟩
    have henv := (readEnvelope_written hroot).mpr ⟨hreadable, rfl⟩
    rw [eventFromObject, henv]
    simp only [bind, Except.bind, hpayload, knownEventType_text, hp]
    rfl

/-- The codec reads its own output as it was. -/
theorem eventFromObject_written {e : Event} {e' : AnyEvent}
    (h : eventFromObject (eventToObject (.known e)) = .ok e') :
    eventFromObject (eventToObject e') = .ok e' := by
  have he := (eventFromObject_eq_ok.mp h).2.2
  rw [he] at h ⊢
  rw [eventToObject_normal, h]

end QeReport

import QeReport.Protocol.Agreement
import QeReport.Protocol.RoundTrip

/-! # Payloads the codec reads

A payload is readable when its identifiers, its numbers and the rules between its fields pass
the checks of the codec (`Payload.Readable`).  The codec reads only readable payloads, and what
it wrote for a readable payload it reads back, with the empty collections left out: an event that
was read once is read again from its own text (`codec_round_trip`). -/

namespace QeReport

/-! ### What the codec checks -/

def SafeInteger (i : Option ℤ) : Prop := ∀ n ∈ i, isSafe n

def Identifier (t : Option Text) : Prop := ∀ s ∈ t, isIdentifier s = true

def Location.Readable (l : Location) : Prop := SafeInteger l.line ∧ SafeInteger l.column

def Failure.Readable (f : Failure) : Prop := ∀ l ∈ f.location, l.Readable

def FailuresReadable (fs : Option (List Failure)) : Prop := ∀ f ∈ fs.getD [], f.Readable

/-- A historical id is there exactly when it is said to be available. -/
structure TestCase.Readable (t : TestCase) : Prop where
  executionId : isIdentifier t.executionId = true
  historicalId : t.historicalId.isNone ↔ t.historicalIdStability = .unavailable
  location : ∀ l ∈ t.location, l.Readable

/-- An outcome without a status says nothing else, and a passed one has no failures. -/
structure SessionFinishedPayload.Readable (p : SessionFinishedPayload) : Prop where
  rawStatus : p.status = none → p.rawStatus = none
  failures : p.status = none ∨ p.status = some .passed → p.failures.getD [] = []
  readable : FailuresReadable p.failures

structure AttemptStartedPayload.Readable (p : AttemptStartedPayload) : Prop where
  attemptId : isIdentifier p.attemptId = true
  attemptNumber : 1 ≤ p.attemptNumber ∧ p.attemptNumber ≤ 1000
  test : p.test.Readable

structure AttemptFinishedPayload.Readable (p : AttemptFinishedPayload) : Prop where
  attemptId : isIdentifier p.attemptId = true
  durationMs : SafeInteger p.durationMs
  failures : FailuresReadable p.failures

structure StepStartedPayload.Readable (p : StepStartedPayload) : Prop where
  stepId : isIdentifier p.stepId = true
  attemptId : isIdentifier p.attemptId = true
  parentStepId : Identifier p.parentStepId
  location : ∀ l ∈ p.location, l.Readable

structure StepFinishedPayload.Readable (p : StepFinishedPayload) : Prop where
  stepId : isIdentifier p.stepId = true
  attemptId : isIdentifier p.attemptId = true
  durationMs : SafeInteger p.durationMs
  failures : FailuresReadable p.failures

structure AttachmentAddedPayload.Readable (p : AttachmentAddedPayload) : Prop where
  attemptId : isIdentifier p.attemptId = true
  stepId : Identifier p.stepId
  sizeBytes : isSafe p.sizeBytes

structure ScopeFailedPayload.Readable (p : ScopeFailedPayload) : Prop where
  path : p.path ≠ []
  location : ∀ l ∈ p.location, l.Readable
  failures : p.failures ≠ []
  readable : FailuresReadable (some p.failures)

/-- The payload passes every check of the codec. -/
def Payload.Readable : Payload → Prop
  | .sessionStarted _ => True
  | .sessionFinished p => p.Readable
  | .runFinished => True
  | .attemptStarted p => p.Readable
  | .attemptFinished p => p.Readable
  | .stepStarted p => p.Readable
  | .stepFinished p => p.Readable
  | .attachmentAdded p => p.Readable
  | .scopeFailed p => p.Readable

/-! ### What was read is readable -/

section reading
variable {o : Obj} {key at_ : Text}

theorem checkIdentifier_readable {s t : Text} (h : checkIdentifier at_ s = .ok t) :
    isIdentifier t = true := by
  have ht : t = s := checkIdentifier_eq_ok h
  rw [ht]
  exact isIdentifier_of_check h

theorem asInteger_readable {v : Json} {i : ℤ} (h : asInteger at_ v = .ok i) : isSafe i := by
  cases v with
  | num n =>
      rw [asInteger] at h
      cases hn : n.safeInteger? with
      | none =>
          rw [hn] at h
          cases h
      | some j =>
          rw [hn] at h
          obtain rfl := Except.ok.inj h
          unfold JsNumber.safeInteger? at hn
          dsimp only at hn
          split_ifs at hn with hsafe
          · cases hn
            exact hsafe.2
  | null => cases h
  | bool b => cases h
  | str s => cases h
  | arr items => cases h
  | obj members => cases h

theorem optionalIntegral_readable {i : Option ℤ} (h : optionalIntegral o key at_ = .ok i) :
    SafeInteger i := by
  unfold optionalIntegral at h
  cases hp : present o key with
  | none =>
      rw [hp] at h
      cases h
      exact nofun
  | some v =>
      rw [hp] at h
      obtain ⟨n, hn, rfl⟩ := map_eq_ok.mp h
      intro m hm
      obtain rfl := Option.mem_some_iff.mp hm
      exact asInteger_readable hn

theorem optionalIdentifier_readable {s : Option Text} (h : optionalIdentifier o key at_ = .ok s) :
    Identifier s := by
  obtain ⟨raw, -, h⟩ := bind_eq_ok.mp h
  cases raw with
  | none =>
      cases h
      exact nofun
  | some t =>
      obtain ⟨u, hu, rfl⟩ := map_eq_ok.mp h
      intro m hm
      obtain rfl := Option.mem_some_iff.mp hm
      exact checkIdentifier_readable hu

theorem optionalObject_readable {α : Type} {P : α → Prop} {read : Obj → Text → Read α}
    (hread : ∀ o ptr a, read o ptr = .ok a → P a) {x : Option α}
    (h : optionalObject o key at_ read = .ok x) : ∀ a ∈ x, P a := by
  unfold optionalObject at h
  cases hp : present o key with
  | none =>
      rw [hp] at h
      cases h
      exact nofun
  | some v =>
      rw [hp] at h
      obtain ⟨o', -, h⟩ := bind_eq_ok.mp h
      obtain ⟨a, ha, rfl⟩ := map_eq_ok.mp h
      intro b hb
      obtain rfl := Option.mem_some_iff.mp hb
      exact hread _ _ _ ha

theorem mapItems_readable {α : Type} {P : α → Prop} {read : Json → Text → Read α}
    (hread : ∀ v ptr a, read v ptr = .ok a → P a) {items : List Json} {l : List α}
    (h : mapItems read at_ items = .ok l) : ∀ a ∈ l, P a := by
  rw [mapItems] at h
  generalize 0 = n at h
  induction items generalizing n l with
  | nil =>
      cases h
      intro b hb
      cases hb
  | cons v items ih =>
      rw [List.zipIdx_cons, List.mapM_cons] at h
      obtain ⟨a, ha, h⟩ := bind_eq_ok.mp h
      obtain ⟨as, has, h⟩ := bind_eq_ok.mp h
      cases h
      intro b hb
      rcases List.mem_cons.mp hb with rfl | hb
      · exact hread _ _ _ ha
      · exact ih (n + 1) has b hb

theorem location_readable {l : Location} (h : location o at_ = .ok l) : l.Readable := by
  obtain ⟨file, -, h⟩ := bind_eq_ok.mp h
  obtain ⟨line, hline, h⟩ := bind_eq_ok.mp h
  obtain ⟨column, hcolumn, h⟩ := bind_eq_ok.mp h
  cases h
  exact ⟨optionalIntegral_readable hline, optionalIntegral_readable hcolumn⟩

theorem failure_readable {v : Json} {f : Failure} (h : failure v at_ = .ok f) : f.Readable := by
  obtain ⟨o, -, h⟩ := bind_eq_ok.mp h
  obtain ⟨phaseRaw, -, h⟩ := bind_eq_ok.mp h
  obtain ⟨message, -, h⟩ := bind_eq_ok.mp h
  obtain ⟨type, -, h⟩ := bind_eq_ok.mp h
  obtain ⟨stackTrace, -, h⟩ := bind_eq_ok.mp h
  obtain ⟨phase, -, h⟩ := bind_eq_ok.mp h
  obtain ⟨location, hlocation, h⟩ := bind_eq_ok.mp h
  cases h
  exact optionalObject_readable (fun _ _ _ => location_readable) hlocation

theorem failures_readable {fs : Option (List Failure)} (h : failures o at_ = .ok fs) :
    FailuresReadable fs := by
  unfold failures at h
  cases hp : present o (txt "failures") with
  | none =>
      rw [hp] at h
      cases h
      exact nofun
  | some v =>
      rw [hp] at h
      cases v with
      | arr items =>
          obtain ⟨l, hl, rfl⟩ := map_eq_ok.mp h
          exact mapItems_readable (fun _ _ _ => failure_readable) hl
      | null => cases h
      | bool b => cases h
      | num n => cases h
      | str s => cases h
      | obj members => cases h

theorem testCase_readable {t : TestCase} (h : testCase o at_ = .ok t) : t.Readable := by
  obtain ⟨raw, -, h⟩ := bind_eq_ok.mp h
  obtain ⟨stability, -, h⟩ := bind_eq_ok.mp h
  obtain ⟨historicalId, -, h⟩ := bind_eq_ok.mp h
  split_ifs at h with hnone hsome
  · cases h
  · cases h
  · obtain ⟨rawPath, -, h⟩ := bind_eq_ok.mp h
    obtain ⟨path, -, h⟩ := bind_eq_ok.mp h
    obtain ⟨executionId, hexecution, h⟩ := bind_eq_ok.mp h
    obtain ⟨displayName, -, h⟩ := bind_eq_ok.mp h
    obtain ⟨location, hlocation, h⟩ := bind_eq_ok.mp h
    obtain ⟨tags, -, h⟩ := bind_eq_ok.mp h
    obtain ⟨labels, -, h⟩ := bind_eq_ok.mp h
    cases h
    refine ⟨(identifier_eq_ok hexecution).2, ⟨fun hid => ?_, fun hs => ?_⟩,
      optionalObject_readable (fun _ _ _ => location_readable) hlocation⟩
    · by_contra hs
      exact hsome ⟨hs, hid⟩
    · cases historicalId with
      | none => rfl
      | some id => exact absurd ⟨hs, rfl⟩ hnone

theorem readSessionFinished_readable {p : SessionFinishedPayload}
    (h : readSessionFinished o at_ = .ok p) : p.Readable := by
  obtain ⟨raw, -, h⟩ := bind_eq_ok.mp h
  obtain ⟨status, -, h⟩ := bind_eq_ok.mp h
  obtain ⟨rawStatus, -, h⟩ := bind_eq_ok.mp h
  obtain ⟨fs, hfs, h⟩ := bind_eq_ok.mp h
  have hreadable := failures_readable hfs
  dsimp only at h
  split at h
  · cases h
  split at h
  · cases h
  split at h
  · cases h
  · rename_i hraw hnone hpassed
    cases h
    have hgetD : (if fs.getD [] = [] then none else some (fs.getD [])).getD [] = fs.getD [] := by
      split_ifs with he
      · exact he.symm
      · rfl
    refine ⟨fun hs => ?_, fun hs => ?_, ?_⟩
    · by_contra hr
      exact hraw ⟨hs, hr⟩
    · change (if fs.getD [] = [] then none else some (fs.getD [])).getD [] = []
      rw [hgetD]
      by_contra hne
      rcases hs with hs | hs
      · exact hnone ⟨hs, hne⟩
      · exact hpassed ⟨hs, hne⟩
    · unfold FailuresReadable
      change ∀ f ∈ (if fs.getD [] = [] then none else some (fs.getD [])).getD [], f.Readable
      rw [hgetD]
      exact hreadable

theorem readAttemptStarted_readable {p : AttemptStartedPayload}
    (h : readAttemptStarted o at_ = .ok p) : p.Readable := by
  obtain ⟨n, -, h⟩ := bind_eq_ok.mp h
  split_ifs at h with hrange
  · cases h
  · obtain ⟨raw, -, h⟩ := bind_eq_ok.mp h
    obtain ⟨test, -, h⟩ := bind_eq_ok.mp h
    obtain ⟨attemptId, hattempt, h⟩ := bind_eq_ok.mp h
    obtain ⟨t, ht, h⟩ := bind_eq_ok.mp h
    cases h
    have hn : 1 ≤ n.toNat ∧ n.toNat ≤ 1000 := by omega
    exact ⟨(identifier_eq_ok hattempt).2, hn, testCase_readable ht⟩

theorem readAttemptFinished_readable {p : AttemptFinishedPayload}
    (h : readAttemptFinished o at_ = .ok p) : p.Readable := by
  obtain ⟨expectedRaw, -, h⟩ := bind_eq_ok.mp h
  obtain ⟨attemptId, hattempt, h⟩ := bind_eq_ok.mp h
  obtain ⟨statusRaw, -, h⟩ := bind_eq_ok.mp h
  obtain ⟨status, -, h⟩ := bind_eq_ok.mp h
  obtain ⟨rawStatus, -, h⟩ := bind_eq_ok.mp h
  obtain ⟨expected, -, h⟩ := bind_eq_ok.mp h
  obtain ⟨durationMs, hduration, h⟩ := bind_eq_ok.mp h
  obtain ⟨fs, hfs, h⟩ := bind_eq_ok.mp h
  cases h
  exact ⟨(identifier_eq_ok hattempt).2, optionalIntegral_readable hduration, failures_readable hfs⟩

theorem readStepStarted_readable {p : StepStartedPayload} (h : readStepStarted o at_ = .ok p) :
    p.Readable := by
  obtain ⟨stepId, hstep, h⟩ := bind_eq_ok.mp h
  obtain ⟨attemptId, hattempt, h⟩ := bind_eq_ok.mp h
  obtain ⟨name, -, h⟩ := bind_eq_ok.mp h
  obtain ⟨parent, hparent, h⟩ := bind_eq_ok.mp h
  obtain ⟨kind, -, h⟩ := bind_eq_ok.mp h
  obtain ⟨location, hlocation, h⟩ := bind_eq_ok.mp h
  cases h
  exact ⟨(identifier_eq_ok hstep).2, (identifier_eq_ok hattempt).2,
    optionalIdentifier_readable hparent,
    optionalObject_readable (fun _ _ _ => location_readable) hlocation⟩

theorem readStepFinished_readable {p : StepFinishedPayload} (h : readStepFinished o at_ = .ok p) :
    p.Readable := by
  obtain ⟨stepId, hstep, h⟩ := bind_eq_ok.mp h
  obtain ⟨attemptId, hattempt, h⟩ := bind_eq_ok.mp h
  obtain ⟨statusRaw, -, h⟩ := bind_eq_ok.mp h
  obtain ⟨status, -, h⟩ := bind_eq_ok.mp h
  obtain ⟨rawStatus, -, h⟩ := bind_eq_ok.mp h
  obtain ⟨durationMs, hduration, h⟩ := bind_eq_ok.mp h
  obtain ⟨fs, hfs, h⟩ := bind_eq_ok.mp h
  cases h
  exact ⟨(identifier_eq_ok hstep).2, (identifier_eq_ok hattempt).2,
    optionalIntegral_readable hduration, failures_readable hfs⟩

theorem readAttachmentAdded_readable {p : AttachmentAddedPayload}
    (h : readAttachmentAdded o at_ = .ok p) : p.Readable := by
  obtain ⟨attemptId, hattempt, h⟩ := bind_eq_ok.mp h
  obtain ⟨name, -, h⟩ := bind_eq_ok.mp h
  obtain ⟨mediaType, -, h⟩ := bind_eq_ok.mp h
  obtain ⟨sizeBytes, hsize, h⟩ := bind_eq_ok.mp h
  obtain ⟨sha256, -, h⟩ := bind_eq_ok.mp h
  obtain ⟨stepId, hstep, h⟩ := bind_eq_ok.mp h
  cases h
  obtain ⟨v, -, hsize⟩ := bind_eq_ok.mp hsize
  exact ⟨(identifier_eq_ok hattempt).2, optionalIdentifier_readable hstep, asInteger_readable hsize⟩

theorem readScopeFailed_readable {p : ScopeFailedPayload} (h : readScopeFailed o at_ = .ok p) :
    p.Readable := by
  obtain ⟨raw, -, h⟩ := bind_eq_ok.mp h
  obtain ⟨path, -, h⟩ := bind_eq_ok.mp h
  split_ifs at h with hpath
  · cases h
  · obtain ⟨fs, hfs, h⟩ := bind_eq_ok.mp h
    split at h
    · cases h
    · cases h
    · rename_i l hne
      obtain ⟨displayName, -, h⟩ := bind_eq_ok.mp h
      obtain ⟨rawStatus, -, h⟩ := bind_eq_ok.mp h
      obtain ⟨location, hlocation, h⟩ := bind_eq_ok.mp h
      cases h
      refine ⟨hpath, optionalObject_readable (fun _ _ _ => location_readable) hlocation, ?_,
        failures_readable hfs⟩
      rintro rfl
      exact hne rfl

/-- The codec reads only readable payloads, each of the type it was asked for. -/
theorem readPayload_readable {t : EventType} {p : Payload} (h : readPayload t o = .ok p) :
    p.Readable ∧ p.eventType = t := by
  cases t with
  | sessionStarted =>
      obtain ⟨a, -, rfl⟩ := map_eq_ok.mp h
      exact ⟨trivial, rfl⟩
  | sessionFinished =>
      obtain ⟨a, ha, rfl⟩ := map_eq_ok.mp h
      exact ⟨readSessionFinished_readable ha, rfl⟩
  | runFinished =>
      cases h
      exact ⟨trivial, rfl⟩
  | attemptStarted =>
      obtain ⟨a, ha, rfl⟩ := map_eq_ok.mp h
      exact ⟨readAttemptStarted_readable ha, rfl⟩
  | attemptFinished =>
      obtain ⟨a, ha, rfl⟩ := map_eq_ok.mp h
      exact ⟨readAttemptFinished_readable ha, rfl⟩
  | stepStarted =>
      obtain ⟨a, ha, rfl⟩ := map_eq_ok.mp h
      exact ⟨readStepStarted_readable ha, rfl⟩
  | stepFinished =>
      obtain ⟨a, ha, rfl⟩ := map_eq_ok.mp h
      exact ⟨readStepFinished_readable ha, rfl⟩
  | attachmentAdded =>
      obtain ⟨a, ha, rfl⟩ := map_eq_ok.mp h
      exact ⟨readAttachmentAdded_readable ha, rfl⟩
  | scopeFailed =>
      obtain ⟨a, ha, rfl⟩ := map_eq_ok.mp h
      exact ⟨readScopeFailed_readable ha, rfl⟩

end reading

/-! ### What is readable is read back -/

section writing
variable {o : Obj} {key at_ : Text}

theorem identifier_back {s : Text} (h : memberOf o key = writeText s) (hs : isIdentifier s = true) :
    identifier o key at_ = .ok s := by
  rw [identifier_of h]
  exact checkIdentifier_of hs

theorem optionalIdentifier_back {s : Option Text} (h : memberOf o key = s.bind writeText)
    (hs : Identifier s) : optionalIdentifier o key at_ = .ok s := by
  rw [optionalIdentifier_of h]
  cases s with
  | none => rfl
  | some t =>
      rw [Option.mapM_some, checkIdentifier_of (hs t rfl)]
      rfl

theorem integral_back {i : ℤ} (h : memberOf o key = writeInt i) (hi : isSafe i) :
    integral o key at_ = .ok i := by
  rw [integral_of h, asInteger_ofInt, if_pos hi]

theorem optionalIntegral_back {i : Option ℤ} (h : memberOf o key = i.bind writeInt)
    (hi : SafeInteger i) : optionalIntegral o key at_ = .ok i := by
  rw [optionalIntegral_of h]
  cases i with
  | none => rfl
  | some n =>
      rw [Option.mapM_some, asInteger_ofInt, if_pos (hi n rfl)]
      rfl

theorem optionalObject_back {α : Type} {read : Obj → Text → Read α} {write : α → Option Json}
    {members : α → Obj} {x : Option α} (h : memberOf o key = x.bind write)
    (hwrite : ∀ a, write a = some (.obj (members a)))
    (hread : ∀ a ∈ x, ∀ ptr, read (members a) ptr = .ok a) :
    optionalObject o key at_ read = .ok x := by
  have hmembers : x.bind write = (x.map members).map .obj := by
    cases x with
    | none => rfl
    | some a => exact hwrite a
  rw [optionalObject_of (h.trans hmembers)]
  cases x with
  | none => rfl
  | some a =>
      rw [Option.map_some, Option.mapM_some, hread a rfl]
      rfl

theorem mapItems_back {α : Type} {read : Json → Text → Read α} {write : α → Json} {l : List α}
    (h : ∀ a ∈ l, ∀ ptr, read (write a) ptr = .ok a) : mapItems read at_ (l.map write) = .ok l := by
  rw [mapItems]
  generalize 0 = n
  induction l generalizing n with
  | nil => rfl
  | cons a l ih =>
      rw [List.map_cons, List.zipIdx_cons, List.mapM_cons]
      dsimp only
      rw [h a (List.mem_cons_self ..), ih (fun b hb => h b (List.mem_cons_of_mem _ hb)) (n + 1)]
      rfl

theorem stringList_back {l : Option (List Text)} (h : memberOf o key = l.bind writeTags) :
    stringList o key at_ = .ok (nonEmpty l) := by
  rw [stringList]
  rcases l with _ | _ | ⟨t, l⟩
  · rw [present_of_memberOf h (by simp)]
    rfl
  · rw [present_of_memberOf h (by simp [writeTags])]
    rfl
  · rw [present_of_memberOf h (by simp [writeTags])]
    simp only [Option.bind_some, writeTags]
    rw [mapItems_back (fun _ _ _ => rfl)]
    rfl

theorem location_back {l : Location} (hl : l.Readable) :
    location (omitUndefined [(txt "file", writeText l.file), (txt "line", l.line.bind writeInt),
      (txt "column", l.column.bind writeInt)]) at_ = .ok l := by
  have hm := memberOf_omitUndefined
    [(txt "file", writeText l.file), (txt "line", l.line.bind writeInt),
      (txt "column", l.column.bind writeInt)] (by simp only [List.map]; decide)
  rw [location, requiredString_of ((hm _).trans rfl), optionalIntegral_back ((hm _).trans rfl) hl.1,
    optionalIntegral_back ((hm _).trans rfl) hl.2]
  rfl

theorem optionalLocation_back {l : Option Location}
    (h : memberOf o (txt "location") = l.bind writeLocation) (hl : ∀ x ∈ l, x.Readable) :
    optionalObject o (txt "location") at_ location = .ok l :=
  optionalObject_back h (fun _ => rfl) (fun a ha _ => location_back (hl a ha))

theorem failure_back {f : Failure} (hf : f.Readable) : failure (writeFailure f) at_ = .ok f := by
  have hm := memberOf_omitUndefined
    [(txt "message", writeText f.message), (txt "type", f.type.bind writeText),
      (txt "stackTrace", f.stackTrace.bind writeText),
      (txt "phase", f.phase.bind (fun p => writeText p.text)),
      (txt "location", f.location.bind writeLocation)] (by simp only [List.map]; decide)
  have hphase : (f.phase.map FailurePhase.text).mapM (fun raw =>
      oneOf raw failurePhases FailurePhase.text (child at_ (txt "phase"))) = .ok f.phase := by
    cases hp : f.phase with
    | none => rfl
    | some p => cases p <;> rfl
  rw [failure, writeFailure, asObject]
  simp only [bind, Except.bind]
  rw [optionalString_word (hm (txt "phase")), requiredString_of ((hm _).trans rfl),
    optionalString_of ((hm _).trans rfl), optionalString_of ((hm _).trans rfl)]
  dsimp only
  rw [hphase, optionalLocation_back ((hm _).trans rfl) hf]
  rfl

theorem failures_back {l : Option (List Failure)}
    (h : memberOf o (txt "failures") = l.bind writeFailures) (hl : FailuresReadable l) :
    failures o at_ = .ok (nonEmpty l) := by
  rw [failures]
  rcases l with _ | _ | ⟨f, l⟩
  · rw [present_of_memberOf h (by simp)]
    rfl
  · rw [present_of_memberOf h (by simp [writeFailures])]
    rfl
  · rw [present_of_memberOf h (by simp [writeFailures])]
    have hitems : mapItems failure (child at_ (txt "failures")) ((f :: l).map writeFailure) =
        .ok (f :: l) := mapItems_back (fun a ha _ => failure_back (hl a ha))
    simp only [Option.bind_some, writeFailures, hitems]
    rfl

theorem testCase_back {t : TestCase} (ht : t.Readable) :
    testCase (omitUndefined [(txt "executionId", writeText t.executionId),
      (txt "historicalId", t.historicalId.bind writeText),
      (txt "historicalIdStability", writeText t.historicalIdStability.text),
      (txt "displayName", writeText t.displayName), (txt "path", writePath t.path),
      (txt "location", t.location.bind writeLocation), (txt "tags", t.tags.bind writeTags),
      (txt "labels", t.labels.bind writeRecord)]) at_ =
    .ok { t with tags := nonEmpty t.tags, labels := nonEmpty t.labels } := by
  have hm := memberOf_omitUndefined [(txt "executionId", writeText t.executionId),
    (txt "historicalId", t.historicalId.bind writeText),
    (txt "historicalIdStability", writeText t.historicalIdStability.text),
    (txt "displayName", writeText t.displayName), (txt "path", writePath t.path),
    (txt "location", t.location.bind writeLocation), (txt "tags", t.tags.bind writeTags),
    (txt "labels", t.labels.bind writeRecord)] (by simp only [List.map]; decide)
  have hnone : ¬ (t.historicalIdStability = .unavailable ∧ t.historicalId.isSome) := by
    rintro ⟨hs, hid⟩
    rw [Option.isNone_iff_eq_none.mp (ht.historicalId.mpr hs)] at hid
    cases hid
  have hsome : ¬ (t.historicalIdStability ≠ .unavailable ∧ t.historicalId.isNone) :=
    fun h => h.1 (ht.historicalId.mp h.2)
  have hpath : ∀ ptr, pathSegments (.arr (t.path.map (fun s => .obj [(txt "kind", .str s.kind),
      (txt "name", .str s.name)]))) ptr = .ok t.path := fun ptr => mapItems_back (fun _ _ _ => rfl)
  rw [testCase, requiredString_of ((hm _).trans rfl), optionalString_of ((hm _).trans rfl)]
  simp only [bind, Except.bind]
  rw [oneOf_text (by cases t.historicalIdStability <;> rfl)]
  dsimp only
  rw [if_neg hnone, if_neg hsome, required_of ((hm _).trans rfl) (by simp)]
  dsimp only
  rw [hpath, identifier_back ((hm _).trans rfl) ht.executionId,
    requiredString_of ((hm _).trans rfl), optionalLocation_back ((hm _).trans rfl) ht.location,
    stringList_back ((hm _).trans rfl), stringMap_of ((hm _).trans rfl)]
  rfl

/-! ### Payloads -/

theorem readSessionStarted_back (p : SessionStartedPayload) :
    readSessionStarted (writePayload (.sessionStarted p)) at_ =
      .ok { p with environment := nonEmpty p.environment, labels := nonEmpty p.labels } := by
  have hm := memberOf_omitUndefined
    [(txt "producer", writeComponent p.producer), (txt "runner", p.runner.bind writeComponent),
      (txt "environment", p.environment.bind writeRecord),
      (txt "executor", p.executor.bind writeExecutor), (txt "source", p.source.bind writeSource),
      (txt "labels", p.labels.bind writeRecord)] (by simp only [List.map]; decide)
  rw [writePayload, readSessionStarted, required_of ((hm _).trans rfl) (by simp)]
  simp only [bind, Except.bind, asObject]
  rw [component_written,
    optionalObject_back (hm (txt "runner")) (fun _ => rfl) (fun c _ => component_written c),
    optionalObject_back (hm (txt "executor")) (fun _ => rfl) (fun x _ => executor_written x),
    optionalObject_back (hm (txt "source")) (fun _ => rfl) (fun x _ => source_written x),
    stringMap_of ((hm _).trans rfl), stringMap_of ((hm _).trans rfl)]
  rfl

theorem readSessionFinished_back {p : SessionFinishedPayload} (hp : p.Readable) :
    readSessionFinished (writePayload (.sessionFinished p)) at_ =
      .ok { p with failures := nonEmpty p.failures } := by
  have hm := memberOf_omitUndefined
    [(txt "status", p.status.bind (fun s => writeText s.text)),
      (txt "rawStatus", p.rawStatus.bind writeText),
      (txt "failures", p.failures.bind writeFailures)] (by simp only [List.map]; decide)
  have hword : (p.status.map SessionStatus.text).mapM (readSessionStatus at_) = .ok p.status := by
    cases hs : p.status with
    | none => rfl
    | some s => cases s <;> rfl
  have hempty : (nonEmpty p.failures).getD [] = p.failures.getD [] := by
    rcases p.failures with _ | _ | ⟨f, l⟩ <;> rfl
  have hdrop : (if p.failures.getD [] = [] then none else some (p.failures.getD [])) =
      nonEmpty p.failures := by
    rcases p.failures with _ | _ | ⟨f, l⟩ <;> rfl
  have hraw : ¬ (p.status = none ∧ p.rawStatus ≠ none) := fun h => h.2 (hp.rawStatus h.1)
  have hnone : ¬ (p.status = none ∧ p.failures.getD [] ≠ []) :=
    fun h => h.2 (hp.failures (.inl h.1))
  have hpassed : ¬ (p.status = some .passed ∧ p.failures.getD [] ≠ []) :=
    fun h => h.2 (hp.failures (.inr h.1))
  rw [writePayload, readSessionFinished, optionalString_word (hm (txt "status"))]
  simp only [bind, Except.bind]
  rw [hword, optionalString_of ((hm _).trans rfl), failures_back ((hm _).trans rfl) hp.readable]
  dsimp only
  rw [hempty, if_neg hraw, if_neg hnone, if_neg hpassed, hdrop]
  rfl

theorem readAttemptStarted_back {p : AttemptStartedPayload} (hp : p.Readable) :
    readAttemptStarted (writePayload (.attemptStarted p)) at_ = .ok { p with
      test := { p.test with tags := nonEmpty p.test.tags, labels := nonEmpty p.test.labels } } := by
  have hm := memberOf_omitUndefined
    [(txt "attemptId", writeText p.attemptId), (txt "attemptNumber", writeInt p.attemptNumber),
      (txt "test", writeTest p.test)] (by simp only [List.map]; decide)
  obtain ⟨hid, hnumber, htest⟩ := hp
  have hsafe : isSafe (p.attemptNumber : ℤ) := by
    unfold isSafe
    omega
  have hrange : ¬ ((p.attemptNumber : ℤ) < 1 ∨ (p.attemptNumber : ℤ) > 1000) := by omega
  rw [writePayload, readAttemptStarted, integral_back ((hm _).trans rfl) hsafe]
  simp only [bind, Except.bind]
  rw [if_neg hrange, required_of ((hm _).trans rfl) (by simp)]
  dsimp only [asObject]
  rw [identifier_back ((hm _).trans rfl) hid, testCase_back htest, Int.toNat_natCast]
  rfl

theorem readAttemptFinished_back {p : AttemptFinishedPayload} (hp : p.Readable) :
    readAttemptFinished (writePayload (.attemptFinished p)) at_ =
      .ok { p with failures := nonEmpty p.failures } := by
  have hm := memberOf_omitUndefined
    [(txt "attemptId", writeText p.attemptId), (txt "status", writeText p.status.text),
      (txt "rawStatus", p.rawStatus.bind writeText),
      (txt "expectedStatus", p.expectedStatus.bind (fun s => writeText s.text)),
      (txt "durationMs", p.durationMs.bind writeInt),
      (txt "failures", p.failures.bind writeFailures)] (by simp only [List.map]; decide)
  have hexpected : (p.expectedStatus.map ExpectedStatus.text).mapM (fun raw =>
      oneOf raw expectedStatuses ExpectedStatus.text (child at_ (txt "expectedStatus"))) =
        .ok p.expectedStatus := by
    cases hs : p.expectedStatus with
    | none => rfl
    | some s => cases s <;> rfl
  rw [writePayload, readAttemptFinished, optionalString_word (hm (txt "expectedStatus")),
    identifier_back ((hm _).trans rfl) hp.attemptId, requiredString_of ((hm _).trans rfl)]
  simp only [bind, Except.bind]
  rw [oneOf_text (by cases p.status <;> rfl), optionalString_of ((hm _).trans rfl), hexpected,
    optionalIntegral_back ((hm _).trans rfl) hp.durationMs,
    failures_back ((hm _).trans rfl) hp.failures]
  rfl

theorem readStepStarted_back {p : StepStartedPayload} (hp : p.Readable) :
    readStepStarted (writePayload (.stepStarted p)) at_ = .ok p := by
  have hm := memberOf_omitUndefined
    [(txt "stepId", writeText p.stepId), (txt "attemptId", writeText p.attemptId),
      (txt "parentStepId", p.parentStepId.bind writeText), (txt "name", writeText p.name),
      (txt "kind", p.kind.bind writeText), (txt "location", p.location.bind writeLocation)]
    (by simp only [List.map]; decide)
  rw [writePayload, readStepStarted, identifier_back ((hm _).trans rfl) hp.stepId,
    identifier_back ((hm _).trans rfl) hp.attemptId, requiredString_of ((hm _).trans rfl),
    optionalIdentifier_back ((hm _).trans rfl) hp.parentStepId,
    optionalString_of ((hm _).trans rfl), optionalLocation_back ((hm _).trans rfl) hp.location]
  rfl

theorem readStepFinished_back {p : StepFinishedPayload} (hp : p.Readable) :
    readStepFinished (writePayload (.stepFinished p)) at_ =
      .ok { p with failures := nonEmpty p.failures } := by
  have hm := memberOf_omitUndefined
    [(txt "stepId", writeText p.stepId), (txt "attemptId", writeText p.attemptId),
      (txt "status", writeText p.status.text), (txt "rawStatus", p.rawStatus.bind writeText),
      (txt "durationMs", p.durationMs.bind writeInt),
      (txt "failures", p.failures.bind writeFailures)] (by simp only [List.map]; decide)
  rw [writePayload, readStepFinished, identifier_back ((hm _).trans rfl) hp.stepId,
    identifier_back ((hm _).trans rfl) hp.attemptId, requiredString_of ((hm _).trans rfl)]
  simp only [bind, Except.bind]
  rw [oneOf_text (by cases p.status <;> rfl), optionalString_of ((hm _).trans rfl),
    optionalIntegral_back ((hm _).trans rfl) hp.durationMs,
    failures_back ((hm _).trans rfl) hp.failures]
  rfl

theorem readAttachmentAdded_back {p : AttachmentAddedPayload} (hp : p.Readable) :
    readAttachmentAdded (writePayload (.attachmentAdded p)) at_ = .ok p := by
  have hm := memberOf_omitUndefined
    [(txt "attemptId", writeText p.attemptId), (txt "stepId", p.stepId.bind writeText),
      (txt "name", writeText p.name), (txt "mediaType", writeText p.mediaType),
      (txt "sizeBytes", writeInt p.sizeBytes), (txt "sha256", writeText p.sha256)]
    (by simp only [List.map]; decide)
  rw [writePayload, readAttachmentAdded, identifier_back ((hm _).trans rfl) hp.attemptId,
    requiredString_of ((hm _).trans rfl), requiredString_of ((hm _).trans rfl),
    integral_back ((hm _).trans rfl) hp.sizeBytes, requiredString_of ((hm _).trans rfl),
    optionalIdentifier_back ((hm _).trans rfl) hp.stepId]
  rfl

theorem readScopeFailed_back {p : ScopeFailedPayload} (hp : p.Readable) :
    readScopeFailed (writePayload (.scopeFailed p)) at_ = .ok p := by
  have hm := memberOf_omitUndefined
    [(txt "path", writePath p.path), (txt "displayName", p.displayName.bind writeText),
      (txt "rawStatus", p.rawStatus.bind writeText),
      (txt "location", p.location.bind writeLocation), (txt "failures", writeFailures p.failures)]
    (by simp only [List.map]; decide)
  have hpath : ∀ ptr, pathSegments (.arr (p.path.map (fun s => .obj [(txt "kind", .str s.kind),
      (txt "name", .str s.name)]))) ptr = .ok p.path := fun ptr => mapItems_back (fun _ _ _ => rfl)
  have hfs : failures (writePayload (.scopeFailed p)) at_ = .ok (nonEmpty (some p.failures)) := by
    rw [writePayload]
    exact failures_back ((hm _).trans rfl) hp.readable
  have hsome : nonEmpty (some p.failures) = some p.failures := by
    cases hl : p.failures with
    | nil => exact absurd hl hp.failures
    | cons f l => rfl
  rw [readScopeFailed, hfs, hsome, writePayload, required_of ((hm _).trans rfl) (by simp)]
  simp only [bind, Except.bind]
  rw [hpath]
  dsimp only
  rw [if_neg hp.path]
  split
  · rename_i he
    cases he
  · rename_i he
    exact absurd (Option.some.inj he) hp.failures
  · rename_i fs _ he
    obtain rfl := Option.some.inj he
    rw [optionalString_of ((hm _).trans rfl), optionalString_of ((hm _).trans rfl),
      optionalLocation_back ((hm _).trans rfl) hp.location]
    rfl

/-- What was written for a readable payload is read as the payload, its empty collections left
out. -/
theorem readPayload_back {p : Payload} (hp : p.Readable) :
    readPayload p.eventType (writePayload p) = .ok p.normal := by
  cases p with
  | sessionStarted p => exact map_eq_ok.mpr ⟨_, readSessionStarted_back p, rfl⟩
  | sessionFinished p => exact map_eq_ok.mpr ⟨_, readSessionFinished_back hp, rfl⟩
  | runFinished => rfl
  | attemptStarted p => exact map_eq_ok.mpr ⟨_, readAttemptStarted_back hp, rfl⟩
  | attemptFinished p => exact map_eq_ok.mpr ⟨_, readAttemptFinished_back hp, rfl⟩
  | stepStarted p => exact map_eq_ok.mpr ⟨_, readStepStarted_back hp, rfl⟩
  | stepFinished p => exact map_eq_ok.mpr ⟨_, readStepFinished_back hp, rfl⟩
  | attachmentAdded p => exact map_eq_ok.mpr ⟨_, readAttachmentAdded_back hp, rfl⟩
  | scopeFailed p => exact map_eq_ok.mpr ⟨_, readScopeFailed_back hp, rfl⟩

end writing

/-! ### Maps -/

section maps
variable {o : Obj} {key at_ : Text}

/-- The member is the map, entry for entry, whatever the keys are. -/
def SameEntries (o : Obj) (key : Text) (r : Option Record) : Prop :=
  present o key = r.map (fun r => .obj (r.map (fun m => (m.1, .str m.2))))

/-- The maps of the payload are those of the object. -/
def MapsKept (o : Obj) : Payload → Prop
  | .sessionStarted p =>
      SameEntries o (txt "environment") p.environment ∧ SameEntries o (txt "labels") p.labels
  | .attemptStarted p => ∃ test, memberOf o (txt "test") = some (.obj test) ∧
      SameEntries test (txt "labels") p.test.labels
  | _ => True

theorem mapM_record_eq_ok {members : Obj} {r : Record}
    (h : members.mapM (fun (k, v) => (fun s => (k, s)) <$> asString (child at_ k) v) = .ok r) :
    members = r.map (fun m => (m.1, .str m.2)) := by
  induction members generalizing r with
  | nil =>
      cases h
      rfl
  | cons m members ih =>
      obtain ⟨k, v⟩ := m
      rw [List.mapM_cons] at h
      obtain ⟨a, ha, h⟩ := bind_eq_ok.mp h
      obtain ⟨as, has, h⟩ := bind_eq_ok.mp h
      cases h
      obtain ⟨s, hs, rfl⟩ := map_eq_ok.mp ha
      have hv : v = .str s := by
        cases v with
        | str t => rw [Except.ok.inj hs]
        | null => cases hs
        | bool b => cases hs
        | num n => cases hs
        | arr items => cases hs
        | obj members => cases hs
      rw [List.map_cons, ← ih has, hv]

theorem stringMap_eq_ok {r : Option Record} (h : stringMap o key at_ = .ok r) :
    SameEntries o key r := by
  unfold stringMap at h
  unfold SameEntries
  cases hp : present o key with
  | none =>
      rw [hp] at h
      cases h
      rfl
  | some v =>
      rw [hp] at h
      cases v with
      | obj members =>
          obtain ⟨r', hr, rfl⟩ := map_eq_ok.mp h
          rw [mapM_record_eq_ok hr]
          rfl
      | null => cases h
      | bool b => cases h
      | num n => cases h
      | str s => cases h
      | arr items => cases h

theorem testCase_labels {t : TestCase} (h : testCase o at_ = .ok t) :
    SameEntries o (txt "labels") t.labels := by
  obtain ⟨raw, -, h⟩ := bind_eq_ok.mp h
  obtain ⟨stability, -, h⟩ := bind_eq_ok.mp h
  obtain ⟨historicalId, -, h⟩ := bind_eq_ok.mp h
  split_ifs at h with hnone hsome
  · cases h
  · cases h
  · obtain ⟨rawPath, -, h⟩ := bind_eq_ok.mp h
    obtain ⟨path, -, h⟩ := bind_eq_ok.mp h
    obtain ⟨executionId, -, h⟩ := bind_eq_ok.mp h
    obtain ⟨displayName, -, h⟩ := bind_eq_ok.mp h
    obtain ⟨location, -, h⟩ := bind_eq_ok.mp h
    obtain ⟨tags, -, h⟩ := bind_eq_ok.mp h
    obtain ⟨labels, hlabels, h⟩ := bind_eq_ok.mp h
    cases h
    exact stringMap_eq_ok hlabels

/-- Every entry of a map is read, and nothing else. -/
theorem readPayload_maps {t : EventType} {p : Payload} (h : readPayload t o = .ok p) :
    MapsKept o p := by
  cases t with
  | sessionStarted =>
      obtain ⟨a, ha, rfl⟩ := map_eq_ok.mp h
      clear h
      obtain ⟨raw, -, h⟩ := bind_eq_ok.mp ha
      obtain ⟨members, -, h⟩ := bind_eq_ok.mp h
      obtain ⟨producer, -, h⟩ := bind_eq_ok.mp h
      obtain ⟨runner, -, h⟩ := bind_eq_ok.mp h
      obtain ⟨environment, henvironment, h⟩ := bind_eq_ok.mp h
      obtain ⟨executor, -, h⟩ := bind_eq_ok.mp h
      obtain ⟨source, -, h⟩ := bind_eq_ok.mp h
      obtain ⟨labels, hlabels, h⟩ := bind_eq_ok.mp h
      cases h
      exact ⟨stringMap_eq_ok henvironment, stringMap_eq_ok hlabels⟩
  | attemptStarted =>
      obtain ⟨a, ha, rfl⟩ := map_eq_ok.mp h
      clear h
      obtain ⟨n, -, h⟩ := bind_eq_ok.mp ha
      split_ifs at h with hrange
      · cases h
      · obtain ⟨raw, hraw, h⟩ := bind_eq_ok.mp h
        obtain ⟨test, htest, h⟩ := bind_eq_ok.mp h
        obtain ⟨attemptId, -, h⟩ := bind_eq_ok.mp h
        obtain ⟨t, ht, h⟩ := bind_eq_ok.mp h
        cases h
        refine ⟨test, ?_, testCase_labels ht⟩
        rw [required_eq_ok hraw]
        cases raw with
        | obj members => rw [Except.ok.inj htest]
        | null => cases htest
        | bool b => cases htest
        | num n => cases htest
        | str s => cases htest
        | arr items => cases htest
  | runFinished =>
      cases h
      trivial
  | sessionFinished | attemptFinished | stepStarted | stepFinished | attachmentAdded | scopeFailed =>
      obtain ⟨a, -, rfl⟩ := map_eq_ok.mp h
      trivial

end maps

/-! ### Events -/

/-- The event with the empty collections of its payload left out. -/
def AnyEvent.normal : AnyEvent → AnyEvent
  | .known e => .known e.normal
  | .unknown e => .unknown e

theorem stringifyEvent_normal (e : AnyEvent) : stringifyEvent e.normal = stringifyEvent e := by
  cases e with
  | known e => exact congrArg jsonText (eventToObject_normal e)
  | unknown e => rfl

/-- What the codec read passes its checks again. -/
theorem readEnvelope_readable {root : Obj} {envelope : Envelope} {t : Text}
    (h : readEnvelope root = .ok (envelope, t)) :
    envelope.Readable ∧ isEventTypeName t = true := by
  obtain ⟨version, -, h⟩ := bind_eq_ok.mp h
  obtain ⟨_, hversion, h⟩ := bind_eq_ok.mp h
  obtain ⟨eventType, ht, h⟩ := bind_eq_ok.mp h
  obtain ⟨eventId, hi, h⟩ := bind_eq_ok.mp h
  obtain ⟨runId, hr, h⟩ := bind_eq_ok.mp h
  obtain ⟨sessionId, hs, h⟩ := bind_eq_ok.mp h
  obtain ⟨sequence, hq, h⟩ := bind_eq_ok.mp h
  obtain ⟨occurredAt, ho, h⟩ := bind_eq_ok.mp h
  obtain ⟨ignorable, -, h⟩ := bind_eq_ok.mp h
  cases h
  obtain ⟨hone, x, -, hx⟩ := readSequence_eq_ok hq
  obtain ⟨i, hint, -⟩ := bind_eq_ok.mp hq
  obtain ⟨raw, -, ht⟩ := bind_eq_ok.mp ht
  obtain ⟨time, -, ho⟩ := bind_eq_ok.mp ho
  have hname : isEventTypeName t = true := by
    split_ifs at ht with hn
    · rwa [← Except.ok.inj ht]
    · cases ht
  have htime : isTimestamp occurredAt = true := by
    split_ifs at ho with hn
    · rwa [← Except.ok.inj ho]
    · cases ho
  have hsafe : isSafe (sequence : ℤ) := by
    have hread : asInteger [] (.num x) = .ok (sequence : ℤ) := by rw [asInteger, hx]
    exact asInteger_readable hread
  exact ⟨⟨hversion, (identifier_eq_ok hi).2, (identifier_eq_ok hr).2, (identifier_eq_ok hs).2, hone,
    hsafe, htime⟩, hname⟩

theorem readEventType_back {root : Obj} {t : Text}
    (h : memberOf root (txt "eventType") = writeText t) (ht : isEventTypeName t = true) :
    readEventType root = .ok t := by
  rw [readEventType, requiredString_of h]
  exact if_pos ht

/-- The envelope of a written event of any type is read back. -/
theorem readEnvelope_back {e : AnyEvent} (h : e.envelope.Readable)
    (ht : isEventTypeName e.eventType = true) : ∃ root, eventToObject e = .obj root ∧
      readEnvelope root = .ok (e.envelope, e.eventType) ∧
      memberOf root (txt "payload") = some (.obj e.payloadObject) := by
  have hm := memberOf_omitUndefined
    [(txt "protocolVersion", writeText e.envelope.protocolVersion),
      (txt "eventId", writeText e.envelope.eventId), (txt "eventType", writeText e.eventType),
      (txt "runId", writeText e.envelope.runId), (txt "sessionId", writeText e.envelope.sessionId),
      (txt "sequence", writeInt e.envelope.sequence),
      (txt "occurredAt", writeText e.envelope.occurredAt),
      (txt "ignorable", e.envelope.ignorable.map .bool),
      (txt "payload", some (.obj e.payloadObject))] (by simp only [List.map]; decide)
  refine ⟨_, rfl, ?_, (hm _).trans rfl⟩
  rw [readEnvelope, requiredString_of ((hm _).trans rfl)]
  simp only [bind, Except.bind, h.version]
  rw [readEventType_back ((hm _).trans rfl) ht, identifier_back ((hm _).trans rfl) h.eventId,
    identifier_back ((hm _).trans rfl) h.runId,
    identifier_back ((hm _).trans rfl) h.sessionId,
    readSequence_of ((hm _).trans rfl) h.sequence h.safe,
    readOccurredAt_of ((hm _).trans rfl) h.occurredAt, readIgnorable_of ((hm _).trans rfl)]
  rfl

/-- The two ways in which the codec reads an event. -/
theorem eventFromObject_cases {v : Json} {e : AnyEvent} (h : eventFromObject v = .ok e) :
    ∃ root payload, v = .obj root ∧ memberOf root (txt "payload") = some (.obj payload) ∧
      e.envelope.Readable ∧ isEventTypeName e.eventType = true ∧
      ((∃ k, e = .known k ∧ readPayload k.payload.eventType payload = .ok k.payload) ∨
        ∃ u, e = .unknown u ∧ u.payload = payload ∧ knownEventType u.eventType = none ∧
          u.ignorable = some true) := by
  cases v with
  | obj root =>
      obtain ⟨⟨envelope, t⟩, henv, h⟩ := bind_eq_ok.mp h
      obtain ⟨hreadable, hname⟩ := readEnvelope_readable henv
      simp only at h
      split at h
      · rename_i payload hpayload
        refine ⟨root, payload, rfl, hpayload, ?_⟩
        split at h
        · rename_i t' ht'
          obtain ⟨p, hp, rfl⟩ := map_eq_ok.mp h
          obtain rfl := (readPayload_readable hp).2
          refine ⟨hreadable, ?_, .inl ⟨_, rfl, hp⟩⟩
          have htext : p.eventType.text = t := by
            have := List.find?_some ht'
            rwa [decide_eq_true_eq] at this
          change isEventTypeName p.eventType.text = true
          rwa [htext]
        · rename_i hnone
          split_ifs at h with hig
          · cases h
            exact ⟨hreadable, hname, .inr ⟨_, rfl, rfl, hnone, hig⟩⟩
      · cases h
  | null => cases h
  | bool b => cases h
  | num n => cases h
  | str s => cases h
  | arr items => cases h

/-- The codec reads back what it wrote for an event it read. -/
theorem eventFromObject_back {v : Json} {e : AnyEvent} (h : eventFromObject v = .ok e) :
    eventFromObject (eventToObject e) = .ok e.normal := by
  obtain ⟨-, payload, -, -, hreadable, hname, hcase⟩ := eventFromObject_cases h
  rcases hcase with ⟨k, rfl, hp⟩ | ⟨u, rfl, -, hnone, hig⟩
  · exact eventFromObject_eq_ok.mpr
      ⟨hreadable, readPayload_back (readPayload_readable hp).1, rfl⟩
  · obtain ⟨root, hroot, henv, hpayload⟩ := readEnvelope_back hreadable hname
    have hnone' : knownEventType (AnyEvent.unknown u).eventType = none := hnone
    have hig' : (AnyEvent.unknown u).envelope.ignorable = some true := hig
    rw [hroot, eventFromObject, henv]
    simp only [bind, Except.bind, hpayload, hnone', hig', if_true]
    rfl

/-- An event that was read is read again from its text, with its empty collections left out, and
that event has the same text; the maps keep every entry, and an event of an unknown type its
payload. -/
theorem codec_round_trip {parse : Text → Except Text Json} {v : Json} {e : AnyEvent}
    (hv : eventFromObject v = .ok e)
    (hparse : ∀ w, parseJson (stringifyEvent e) = some w → parse (stringifyEvent e) = .ok w) :
    parseEvent parse (stringifyEvent e) = .ok e.normal ∧
    stringifyEvent e.normal = stringifyEvent e ∧
    ∃ root payload, v = .obj root ∧ memberOf root (txt "payload") = some (.obj payload) ∧
      ((∃ k, e = .known k ∧ MapsKept payload k.payload ∧
          MapsKept (writePayload k.payload) k.payload.normal) ∨
        ∃ u, e = .unknown u ∧ e.normal = .unknown u ∧ u.payload = payload) := by
  refine ⟨?_, stringifyEvent_normal e, ?_⟩
  · rw [parseEvent, hparse (eventToObject e) (parseJson_jsonText _)]
    exact eventFromObject_back hv
  · obtain ⟨root, payload, hroot, hpayload, -, -, hcase⟩ := eventFromObject_cases hv
    refine ⟨root, payload, hroot, hpayload, ?_⟩
    rcases hcase with ⟨k, rfl, hp⟩ | ⟨u, rfl, hu, -, -⟩
    · exact .inl ⟨k, rfl, readPayload_maps hp,
        readPayload_maps (readPayload_back (readPayload_readable hp).1)⟩
    · exact .inr ⟨u, rfl, rfl, hu⟩

namespace Sample

/-- A session that declares an environment with the key `__proto__`, and no labels. -/
def protoMembers : Obj :=
  [(txt "protocolVersion", .str (txt "0.3.0")), (txt "eventType", .str (txt "session.started")),
    (txt "eventId", .str (txt "e1")), (txt "runId", .str (txt "r1")),
    (txt "sessionId", .str (txt "s1")), (txt "sequence", .num (.ofInt 1)),
    (txt "occurredAt", .str (txt "2024-01-01T00:00:00Z")),
    (txt "payload", .obj [(txt "labels", .obj []),
      (txt "environment", .obj [(txt "__proto__", .str (txt "x"))]),
      (txt "producer", .obj [(txt "name", .str (txt "p"))])])]

/-- The event that is read of it. -/
def protoEvent : Event where
  protocolVersion := txt "0.3.0"
  eventId := txt "e1"
  runId := txt "r1"
  sessionId := txt "s1"
  sequence := 1
  occurredAt := txt "2024-01-01T00:00:00Z"
  ignorable := none
  payload := .sessionStarted
    ⟨⟨txt "p", none⟩, none, some [(txt "__proto__", txt "x")], none, none, some []⟩

/-- The known event of a reading. -/
def knownOf : Read AnyEvent → Option Event
  | .ok (.known e) => some e
  | _ => none

theorem knownOf_eq_some {r : Read AnyEvent} {e : Event} (h : knownOf r = some e) :
    r = .ok (.known e) := by
  unfold knownOf at h
  split at h
  · rw [Option.some.inj h]
  · cases h

end Sample

theorem codec_round_trip_proto :
    parseEvent Sample.readTree (stringifyEvent (.known Sample.protoEvent)) =
      .ok (.known Sample.protoEvent.normal) ∧
    stringifyEvent (.known Sample.protoEvent.normal) = stringifyEvent (.known Sample.protoEvent) := by
  have hv : eventFromObject (.obj Sample.protoMembers) = .ok (.known Sample.protoEvent) :=
    Sample.knownOf_eq_some (by decide)
  have hparse : ∀ w, parseJson (stringifyEvent (.known Sample.protoEvent)) = some w →
      Sample.readTree (stringifyEvent (.known Sample.protoEvent)) = .ok w := by
    intro w hw
    rw [Sample.readTree, hw]
    rfl
  have h := codec_round_trip hv hparse
  exact ⟨h.1, h.2.1⟩

end QeReport

import QeReport.Protocol.Scanner

/-! # The TypeScript codec is a scan

The codec reads the value `JSON.parse` returns, in which the numbers of the text are doubles
(`asDoubles`); what it reads is what the scan of the text reads with the integers these doubles
are (`readPayload_scan`, `readEnvelope_scan`). -/

namespace QeReport

/-! ### The tree of a text as it is parsed -/

theorem asDoublesItems_eq (items : List Json) : asDoublesItems items = items.map asDoubles := by
  induction items with
  | nil => rfl
  | cons v items ih => rw [asDoublesItems, ih, List.map_cons]

theorem asDoublesMembers_eq (ms : List (Text × Json)) :
    asDoublesMembers ms = ms.map (fun m => (m.1, asDoubles m.2)) := by
  induction ms with
  | nil => rfl
  | cons m ms ih => rw [asDoublesMembers, ih, List.map_cons]

theorem memberOf_asDoubles (o : Obj) (field : Text) :
    memberOf (asDoublesMembers o) field = (memberOf o field).map asDoubles := by
  induction o with
  | nil => rfl
  | cons m o ih =>
      obtain ⟨k, v⟩ := m
      rw [asDoublesMembers]
      simp only [memberOf, List.find?_cons] at ih ⊢
      by_cases h : k = field <;> simp [h, ih]

theorem present_asDoubles (o : Obj) (field : Text) :
    present (asDoublesMembers o) field = (present o field).map asDoubles := by
  unfold present
  rw [memberOf_asDoubles]
  cases memberOf o field with
  | none => rfl
  | some v => cases v <;> rfl

/-! ### The codec of the TypeScript binding -/

section typescript
variable {α : Type} {o : Obj} {field at_ : Text}

/-- What the numbers of a text are to `JSON.parse`. -/
abbrev parsed : IntField → Option ℤ := answers JsNumber.parsed?

theorem text?_asDoubles (v : Json) : text? (asDoubles v) = text? v := by
  cases v <;> rfl

theorem toOption_asString (v : Json) : (asString at_ v).toOption = text? v := by
  cases v <;> rfl

theorem requiredString_req? :
    (requiredString (asDoublesMembers o) field at_).toOption = req? o field text? := by
  unfold requiredString required req?
  rw [toOption_bind, present_asDoubles]
  cases present o field with
  | none => rfl
  | some v => exact (toOption_asString _).trans (text?_asDoubles v)

theorem optionalString_opt? :
    (optionalString (asDoublesMembers o) field at_).toOption = opt? o field text? := by
  unfold optionalString opt?
  rw [present_asDoubles]
  cases present o field with
  | none => rfl
  | some v =>
      dsimp only [Option.map_some]
      rw [toOption_map, toOption_asString, text?_asDoubles]

theorem toOption_checkIdentifier (s : Text) :
    (checkIdentifier at_ s).toOption = (some s).filter isIdentifier := by
  unfold checkIdentifier
  cases h : isIdentifier s with
  | false => simp [Option.filter, h, toOption_invalid]
  | true => simp [Option.filter, h, toOption_ok]

theorem identifier_req? :
    (identifier (asDoublesMembers o) field at_).toOption = req? o field identifier? := by
  unfold identifier
  rw [toOption_bind, requiredString_req?]
  unfold req? identifier?
  cases present o field with
  | none => rfl
  | some v =>
      cases h : text? v with
      | none => simp [h]
      | some s => simp [h, toOption_checkIdentifier]

theorem optionalIdentifier_opt? :
    (optionalIdentifier (asDoublesMembers o) field at_).toOption = opt? o field identifier? := by
  unfold optionalIdentifier
  rw [toOption_bind, optionalString_opt?]
  unfold opt? identifier?
  cases present o field with
  | none => rfl
  | some v =>
      cases h : text? v with
      | none => simp [h]
      | some s => simp [h, toOption_map, toOption_checkIdentifier]

theorem toOption_asInteger (v : Json) :
    (asInteger at_ (asDoubles v)).toOption = (scanInt .any v).run parsed := by
  cases v with
  | num n =>
      change (asInteger at_ (.num n.asDouble)).toOption = _
      rw [scanInt, Scan.run_ask, asInteger, n.safeInteger?_asDouble]
      change _ = n.parsed?.filter (fun _ => true)
      cases n.parsed? <;> rfl
  | _ => rfl

theorem integral_req : (integral (asDoublesMembers o) field at_).toOption =
    (req o field (scanInt .any)).run parsed := by
  unfold integral required req
  rw [toOption_bind, present_asDoubles]
  cases present o field with
  | none => rfl
  | some v => exact toOption_asInteger v

theorem optionalIntegral_opt : (optionalIntegral (asDoublesMembers o) field at_).toOption =
    (opt o field (scanInt .any)).run parsed := by
  unfold optionalIntegral opt
  rw [present_asDoubles]
  cases present o field with
  | none => rfl
  | some v =>
      dsimp only [Option.map_some]
      rw [toOption_map, toOption_asInteger, Scan.run_map]

theorem optionalObject_opt {read : Obj → Text → Read α} {scan : Obj → Scanner α}
    (h : ∀ o at_, (read (asDoublesMembers o) at_).toOption = (scan o).run parsed) :
    (optionalObject (asDoublesMembers o) field at_ read).toOption =
      (opt o field (scanObject scan)).run parsed := by
  unfold optionalObject opt
  rw [present_asDoubles]
  cases present o field with
  | none => rfl
  | some v =>
      cases v with
      | obj members =>
          change (some <$> read (asDoublesMembers members) _).toOption = _
          rw [toOption_map, h, Scan.run_map]
          rfl
      | _ => rfl

theorem optionalObject_opt? {read : Obj → Text → Read α} {read? : Obj → Option α}
    (h : ∀ o at_, (read (asDoublesMembers o) at_).toOption = read? o) :
    (optionalObject (asDoublesMembers o) field at_ read).toOption =
      opt? o field (object? read?) := by
  unfold optionalObject opt?
  rw [present_asDoubles]
  cases present o field with
  | none => rfl
  | some v =>
      cases v with
      | obj members =>
          change (some <$> read (asDoublesMembers members) _).toOption = _
          rw [toOption_map, h]
          rfl
      | _ => rfl

theorem stringMap_opt? :
    (stringMap (asDoublesMembers o) field at_).toOption = opt? o field record? := by
  unfold stringMap opt?
  rw [present_asDoubles]
  cases present o field with
  | none => rfl
  | some v =>
      cases v with
      | obj members =>
          simp only [Option.map_some, asDoubles]
          rw [toOption_map, toOption_mapM, asDoublesMembers_eq, List.mapM_map, record?]
          congr 2
          funext m
          simp only [toOption_map, toOption_asString, text?_asDoubles, Function.comp]
      | _ => rfl

theorem stringList_opt? :
    (stringList (asDoublesMembers o) field at_).toOption = opt? o field texts? := by
  unfold stringList opt?
  rw [present_asDoubles]
  cases present o field with
  | none => rfl
  | some v =>
      cases v with
      | arr items =>
          change (some <$> mapItems _ _ (asDoublesItems items)).toOption = _
          rw [toOption_map, asDoublesItems_eq, toOption_mapItems (fun v _ =>
            (toOption_asString _).trans (text?_asDoubles v))]
          rfl
      | _ => rfl

/-- `oneOf` of a text that is there. -/
theorem toOption_oneOf (values : List α) (text : α → Text) (raw : Text) :
    (oneOf raw values text at_).toOption = values.find? (fun a => text a = raw) := by
  unfold oneOf
  cases values.find? (fun a => decide (text a = raw)) <;> rfl

theorem component_component? : (component (asDoublesMembers o) at_).toOption = component? o := by
  unfold component component?
  simp only [toOption_bind, requiredString_req?, optionalString_opt?, toOption_pure]
  generalize req? o (txt "name") text? = a
  generalize opt? o (txt "version") text? = b
  cases a <;> cases b <;> rfl

theorem executor_executor? : (executor (asDoublesMembers o) at_).toOption = executor? o := by
  unfold executor executor?
  simp only [toOption_bind, optionalString_opt?, toOption_pure]
  generalize opt? o (txt "name") text? = a
  generalize opt? o (txt "buildId") text? = b
  generalize opt? o (txt "buildUrl") text? = c
  cases a <;> cases b <;> cases c <;> rfl

theorem source_source? : (source (asDoublesMembers o) at_).toOption = source? o := by
  unfold source source?
  simp only [toOption_bind, optionalString_opt?, toOption_pure]
  generalize opt? o (txt "repository") text? = a
  generalize opt? o (txt "revision") text? = b
  generalize opt? o (txt "branch") text? = c
  cases a <;> cases b <;> cases c <;> rfl

theorem location_scan : (location (asDoublesMembers o) at_).toOption = (scanLocation o).run parsed := by
  unfold location scanLocation
  simp only [toOption_bind, requiredString_req?, optionalIntegral_opt, toOption_pure, Scan.run_seq,
    Scan.run_map, Scan.run_lift]
  generalize req? o (txt "file") text? = a
  generalize (opt o (txt "line") (scanInt .any)).run parsed = b
  generalize (opt o (txt "column") (scanInt .any)).run parsed = c
  cases a <;> cases b <;> cases c <;> rfl

theorem failure_scan (v : Json) :
    (failure (asDoubles v) at_).toOption = (scanObject scanFailure v).run parsed := by
  cases v with
  | obj o =>
      change (failure (.obj (asDoublesMembers o)) at_).toOption = (scanFailure o).run parsed
      unfold failure scanFailure asObject
      simp only [toOption_bind, toOption_ok, Option.bind_some, requiredString_req?,
        optionalString_opt?, toOption_optionMapM, toOption_oneOf, toOption_pure,
        optionalObject_opt (fun o at_ => location_scan), Scan.run_seq, Scan.run_map, Scan.run_lift,
        ← opt?_word]
      generalize req? o (txt "message") text? = a
      generalize opt? o (txt "type") text? = b
      generalize opt? o (txt "stackTrace") text? = c
      generalize opt? o (txt "phase") text? = d
      generalize (opt o (txt "location") (scanObject scanLocation)).run parsed = e
      rcases d with _ | _ | raw
      · cases a <;> cases b <;> cases c <;> rfl
      · cases a <;> cases b <;> cases c <;> cases e <;> rfl
      · generalize hw : failurePhases.find? (fun p => decide (p.text = raw)) = w
        have hmap : (some raw).mapM (fun raw => failurePhases.find? (fun p => decide (p.text = raw))) =
            w.map some := by
          rw [← hw]
          rfl
        simp only [Option.bind_some, hmap]
        cases a <;> cases b <;> cases c <;> cases w <;> cases e <;> rfl
  | _ => rfl

theorem toOption_mapItems_scan {read : Json → Text → Read α} {scan : Json → Scanner α}
    (h : ∀ v ptr, (read (asDoubles v) ptr).toOption = (scan v).run parsed) (items : List Json) :
    (mapItems read at_ (asDoublesItems items)).toOption = (Scan.list scan items).run parsed := by
  rw [asDoublesItems_eq, toOption_mapItems h, Scan.run_list]

theorem failures_scan : (failures (asDoublesMembers o) at_).toOption =
    (opt o (txt "failures") (scanItems (scanObject scanFailure))).run parsed := by
  unfold failures opt
  rw [present_asDoubles]
  cases present o (txt "failures") with
  | none => rfl
  | some v =>
      cases v with
      | arr items =>
          simp only [Option.map_some, asDoubles]
          rw [toOption_map, toOption_mapItems_scan (fun v _ => failure_scan v), Scan.run_map]
          rfl
      | _ => rfl

theorem scanFailures_run (at_ : Text) : (scanFailures o).run parsed =
    ((failures (asDoublesMembers o) at_).toOption).map (fun fs => fs.getD []) := by
  rw [scanFailures, Scan.run_map, failures_scan]

theorem failures_nil (at_ : Text) (fs : Option (List Failure))
    (h : (failures (asDoublesMembers o) at_).toOption = some fs) :
    fs.getD [] = [] ↔ hasItems o (txt "failures") = false := by
  refine scanFailures_nil JsNumber.parsed? ?_
  rw [scanFailures_run at_, h]
  rfl

theorem pathSegments_path? (v : Json) :
    (pathSegments (asDoubles v) at_).toOption = path? v := by
  have hsegment : ∀ v ptr, (pathSegment (asDoubles v) ptr).toOption = object? segment? v := by
    intro v ptr
    cases v with
    | obj o =>
        change (pathSegment (.obj (asDoublesMembers o)) ptr).toOption = segment? o
        unfold pathSegment segment? asObject
        simp only [toOption_bind, toOption_ok, Option.bind_some, requiredString_req?, toOption_pure]
        generalize req? o (txt "kind") text? = a
        generalize req? o (txt "name") text? = b
        cases a <;> cases b <;> rfl
    | _ => rfl
  cases v with
  | arr items =>
      simp only [asDoubles, pathSegments, path?]
      rw [asDoublesItems_eq, toOption_mapItems hsegment]
  | _ => rfl

theorem toOption_required : (required (asDoublesMembers o) field at_).toOption =
    (present o field).map asDoubles := by
  unfold required
  rw [present_asDoubles]
  cases present o field <;> rfl

/-- A required member that is read further. -/
theorem required_req? {k : Json → Read α} {read? : Json → Option α}
    (h : ∀ v, (k (asDoubles v)).toOption = read? v) :
    (required (asDoublesMembers o) field at_ >>= k).toOption = req? o field read? := by
  unfold required req?
  rw [toOption_bind, present_asDoubles]
  cases present o field with
  | none => rfl
  | some v => exact h v

theorem required_req {k : Json → Read α} {scan : Json → Scanner α}
    (h : ∀ v, (k (asDoubles v)).toOption = (scan v).run parsed) :
    (required (asDoublesMembers o) field at_ >>= k).toOption = (req o field scan).run parsed := by
  unfold required req
  rw [toOption_bind, present_asDoubles]
  cases present o field with
  | none => rfl
  | some v => exact h v

/-- What follows the identity of a test. -/
theorem testCase_rest {f : List PathSegment → Text → Text → Option Location → Option (List Text) →
    Option Record → TestCase} :
    (do
      let path ← pathSegments (← required (asDoublesMembers o) (txt "path") at_)
        (child at_ (txt "path"))
      let executionId ← identifier (asDoublesMembers o) (txt "executionId") at_
      let displayName ← requiredString (asDoublesMembers o) (txt "displayName") at_
      let location ← optionalObject (asDoublesMembers o) (txt "location") at_ location
      let tags ← stringList (asDoublesMembers o) (txt "tags") at_
      let labels ← stringMap (asDoublesMembers o) (txt "labels") at_
      return f path executionId displayName location tags labels : Read TestCase).toOption =
    (fun executionId displayName path location tags labels =>
      f path executionId displayName location tags labels) <$>
      req? o (txt "executionId") identifier? <*> req? o (txt "displayName") text? <*>
      req? o (txt "path") path? <*>
      (opt o (txt "location") (scanObject scanLocation)).run parsed <*>
      opt? o (txt "tags") texts? <*> opt? o (txt "labels") record? := by
  have hpath : (required (asDoublesMembers o) (txt "path") at_ >>= fun v =>
      pathSegments v (child at_ (txt "path"))).toOption = req? o (txt "path") path? :=
    required_req? (fun v => pathSegments_path? v)
  rw [← bind_assoc, toOption_bind, hpath]
  simp only [toOption_bind, identifier_req?, requiredString_req?, toOption_pure,
    optionalObject_opt (fun o at_ => location_scan), stringList_opt?, stringMap_opt?]
  generalize req? o (txt "path") path? = a
  generalize req? o (txt "executionId") identifier? = b
  generalize req? o (txt "displayName") text? = c
  generalize (opt o (txt "location") (scanObject scanLocation)).run parsed = d
  generalize opt? o (txt "tags") texts? = e
  generalize opt? o (txt "labels") record? = g
  cases a <;> cases b <;> cases c <;> cases d <;> cases e <;> cases g <;> rfl

theorem testCase_scan : (testCase (asDoublesMembers o) at_).toOption.map TestCase.normal =
    (scanTest o).run parsed := by
  unfold testCase scanTest identity?
  simp only [Scan.run_seq, Scan.run_map, Scan.run_lift, ← req?_word]
  rw [toOption_bind, requiredString_req?]
  generalize req? o (txt "historicalIdStability") text? = raw
  cases raw with
  | none => rfl
  | some raw =>
      simp only [Option.bind_some, toOption_bind, toOption_oneOf, optionalString_opt?]
      generalize historicalIdStabilities.find? (fun a => decide (a.text = raw)) = stability
      generalize opt? o (txt "historicalId") text? = historicalId
      rcases stability with _ | stability
      · rfl
      · rcases historicalId with _ | historicalId
        · rfl
        · simp only [Option.bind_some, toOption_ite]
          rw [testCase_rest]
          generalize req? o (txt "path") path? = a
          generalize req? o (txt "executionId") identifier? = b
          generalize req? o (txt "displayName") text? = c
          generalize (opt o (txt "location") (scanObject scanLocation)).run parsed = d
          generalize opt? o (txt "tags") texts? = e
          generalize opt? o (txt "labels") record? = g
          cases stability <;> cases historicalId <;> try rfl
          all_goals cases a <;> cases b <;> cases c <;> cases d <;> cases e <;> cases g <;> rfl

/-- A required object that is read before the rest. -/
theorem required_object {β : Type} {read : Obj → Text → Read α} {read? : Obj → Option α}
    (h : ∀ o at_, (read (asDoublesMembers o) at_).toOption = read? o) (ptr : Text)
    (k : α → Read β) :
    (do
      let v ← required (asDoublesMembers o) field at_
      let v ← asObject ptr v
      let a ← read v ptr
      k a).toOption = (req? o field (object? read?)).bind (fun a => (k a).toOption) := by
  unfold required req?
  rw [toOption_bind, present_asDoubles]
  cases present o field with
  | none => rfl
  | some v =>
      cases v with
      | obj o =>
          change (read (asDoublesMembers o) ptr >>= k).toOption = _
          rw [toOption_bind, h]
          rfl
      | _ => rfl

theorem readSessionStarted_scan :
    ((readSessionStarted (asDoublesMembers o) at_).toOption.map Payload.sessionStarted).map
      Payload.normal = (scanPayload o .sessionStarted).run parsed := by
  unfold readSessionStarted scanPayload
  rw [required_object (fun o at_ => component_component?)]
  simp only [toOption_bind, toOption_pure, stringMap_opt?,
    optionalObject_opt? (fun o at_ => component_component?),
    optionalObject_opt? (fun o at_ => executor_executor?),
    optionalObject_opt? (fun o at_ => source_source?), Scan.run_seq, Scan.run_map, Scan.run_lift]
  generalize req? o (txt "producer") (object? component?) = a
  generalize opt? o (txt "runner") (object? component?) = b
  generalize opt? o (txt "environment") record? = c
  generalize opt? o (txt "executor") (object? executor?) = d
  generalize opt? o (txt "source") (object? source?) = e
  generalize opt? o (txt "labels") record? = g
  cases a <;> cases b <;> cases c <;> cases d <;> cases e <;> cases g <;> rfl

theorem readSessionStatus_opt? :
    ((optionalString (asDoublesMembers o) (txt "status") at_) >>= fun raw =>
      raw.mapM (readSessionStatus at_)).toOption =
      opt? o (txt "status") (word? sessionStatuses SessionStatus.text) := by
  have hread : ∀ raw, (readSessionStatus at_ raw).toOption =
      sessionStatuses.find? (fun s => s.text = raw) := by
    intro raw
    unfold readSessionStatus
    cases sessionStatuses.find? (fun s => decide (s.text = raw)) <;> rfl
  rw [toOption_bind, optionalString_opt?, ← opt?_word]
  simp only [toOption_optionMapM, hread]

theorem readSessionFinished_scan :
    ((readSessionFinished (asDoublesMembers o) at_).toOption.map Payload.sessionFinished).map
      Payload.normal = (scanPayload o .sessionFinished).run parsed := by
  have hfailures := scanFailures_run (o := o) at_
  have hnil := failures_nil (o := o) at_
  unfold readSessionFinished scanPayload outcome?
  rw [← bind_assoc, toOption_bind, readSessionStatus_opt?]
  simp only [toOption_bind, optionalString_opt?, Scan.run_seq, Scan.run_map, Scan.run_lift,
    hfailures]
  generalize opt? o (txt "status") (word? sessionStatuses SessionStatus.text) = a
  generalize opt? o (txt "rawStatus") text? = b
  generalize (failures (asDoublesMembers o) at_).toOption = c at hnil
  rcases a with _ | status
  · rfl
  rcases b with _ | rawStatus
  · rfl
  rcases c with _ | fs
  · exact (seq_none _).symm
  have hitems := hnil fs rfl
  simp only [Option.bind_some, Option.map_some]
  generalize fs.getD [] = l at hitems
  cases hh : hasItems o (txt "failures") with
  | false =>
      obtain rfl := hitems.mpr hh
      rcases status with _ | _ | _ | _ <;> rcases rawStatus with _ | _ <;> rfl
  | true =>
      obtain ⟨f, l, rfl⟩ := List.exists_cons_of_ne_nil (fun h => by
        rw [hitems.mp h] at hh
        cases hh)
      rcases status with _ | _ | _ | _ <;> rcases rawStatus with _ | _ <;> rfl

theorem readAttemptStarted_scan :
    ((readAttemptStarted (asDoublesMembers o) at_).toOption.map Payload.attemptStarted).map
      Payload.normal = (scanPayload o .attemptStarted).run parsed := by
  unfold readAttemptStarted scanPayload
  simp only [toOption_bind, toOption_ite, toOption_invalid, toOption_required, integral_req,
    identifier_req?, Scan.run_seq, Scan.run_map, Scan.run_lift, req_scanInt .attempt]
  generalize (req o (txt "attemptNumber") (scanInt .any)).run parsed = a
  generalize req? o (txt "attemptId") identifier? = b
  rcases a with _ | n
  · rfl
  by_cases hn : n < 1 ∨ n > 1000
  · have hout : IntRange.attempt.admits n = false := by
      simp only [IntRange.admits, Bool.and_eq_false_iff, decide_eq_false_iff_not]
      omega
    rw [filter_admits_neg hout]
    simp only [Option.bind_some, if_pos hn]
    rfl
  · have hin : IntRange.attempt.admits n = true := by
      simp only [IntRange.admits, Bool.and_eq_true, decide_eq_true_eq]
      omega
    rw [filter_admits hin]
    simp only [Option.bind_some, if_neg hn]
    unfold req
    cases present o (txt "test") with
    | none => cases b <;> rfl
    | some v =>
        cases v with
        | obj test =>
            simp only [Option.map_some, Option.bind_some, asDoubles, asObject, toOption_ok, scanObject]
            rw [← testCase_scan]
            generalize (testCase (asDoublesMembers test) _).toOption = c
            cases b <;> cases c <;> rfl
        | _ => cases b <;> rfl

theorem readAttemptFinished_scan :
    ((readAttemptFinished (asDoublesMembers o) at_).toOption.map Payload.attemptFinished).map
      Payload.normal = (scanPayload o .attemptFinished).run parsed := by
  unfold readAttemptFinished scanPayload
  simp only [toOption_bind, toOption_pure, identifier_req?, requiredString_req?, optionalString_opt?,
    toOption_oneOf, toOption_optionMapM, optionalIntegral_opt, Scan.run_seq, Scan.run_map,
    Scan.run_lift, scanFailures_run at_, ← req?_word, ← opt?_word]
  generalize opt? o (txt "expectedStatus") text? = a
  generalize req? o (txt "attemptId") identifier? = b
  generalize req? o (txt "status") text? = c
  generalize opt? o (txt "rawStatus") text? = d
  generalize (opt o (txt "durationMs") (scanInt .any)).run parsed = e
  generalize (failures (asDoublesMembers o) at_).toOption = g
  rcases c with _ | status
  · cases a <;> cases b <;> rfl
  simp only [Option.bind_some]
  generalize statuses.find? (fun s => decide (s.text = status)) = c
  rcases a with _ | expected
  · cases b <;> cases c <;> cases d <;> rfl
  have hexpected : ∃ w, (expected.mapM fun raw =>
      expectedStatuses.find? (fun s => decide (s.text = raw))) = w := ⟨_, rfl⟩
  obtain ⟨w, hw⟩ := hexpected
  simp only [Option.bind_some, hw]
  cases b <;> cases c <;> cases d <;> cases w <;> cases e <;> rcases g with _ | _ | _ | _ <;> rfl

theorem readStepStarted_scan :
    ((readStepStarted (asDoublesMembers o) at_).toOption.map Payload.stepStarted).map
      Payload.normal = (scanPayload o .stepStarted).run parsed := by
  unfold readStepStarted scanPayload
  simp only [toOption_bind, toOption_pure, identifier_req?, requiredString_req?, optionalString_opt?,
    optionalIdentifier_opt?, optionalObject_opt (fun o at_ => location_scan), Scan.run_seq,
    Scan.run_map, Scan.run_lift]
  generalize req? o (txt "stepId") identifier? = a
  generalize req? o (txt "attemptId") identifier? = b
  generalize opt? o (txt "parentStepId") identifier? = c
  generalize req? o (txt "name") text? = d
  generalize opt? o (txt "kind") text? = e
  generalize (opt o (txt "location") (scanObject scanLocation)).run parsed = g
  cases a <;> cases b <;> cases c <;> cases d <;> cases e <;> cases g <;> rfl

theorem readStepFinished_scan :
    ((readStepFinished (asDoublesMembers o) at_).toOption.map Payload.stepFinished).map
      Payload.normal = (scanPayload o .stepFinished).run parsed := by
  unfold readStepFinished scanPayload
  simp only [toOption_bind, toOption_pure, identifier_req?, requiredString_req?, optionalString_opt?,
    toOption_oneOf, optionalIntegral_opt, Scan.run_seq, Scan.run_map, Scan.run_lift,
    scanFailures_run at_, ← req?_word]
  generalize req? o (txt "stepId") identifier? = a
  generalize req? o (txt "attemptId") identifier? = b
  generalize req? o (txt "status") text? = c
  generalize opt? o (txt "rawStatus") text? = d
  generalize (opt o (txt "durationMs") (scanInt .any)).run parsed = e
  generalize (failures (asDoublesMembers o) at_).toOption = g
  rcases c with _ | status
  · cases a <;> cases b <;> rfl
  simp only [Option.bind_some]
  generalize statuses.find? (fun s => decide (s.text = status)) = c
  cases a <;> cases b <;> cases c <;> cases d <;> cases e <;> rcases g with _ | _ | _ | _ <;> rfl

theorem readAttachmentAdded_scan :
    ((readAttachmentAdded (asDoublesMembers o) at_).toOption.map Payload.attachmentAdded).map
      Payload.normal = (scanPayload o .attachmentAdded).run parsed := by
  unfold readAttachmentAdded scanPayload
  simp only [toOption_bind, toOption_pure, identifier_req?, requiredString_req?,
    optionalIdentifier_opt?, integral_req, Scan.run_seq, Scan.run_map, Scan.run_lift]
  generalize req? o (txt "attemptId") identifier? = a
  generalize opt? o (txt "stepId") identifier? = b
  generalize req? o (txt "name") text? = c
  generalize req? o (txt "mediaType") text? = d
  generalize (req o (txt "sizeBytes") (scanInt .any)).run parsed = e
  generalize req? o (txt "sha256") text? = g
  cases a <;> cases b <;> cases c <;> cases d <;> cases e <;> cases g <;> rfl

theorem readScopeFailed_scan :
    ((readScopeFailed (asDoublesMembers o) at_).toOption.map Payload.scopeFailed).map
      Payload.normal = (scanPayload o .scopeFailed).run parsed := by
  have hpath : (required (asDoublesMembers o) (txt "path") at_ >>= fun v =>
      pathSegments v (child at_ (txt "path"))).toOption = req? o (txt "path") path? :=
    required_req? (fun v => pathSegments_path? v)
  have hfailures := scanFailures_run (o := o) at_
  have hnil := failures_nil (o := o) at_
  unfold readScopeFailed scanPayload
  rw [← bind_assoc, toOption_bind, hpath]
  dsimp only
  cases hp : req? o (txt "path") path? with
  | none =>
      split_ifs
      · simp only [Scan.run_seq, Scan.run_map, Scan.run_lift]
        rfl
      · rfl
  | some path =>
      have hempty := req?_path_nil hp
      rw [Option.bind_some, toOption_ite]
      cases hitems : hasItems o (txt "path") with
      | false =>
          rw [if_pos (hempty.mpr hitems)]
          rfl
      | true =>
          rw [if_neg (fun h => by rw [hempty.mp h] at hitems; cases hitems), toOption_bind]
          simp only [Bool.true_and]
          cases hfs : (failures (asDoublesMembers o) at_).toOption with
          | none =>
              split_ifs
              · simp only [Scan.run_seq, hfailures, hfs, Option.map_none, seq_none]
                rfl
              · rfl
          | some fs =>
              have hfsnil := hnil fs hfs
              cases hh : hasItems o (txt "failures") with
              | false =>
                  have := hfsnil.mpr hh
                  rcases fs with _ | _ | ⟨f, fs⟩
                  · rfl
                  · rfl
                  · cases this
              | true =>
                  rcases fs with _ | _ | ⟨f, fs⟩
                  · rw [hfsnil.mp rfl] at hh
                    cases hh
                  · rw [hfsnil.mp rfl] at hh
                    cases hh
                  · simp only [if_true, Option.bind_some, toOption_bind, optionalString_opt?,
                      toOption_pure, optionalObject_opt (fun o at_ => location_scan), Scan.run_seq,
                      Scan.run_map, Scan.run_lift, hfailures, hfs]
                    generalize opt? o (txt "displayName") text? = a
                    generalize opt? o (txt "rawStatus") text? = b
                    generalize (opt o (txt "location") (scanObject scanLocation)).run parsed = c
                    cases a <;> cases b <;> cases c <;> rfl

/-- The codec reads a payload as the scan does. -/
theorem readPayload_scan (t : EventType) :
    (readPayload t (asDoublesMembers o)).toOption.map Payload.normal =
      (scanPayload o t).run parsed := by
  cases t with
  | sessionStarted => exact (congrArg _ (toOption_map _ _)).trans readSessionStarted_scan
  | sessionFinished => exact (congrArg _ (toOption_map _ _)).trans readSessionFinished_scan
  | runFinished => rfl
  | attemptStarted => exact (congrArg _ (toOption_map _ _)).trans readAttemptStarted_scan
  | attemptFinished => exact (congrArg _ (toOption_map _ _)).trans readAttemptFinished_scan
  | stepStarted => exact (congrArg _ (toOption_map _ _)).trans readStepStarted_scan
  | stepFinished => exact (congrArg _ (toOption_map _ _)).trans readStepFinished_scan
  | attachmentAdded => exact (congrArg _ (toOption_map _ _)).trans readAttachmentAdded_scan
  | scopeFailed => exact (congrArg _ (toOption_map _ _)).trans readScopeFailed_scan

theorem readSequence_scan : (readSequence (asDoublesMembers o)).toOption =
    ((req o (txt "sequence") (scanInt .positive)).run parsed).map Int.toNat := by
  unfold readSequence
  rw [toOption_bind, integral_req, req_scanInt .positive]
  exact bind_positive _ _ _

theorem readIgnorable_opt? : (readIgnorable (asDoublesMembers o)).toOption = ignorable? o := by
  unfold readIgnorable ignorable? opt?
  rw [present_asDoubles]
  cases present o (txt "ignorable") with
  | none => rfl
  | some v => cases v <;> rfl

theorem readEnvelope_scan {version : Text}
    (hversion : req? o (txt "protocolVersion") text? = some version)
    (hsupported : readVersion version = .ok ()) :
    (readEnvelope (asDoublesMembers o)).toOption = (scanEnvelope o).run parsed := by
  unfold readEnvelope scanEnvelope readEventType readOccurredAt
  rw [toOption_bind, requiredString_req?, hversion, Option.bind_some, hsupported]
  simp only [toOption_bind, toOption_ok, toOption_pure, Option.bind_some, requiredString_req?,
    identifier_req?, readSequence_scan, readIgnorable_opt?, bind_check, Scan.run_seq, Scan.run_map,
    Scan.run_lift]
  generalize (req? o (txt "eventType") text?).filter isEventTypeName = a
  generalize req? o (txt "eventId") identifier? = b
  generalize req? o (txt "runId") identifier? = c
  generalize req? o (txt "sessionId") identifier? = d
  generalize (req o (txt "sequence") (scanInt .positive)).run parsed = e
  generalize (req? o (txt "occurredAt") text?).filter isTimestamp = g
  generalize ignorable? o = h
  cases a <;> cases b <;> cases c <;> cases d <;> cases e <;> cases g <;> cases h <;> rfl

end typescript

/-! ### The code of an error -/

section codes
variable {α : Type} (o : Obj) (field at_ : Text)

theorem required_schema : SchemaOnly (required o field at_) := by
  unfold required
  split
  · exact .invalid _ _
  · exact .ok _

theorem asString_schema (v : Json) : SchemaOnly (asString at_ v) := by
  cases v with
  | str s => exact .ok s
  | _ => exact .invalid _ _

theorem asObject_schema (v : Json) : SchemaOnly (asObject at_ v) := by
  cases v with
  | obj members => exact .ok members
  | _ => exact .invalid _ _

theorem asInteger_schema (v : Json) : SchemaOnly (asInteger at_ v) := by
  cases v with
  | num n =>
      unfold asInteger
      dsimp only
      cases n.safeInteger? with
      | none => exact .invalid _ _
      | some i => exact .ok i
  | _ => exact .invalid _ _

theorem requiredString_schema : SchemaOnly (requiredString o field at_) :=
  (required_schema o field at_).bind (asString_schema _)

/-- A reader of an optional member. -/
theorem optional_schema {read : Json → Read α} (h : ∀ v, SchemaOnly (read v)) :
    SchemaOnly (match present o field with
      | none => .ok none
      | some v => some <$> read v) := by
  split
  · exact .ok none
  · exact (h _).map some

theorem optionalString_schema : SchemaOnly (optionalString o field at_) :=
  optional_schema o field (asString_schema _)

theorem checkIdentifier_schema (s : Text) : SchemaOnly (checkIdentifier at_ s) :=
  .ite (.ok s) (.invalid _ _)

theorem identifier_schema : SchemaOnly (identifier o field at_) :=
  (requiredString_schema o field at_).bind (checkIdentifier_schema _)

theorem optionalIdentifier_schema : SchemaOnly (optionalIdentifier o field at_) := by
  refine (optionalString_schema o field at_).bind (fun s => ?_)
  cases s with
  | none => exact .ok none
  | some s => exact (checkIdentifier_schema _ s).map some

theorem integral_schema : SchemaOnly (integral o field at_) :=
  (required_schema o field at_).bind (asInteger_schema _)

theorem optionalIntegral_schema : SchemaOnly (optionalIntegral o field at_) :=
  optional_schema o field (asInteger_schema _)

theorem optionalObject_schema {read : Obj → Text → Read α} (h : ∀ o at_, SchemaOnly (read o at_)) :
    SchemaOnly (optionalObject o field at_ read) := by
  unfold optionalObject
  split
  · exact .ok none
  · exact (asObject_schema _ _).bind (fun o => (h o _).map some)

theorem stringMap_schema : SchemaOnly (stringMap o field at_) := by
  unfold stringMap
  split
  · exact .ok none
  · exact (SchemaOnly.mapM (fun (m : Text × Json) => (asString_schema _ m.2).map _) _).map some
  · exact .invalid _ _

theorem stringList_schema : SchemaOnly (stringList o field at_) := by
  unfold stringList
  split
  · exact .ok none
  · exact (SchemaOnly.mapItems (fun v ptr => asString_schema ptr v) _ _).map some
  · exact .invalid _ _

theorem oneOf_schema (values : List α) (text : α → Text) (raw : Text) :
    SchemaOnly (oneOf raw values text at_) := by
  unfold oneOf
  split
  · exact .ok _
  · exact .invalid _ _

theorem component_schema : SchemaOnly (component o at_) :=
  (requiredString_schema o _ _).bind (fun _ => (optionalString_schema o _ _).bind (fun _ => .ok _))

theorem executor_schema : SchemaOnly (executor o at_) :=
  (optionalString_schema o _ _).bind (fun _ => (optionalString_schema o _ _).bind (fun _ =>
    (optionalString_schema o _ _).bind (fun _ => .ok _)))

theorem source_schema : SchemaOnly (source o at_) :=
  (optionalString_schema o _ _).bind (fun _ => (optionalString_schema o _ _).bind (fun _ =>
    (optionalString_schema o _ _).bind (fun _ => .ok _)))

theorem location_schema : SchemaOnly (location o at_) :=
  (requiredString_schema o _ _).bind (fun _ => (optionalIntegral_schema o _ _).bind (fun _ =>
    (optionalIntegral_schema o _ _).bind (fun _ => .ok _)))

theorem failure_schema (v : Json) : SchemaOnly (failure v at_) :=
  (asObject_schema at_ v).bind (fun f => (optionalString_schema f _ _).bind (fun _ =>
    (requiredString_schema f _ _).bind (fun _ => (optionalString_schema f _ _).bind (fun _ =>
      (optionalString_schema f _ _).bind (fun _ =>
        (SchemaOnly.optionMapM (oneOf_schema _ _ _) _).bind (fun _ =>
          (optionalObject_schema f _ _ location_schema).bind (fun _ => .ok _)))))))

theorem failures_schema : SchemaOnly (failures o at_) := by
  unfold failures
  split
  · exact .ok none
  · exact (SchemaOnly.mapItems (fun v ptr => failure_schema ptr v) _ _).map some
  · exact .invalid _ _

theorem pathSegments_schema (v : Json) : SchemaOnly (pathSegments v at_) := by
  unfold pathSegments
  split
  · refine SchemaOnly.mapItems (fun v ptr => ?_) _ _
    exact (asObject_schema ptr v).bind (fun seg => (requiredString_schema seg _ _).bind (fun _ =>
      (requiredString_schema seg _ _).bind (fun _ => .ok _)))
  · exact .invalid _ _

theorem testCase_schema : SchemaOnly (testCase o at_) :=
  (requiredString_schema o _ _).bind (fun _ => (oneOf_schema _ _ _ _).bind (fun _ =>
    (optionalString_schema o _ _).bind (fun _ => .ite (.invalid _ _) (.ite (.invalid _ _)
      ((required_schema o _ _).bind (fun _ => (pathSegments_schema _ _).bind (fun _ =>
        (identifier_schema o _ _).bind (fun _ => (requiredString_schema o _ _).bind (fun _ =>
          (optionalObject_schema o _ _ location_schema).bind (fun _ =>
            (stringList_schema o _ _).bind (fun _ =>
              (stringMap_schema o _ _).bind (fun _ => .ok _))))))))))))

theorem readSessionStatus_schema (raw : Text) : SchemaOnly (readSessionStatus at_ raw) := by
  unfold readSessionStatus
  split
  · exact .ok _
  · exact .invalid _ _

theorem readScopeFailed_schema : SchemaOnly (readScopeFailed o at_) := by
  refine (required_schema o _ _).bind (fun _ => (pathSegments_schema _ _).bind (fun _ =>
    .ite (.invalid _ _) ((failures_schema o at_).bind (fun fs => ?_))))
  rcases fs with _ | _ | ⟨f, fs⟩
  · exact .invalid _ _
  · exact .invalid _ _
  · exact (optionalString_schema o _ _).bind (fun _ => (optionalString_schema o _ _).bind (fun _ =>
      (optionalObject_schema o _ _ location_schema).bind (fun _ => .ok _)))

theorem readPayload_schema (t : EventType) : SchemaOnly (readPayload t o) := by
  cases t with
  | sessionStarted =>
      exact .map _ ((required_schema o _ _).bind (fun _ => (asObject_schema _ _).bind (fun _ =>
        (component_schema _ _).bind (fun _ =>
          (optionalObject_schema o _ _ component_schema).bind (fun _ =>
            (stringMap_schema o _ _).bind (fun _ =>
              (optionalObject_schema o _ _ executor_schema).bind (fun _ =>
                (optionalObject_schema o _ _ source_schema).bind (fun _ =>
                  (stringMap_schema o _ _).bind (fun _ => .ok _)))))))))
  | sessionFinished =>
      exact .map _ ((optionalString_schema o _ _).bind (fun _ =>
        (SchemaOnly.optionMapM (readSessionStatus_schema _) _).bind (fun _ =>
          (optionalString_schema o _ _).bind (fun _ => (failures_schema o _).bind (fun _ =>
            .ite (.invalid _ _) (.ite (.invalid _ _) (.ite (.invalid _ _) (.ok _))))))))
  | runFinished => exact .ok _
  | attemptStarted =>
      exact .map _ ((integral_schema o _ _).bind (fun _ => .ite (.invalid _ _)
        ((required_schema o _ _).bind (fun _ => (asObject_schema _ _).bind (fun _ =>
          (identifier_schema o _ _).bind (fun _ => (testCase_schema _ _).bind (fun _ => .ok _)))))))
  | attemptFinished =>
      exact .map _ ((optionalString_schema o _ _).bind (fun _ => (identifier_schema o _ _).bind (fun _ =>
        (requiredString_schema o _ _).bind (fun _ => (oneOf_schema _ _ _ _).bind (fun _ =>
          (optionalString_schema o _ _).bind (fun _ =>
            (SchemaOnly.optionMapM (oneOf_schema _ _ _) _).bind (fun _ =>
              (optionalIntegral_schema o _ _).bind (fun _ =>
                (failures_schema o _).bind (fun _ => .ok _)))))))))
  | stepStarted =>
      exact .map _ ((identifier_schema o _ _).bind (fun _ => (identifier_schema o _ _).bind (fun _ =>
        (requiredString_schema o _ _).bind (fun _ => (optionalIdentifier_schema o _ _).bind (fun _ =>
          (optionalString_schema o _ _).bind (fun _ =>
            (optionalObject_schema o _ _ location_schema).bind (fun _ => .ok _)))))))
  | stepFinished =>
      exact .map _ ((identifier_schema o _ _).bind (fun _ => (identifier_schema o _ _).bind (fun _ =>
        (requiredString_schema o _ _).bind (fun _ => (oneOf_schema _ _ _ _).bind (fun _ =>
          (optionalString_schema o _ _).bind (fun _ => (optionalIntegral_schema o _ _).bind (fun _ =>
            (failures_schema o _).bind (fun _ => .ok _))))))))
  | attachmentAdded =>
      exact .map _ ((identifier_schema o _ _).bind (fun _ => (requiredString_schema o _ _).bind (fun _ =>
        (requiredString_schema o _ _).bind (fun _ => (integral_schema o _ _).bind (fun _ =>
          (requiredString_schema o _ _).bind (fun _ =>
            (optionalIdentifier_schema o _ _).bind (fun _ => .ok _)))))))
  | scopeFailed => exact .map _ (readScopeFailed_schema o _)

/-- A text that is checked after it is read. -/
theorem checked_schema {p : Text → Bool} (pointer message : Text) :
    SchemaOnly (requiredString o field at_ >>= fun s =>
      if p s then .ok s else invalid pointer message) :=
  (requiredString_schema o field at_).bind (fun s => .ite (.ok s) (.invalid _ _))

theorem readSequence_schema : SchemaOnly (readSequence o) :=
  (integral_schema o _ _).bind (fun _ => .ite (.invalid _ _) (.ok _))

theorem readIgnorable_schema : SchemaOnly (readIgnorable o) := by
  unfold readIgnorable
  split
  · exact .ok none
  · exact .ok _
  · exact .invalid _ _

/-- Once the version is supported, the envelope fails with nothing but the schema. -/
theorem readEnvelope_schema {version : Text}
    (hversion : requiredString o (txt "protocolVersion") [] = .ok version)
    (hsupported : readVersion version = .ok ()) : SchemaOnly (readEnvelope o) := by
  unfold readEnvelope
  rw [hversion]
  change SchemaOnly (readVersion version >>= _)
  rw [hsupported]
  exact (checked_schema o _ _ _ _).bind (fun _ => (identifier_schema o _ _).bind (fun _ =>
    (identifier_schema o _ _).bind (fun _ => (identifier_schema o _ _).bind (fun _ =>
      (readSequence_schema o).bind (fun _ => (checked_schema o _ _ _ _).bind (fun _ =>
        (readIgnorable_schema o).bind (fun _ => .ok _)))))))

end codes

end QeReport

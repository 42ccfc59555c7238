import QeReport.Protocol.JavaCodec
import QeReport.Protocol.Scanner

/-! # The Java codec is a scan

What the codec of the Java binding reads is what the scan of the text reads with the integers a
`long` can hold that are written without fraction and exponent (`readPayload_scan`,
`readEnvelope_scan`). -/

namespace QeReport.Java

section java
variable {α : Type} {o : Obj} {field at_ : Text}

/-- What the numbers of a text are to Jackson. -/
abbrev longs : IntField → Option ℤ := answers long?

theorem get_obj (o : Obj) (field : Text) : get (.obj o) field = present o field := by
  unfold get present
  dsimp only
  cases memberOf o field with
  | none => rfl
  | some v => cases v <;> rfl

theorem toOption_textValue (v : Json) : (textValue at_ v).toOption = text? v := by
  cases v <;> rfl

theorem toOption_required : (required (.obj o) field at_).toOption = present o field := by
  unfold required
  rw [get_obj]
  cases present o field <;> rfl

/-- A required member that is read further. -/
theorem required_req? {k : Json → Read α} {read? : Json → Option α}
    (h : ∀ v, (k v).toOption = read? v) :
    (required (.obj o) field at_ >>= k).toOption = req? o field read? := by
  unfold req?
  rw [toOption_bind, toOption_required]
  cases present o field with
  | none => rfl
  | some v => exact h v

theorem required_req {k : Json → Read α} {scan : Json → Scanner α}
    (h : ∀ v, (k v).toOption = (scan v).run longs) :
    (required (.obj o) field at_ >>= k).toOption = (req o field scan).run longs := by
  unfold req
  rw [toOption_bind, toOption_required]
  cases present o field with
  | none => rfl
  | some v => exact h v

theorem requiredString_req? :
    (requiredString (.obj o) field at_).toOption = req? o field text? :=
  required_req? toOption_textValue

theorem optionalString_opt? :
    (optionalString (.obj o) field at_).toOption = opt? o field text? := by
  unfold optionalString opt?
  rw [get_obj]
  cases present o field with
  | none => rfl
  | some v =>
      dsimp only
      rw [toOption_map, toOption_textValue]

theorem identifier_req? :
    (identifier (.obj o) field at_).toOption = req? o field identifier? := by
  unfold identifier
  rw [toOption_bind, requiredString_req?]
  unfold req? identifier?
  cases present o field with
  | none => rfl
  | some v =>
      cases ht : text? v with
      | none => simp [ht]
      | some s =>
          cases h : isIdentifier s with
          | false => simp [ht, Option.filter, h, toOption_invalid]
          | true => simp [ht, Option.filter, h, toOption_ok]

theorem optionalIdentifier_opt? :
    (optionalIdentifier (.obj o) field at_).toOption = opt? o field identifier? := by
  unfold optionalIdentifier
  rw [toOption_bind, optionalString_opt?]
  unfold opt? identifier?
  cases present o field with
  | none => rfl
  | some v =>
      cases ht : text? v with
      | none => simp [ht]
      | some s =>
          cases h : isIdentifier s with
          | false => simp [ht, Option.filter, h, toOption_invalid]
          | true => simp [ht, Option.filter, h, toOption_ok]

theorem toOption_longValue (v : Json) :
    (longValue at_ v).toOption = (scanInt .any v).run longs := by
  cases v with
  | num n =>
      rw [scanInt, Scan.run_ask, longValue]
      change _ = (long? n).filter (fun _ => true)
      cases long? n <;> rfl
  | _ => rfl

theorem integral_req : (integral (.obj o) field at_).toOption =
    (req o field (scanInt .any)).run longs :=
  required_req toOption_longValue

theorem optionalIntegral_opt : (optionalIntegral (.obj o) field at_).toOption =
    (opt o field (scanInt .any)).run longs := by
  unfold optionalIntegral opt
  rw [get_obj]
  cases present o field with
  | none => rfl
  | some v =>
      dsimp only
      rw [toOption_map, toOption_longValue, Scan.run_map]

theorem optionalObject_opt {read : Json → Read α} {scan : Obj → Scanner α}
    (h : ∀ o, (read (.obj o)).toOption = (scan o).run longs) :
    (optionalObject (.obj o) field at_ read).toOption =
      (opt o field (scanObject scan)).run longs := by
  unfold optionalObject opt
  rw [get_obj]
  cases present o field with
  | none => rfl
  | some v =>
      cases v with
      | obj members =>
          change (some <$> read (.obj members)).toOption = _
          rw [toOption_map, h, Scan.run_map]
          rfl
      | _ => rfl

theorem optionalObject_opt? {read : Json → Read α} {read? : Obj → Option α}
    (h : ∀ o, (read (.obj o)).toOption = read? o) :
    (optionalObject (.obj o) field at_ read).toOption = opt? o field (object? read?) := by
  unfold optionalObject opt?
  rw [get_obj]
  cases present o field with
  | none => rfl
  | some v =>
      cases v with
      | obj members =>
          change (some <$> read (.obj members)).toOption = _
          rw [toOption_map, h]
          rfl
      | _ => rfl

theorem toOption_items {read : Json → Text → Read α} {read? : Json → Option α}
    (h : ∀ v ptr, (read v ptr).toOption = read? v) (items : List Json) :
    (mapItems read at_ items).toOption = items.mapM read? := by
  simpa using toOption_mapItems (g := id) h at_ items

/-- An absent map is the empty one. -/
theorem stringMap_opt? : (stringMap (.obj o) field at_).toOption =
    (opt? o field record?).map (fun r => r.getD []) := by
  unfold stringMap opt?
  rw [get_obj]
  cases present o field with
  | none => rfl
  | some v =>
      cases v with
      | obj members =>
          simp only
          rw [toOption_mapM, record?]
          simp only [toOption_map, toOption_textValue]
          rw [Option.map_map]
          exact (congrFun Option.map_id _).symm
      | _ => rfl

/-- An absent list is the empty one. -/
theorem stringList_opt? : (stringList (.obj o) field at_).toOption =
    (opt? o field texts?).map (fun l => l.getD []) := by
  unfold stringList opt?
  rw [get_obj]
  cases present o field with
  | none => rfl
  | some v =>
      cases v with
      | arr items =>
          simp only
          rw [toOption_items (fun v _ => toOption_textValue v), texts?, Option.map_map]
          exact (congrFun Option.map_id _).symm
      | _ => rfl

/-- `fromWireName` of a text that is there. -/
theorem toOption_fromWireName (values : List α) (wireName : α → Text) (raw : Text) :
    (fromWireName values wireName at_ raw).toOption =
      values.find? (fun a => wireName a = raw) := by
  unfold fromWireName
  cases values.find? (fun a => decide (wireName a = raw)) <;> rfl

theorem component_component? : (component (.obj o) at_).toOption = component? o := by
  unfold component component?
  simp only [isObject, if_true, toOption_bind, requiredString_req?, optionalString_opt?,
    toOption_pure]
  generalize req? o (txt "name") text? = a
  generalize opt? o (txt "version") text? = b
  cases a <;> cases b <;> rfl

theorem executor_executor? : (executor (.obj o) at_).toOption = executor? o := by
  unfold executor executor?
  simp only [isObject, if_true, toOption_bind, optionalString_opt?, toOption_pure]
  generalize opt? o (txt "name") text? = a
  generalize opt? o (txt "buildId") text? = b
  generalize opt? o (txt "buildUrl") text? = c
  cases a <;> cases b <;> cases c <;> rfl

theorem source_source? : (source (.obj o) at_).toOption = source? o := by
  unfold source source?
  simp only [isObject, if_true, toOption_bind, optionalString_opt?, toOption_pure]
  generalize opt? o (txt "repository") text? = a
  generalize opt? o (txt "revision") text? = b
  generalize opt? o (txt "branch") text? = c
  cases a <;> cases b <;> cases c <;> rfl

theorem location_scan : (location (.obj o) at_).toOption = (scanLocation o).run longs := by
  unfold location scanLocation
  simp only [isObject, if_true, toOption_bind, requiredString_req?, optionalIntegral_opt,
    toOption_pure, Scan.run_seq, Scan.run_map, Scan.run_lift]
  generalize req? o (txt "file") text? = a
  generalize (opt o (txt "line") (scanInt .any)).run longs = b
  generalize (opt o (txt "column") (scanInt .any)).run longs = c
  cases a <;> cases b <;> cases c <;> rfl

theorem optionalLocation_opt {ptr : Text} :
    (optionalObject (.obj o) field at_ (fun l => location l ptr)).toOption =
      (opt o field (scanObject scanLocation)).run longs :=
  optionalObject_opt (fun _ => location_scan)

theorem failure_scan (v : Json) :
    (failure v at_).toOption = (scanObject scanFailure v).run longs := by
  cases v with
  | obj o =>
      change (failure (.obj o) at_).toOption = (scanFailure o).run longs
      unfold failure scanFailure
      simp only [isObject, if_true, toOption_bind, requiredString_req?, optionalString_opt?,
        toOption_optionMapM, toOption_fromWireName, toOption_pure, optionalLocation_opt,
        Scan.run_seq, Scan.run_map, Scan.run_lift, ← opt?_word]
      generalize req? o (txt "message") text? = a
      generalize opt? o (txt "type") text? = b
      generalize opt? o (txt "stackTrace") text? = c
      generalize opt? o (txt "phase") text? = d
      generalize (opt o (txt "location") (scanObject scanLocation)).run longs = e
      rcases d with _ | raw
      · cases a <;> cases b <;> cases c <;> rfl
      · have hphase : ∃ w, (raw.mapM fun raw =>
            failurePhases.find? (fun p => decide (p.text = raw))) = w := ⟨_, rfl⟩
        obtain ⟨w, hw⟩ := hphase
        simp only [Option.bind_some, hw]
        cases a <;> cases b <;> cases c <;> cases w <;> cases e <;> rfl
  | _ => rfl

theorem failures_scan (at_ : Text) : (failures (.obj o) at_).toOption = (scanFailures o).run longs := by
  unfold failures scanFailures opt
  rw [get_obj, Scan.run_map]
  cases present o (txt "failures") with
  | none => rfl
  | some v =>
      cases v with
      | arr items =>
          simp only [scanItems]
          rw [toOption_items (fun v _ => failure_scan v), Scan.run_map, Scan.run_list,
            Option.map_map]
          exact (congrFun Option.map_id _).symm
      | _ => rfl

theorem failures_nil (at_ : Text) (fs : List Failure)
    (h : (failures (.obj o) at_).toOption = some fs) :
    fs = [] ↔ hasItems o (txt "failures") = false :=
  scanFailures_nil long? ((failures_scan at_).symm.trans h)

theorem pathSegments_path? (v : Json) : (pathSegments v at_).toOption = path? v := by
  have hsegment : ∀ v ptr, (pathSegment v ptr).toOption = object? segment? v := by
    intro v ptr
    cases v with
    | obj o =>
        change (pathSegment (.obj o) ptr).toOption = segment? o
        unfold pathSegment segment?
        simp only [isObject, if_true, toOption_bind, requiredString_req?, toOption_pure]
        generalize req? o (txt "kind") text? = a
        generalize req? o (txt "name") text? = b
        cases a <;> cases b <;> rfl
    | _ => rfl
  cases v with
  | arr items =>
      simp only [pathSegments, path?]
      rw [toOption_items hsegment]
  | _ => rfl

/-- What follows the identity of a test. -/
theorem testCase_rest {f : List PathSegment → Text → Text → Option Location → List Text →
    Record → TestCase} :
    (do
      let path ← pathSegments (← required (.obj o) (txt "path") at_) (child at_ (txt "path"))
      let executionId ← identifier (.obj o) (txt "executionId") at_
      let displayName ← requiredString (.obj o) (txt "displayName") at_
      let location ← optionalObject (.obj o) (txt "location") at_
        (fun l => location l (child at_ (txt "location")))
      let tags ← stringList (.obj o) (txt "tags") at_
      let labels ← stringMap (.obj o) (txt "labels") at_
      return f path executionId displayName location tags labels : Read TestCase).toOption =
    (fun executionId displayName path location tags labels =>
      f path executionId displayName location (tags.getD []) (labels.getD [])) <$>
      req? o (txt "executionId") identifier? <*> req? o (txt "displayName") text? <*>
      req? o (txt "path") path? <*>
      (opt o (txt "location") (scanObject scanLocation)).run longs <*>
      opt? o (txt "tags") texts? <*> opt? o (txt "labels") record? := by
  have hpath : (required (.obj o) (txt "path") at_ >>= fun v =>
      pathSegments v (child at_ (txt "path"))).toOption = req? o (txt "path") path? :=
    required_req? pathSegments_path?
  rw [← bind_assoc, toOption_bind, hpath]
  simp only [toOption_bind, identifier_req?, requiredString_req?, toOption_pure,
    optionalLocation_opt, stringList_opt?, stringMap_opt?]
  generalize req? o (txt "path") path? = a
  generalize req? o (txt "executionId") identifier? = b
  generalize req? o (txt "displayName") text? = c
  generalize (opt o (txt "location") (scanObject scanLocation)).run longs = d
  generalize opt? o (txt "tags") texts? = e
  generalize opt? o (txt "labels") record? = g
  cases a <;> cases b <;> cases c <;> cases d <;> cases e <;> cases g <;> rfl

/-- An absent collection and the empty one are left out alike. -/
theorem nonEmpty_getD {β : Type} (l : Option (List β)) : nonEmpty (some (l.getD [])) = nonEmpty l := by
  rcases l with _ | _ | _ <;> rfl

theorem testCase_scan : (testCase (.obj o) at_).toOption.map TestCase.normal =
    (scanTest o).run longs := by
  unfold testCase scanTest identity?
  simp only [isObject, if_true, Scan.run_seq, Scan.run_map, Scan.run_lift, ← req?_word]
  rw [toOption_bind, requiredString_req?]
  generalize req? o (txt "historicalIdStability") text? = raw
  cases raw with
  | none => rfl
  | some raw =>
      simp only [Option.bind_some, toOption_bind, toOption_fromWireName, optionalString_opt?]
      generalize historicalIdStabilities.find? (fun a => decide (a.text = raw)) = stability
      generalize opt? o (txt "historicalId") text? = historicalId
      rcases stability with _ | stability
      · rfl
      · rcases historicalId with _ | historicalId
        · rfl
        · simp only [Option.bind_some, toOption_ite]
          rw [testCase_rest]
          generalize req? o (txt "path") path? = a
          generalize req? o (txt "executionId") identifier? = b
          generalize req? o (txt "displayName") text? = c
          generalize (opt o (txt "location") (scanObject scanLocation)).run longs = d
          generalize opt? o (txt "tags") texts? = e
          generalize opt? o (txt "labels") record? = g
          cases stability <;> cases historicalId <;> try rfl
          all_goals
            cases a <;> cases b <;> cases c <;> cases d <;> cases e <;> cases g <;> try rfl
          all_goals simp [TestCase.normal, nonEmpty_getD, Seq.seq]

theorem readSessionStarted_scan :
    ((readSessionStarted (.obj o) at_).toOption.map Payload.sessionStarted).map
      Payload.normal = (scanPayload o .sessionStarted).run longs := by
  have hproducer : (required (.obj o) (txt "producer") at_ >>= fun v =>
      component v (child at_ (txt "producer"))).toOption =
      req? o (txt "producer") (object? component?) := by
    refine required_req? (fun v => ?_)
    cases v with
    | obj o => exact component_component?
    | _ => rfl
  have hrunner : ∀ ptr, (optionalObject (.obj o) (txt "runner") at_ (fun n =>
      component n ptr)).toOption = opt? o (txt "runner") (object? component?) :=
    fun _ => optionalObject_opt? (fun _ => component_component?)
  have hexecutor : ∀ ptr, (optionalObject (.obj o) (txt "executor") at_ (fun n =>
      executor n ptr)).toOption = opt? o (txt "executor") (object? executor?) :=
    fun _ => optionalObject_opt? (fun _ => executor_executor?)
  have hsource : ∀ ptr, (optionalObject (.obj o) (txt "source") at_ (fun n =>
      source n ptr)).toOption = opt? o (txt "source") (object? source?) :=
    fun _ => optionalObject_opt? (fun _ => source_source?)
  unfold readSessionStarted scanPayload
  rw [← bind_assoc, toOption_bind, hproducer]
  simp only [toOption_bind, toOption_pure, stringMap_opt?,
    hrunner, hexecutor, hsource, Scan.run_seq, Scan.run_map, Scan.run_lift]
  generalize req? o (txt "producer") (object? component?) = a
  generalize opt? o (txt "runner") (object? component?) = b
  generalize opt? o (txt "environment") record? = c
  generalize opt? o (txt "executor") (object? executor?) = d
  generalize opt? o (txt "source") (object? source?) = e
  generalize opt? o (txt "labels") record? = g
  cases a <;> cases b <;> cases c <;> cases d <;> cases e <;> cases g <;> try rfl
  simp [Payload.normal, nonEmpty_getD, Seq.seq]

theorem sessionStatus_opt? : (sessionStatus (.obj o) at_).toOption =
    opt? o (txt "status") (word? sessionStatuses SessionStatus.text) := by
  unfold sessionStatus
  rw [toOption_bind, optionalString_opt?, ← opt?_word]
  congr 1
  funext raw
  cases raw with
  | none => rfl
  | some raw =>
      change _ = (sessionStatuses.find? (fun s => decide (s.text = raw))).map some
      dsimp only
      cases sessionStatuses.find? (fun s => decide (s.text = raw)) <;> rfl

theorem status_req? : (status (.obj o) at_).toOption =
    req? o (txt "status") (word? statuses Status.text) := by
  unfold status
  rw [toOption_bind, requiredString_req?, ← req?_word]
  simp only [toOption_fromWireName]

theorem expectedStatus_opt? : (expectedStatus (.obj o) at_).toOption =
    opt? o (txt "expectedStatus") (word? expectedStatuses ExpectedStatus.text) := by
  unfold expectedStatus
  rw [toOption_bind, optionalString_opt?, ← opt?_word]
  simp only [toOption_optionMapM, toOption_fromWireName]

theorem readSessionFinished_scan :
    ((readSessionFinished (.obj o) at_).toOption.map Payload.sessionFinished).map
      Payload.normal = (scanPayload o .sessionFinished).run longs := by
  have hnil := failures_nil (o := o) at_
  unfold readSessionFinished scanPayload outcome?
  simp only [toOption_bind, sessionStatus_opt?, optionalString_opt?, Scan.run_seq, Scan.run_map,
    Scan.run_lift, ← failures_scan at_]
  generalize opt? o (txt "status") (word? sessionStatuses SessionStatus.text) = a
  generalize opt? o (txt "rawStatus") text? = b
  generalize (failures (.obj o) at_).toOption = c at hnil
  rcases a with _ | status
  · rfl
  rcases b with _ | rawStatus
  · rfl
  rcases c with _ | fs
  · exact (seq_none _).symm
  have hitems := hnil fs rfl
  simp only [Option.bind_some]
  cases hh : hasItems o (txt "failures") with
  | false =>
      obtain rfl := hitems.mpr hh
      rcases status with _ | _ | _ | _ <;> rcases rawStatus with _ | _ <;> rfl
  | true =>
      obtain ⟨f, l, rfl⟩ := List.exists_cons_of_ne_nil (fun h => by
        rw [hitems.mp h] at hh
        cases hh)
      rcases status with _ | _ | _ | _ <;> rcases rawStatus with _ | _ <;> rfl

theorem readAttemptStarted_scan :
    ((readAttemptStarted (.obj o) at_).toOption.map Payload.attemptStarted).map
      Payload.normal = (scanPayload o .attemptStarted).run longs := by
  unfold readAttemptStarted scanPayload
  simp only [toOption_bind, toOption_ite, toOption_invalid, toOption_required, integral_req,
    identifier_req?, Scan.run_seq, Scan.run_map, Scan.run_lift, req_scanInt .attempt]
  generalize (req o (txt "attemptNumber") (scanInt .any)).run longs = a
  generalize req? o (txt "attemptId") identifier? = b
  rcases a with _ | n
  · rfl
  by_cases hn : n < 1 ∨ n > 1000
  · have hout : IntRange.attempt.admits n = false := by
      simp only [IntRange.admits, Bool.and_eq_false_iff, decide_eq_false_iff_not]
      omega
    rw [filter_admits_neg hout]
    simp only [Option.bind_some, if_pos hn]
    rfl
  · have hin : IntRange.attempt.admits n = true := by
      simp only [IntRange.admits, Bool.and_eq_true, decide_eq_true_eq]
      omega
    rw [filter_admits hin]
    simp only [Option.bind_some, if_neg hn]
    unfold req
    cases present o (txt "test") with
    | none => cases b <;> rfl
    | some v =>
        cases v with
        | obj test =>
            simp only [Option.bind_some, scanObject]
            rw [← testCase_scan]
            generalize (testCase (.obj test) _).toOption = c
            cases b <;> cases c <;> rfl
        | _ => cases b <;> rfl

theorem readAttemptFinished_scan :
    ((readAttemptFinished (.obj o) at_).toOption.map Payload.attemptFinished).map
      Payload.normal = (scanPayload o .attemptFinished).run longs := by
  unfold readAttemptFinished scanPayload
  simp only [toOption_bind, toOption_pure, identifier_req?, optionalString_opt?, status_req?,
    expectedStatus_opt?, optionalIntegral_opt, Scan.run_seq, Scan.run_map, Scan.run_lift,
    ← failures_scan at_]
  generalize opt? o (txt "expectedStatus") (word? expectedStatuses ExpectedStatus.text) = a
  generalize req? o (txt "attemptId") identifier? = b
  generalize req? o (txt "status") (word? statuses Status.text) = c
  generalize opt? o (txt "rawStatus") text? = d
  generalize (opt o (txt "durationMs") (scanInt .any)).run longs = e
  generalize (failures (.obj o) at_).toOption = g
  cases a <;> cases b <;> cases c <;> cases d <;> cases e <;> cases g <;> rfl

theorem readStepStarted_scan :
    ((readStepStarted (.obj o) at_).toOption.map Payload.stepStarted).map
      Payload.normal = (scanPayload o .stepStarted).run longs := by
  unfold readStepStarted scanPayload
  simp only [toOption_bind, toOption_pure, identifier_req?, requiredString_req?, optionalString_opt?,
    optionalIdentifier_opt?, optionalLocation_opt, Scan.run_seq, Scan.run_map, Scan.run_lift]
  generalize req? o (txt "stepId") identifier? = a
  generalize req? o (txt "attemptId") identifier? = b
  generalize opt? o (txt "parentStepId") identifier? = c
  generalize req? o (txt "name") text? = d
  generalize opt? o (txt "kind") text? = e
  generalize (opt o (txt "location") (scanObject scanLocation)).run longs = g
  cases a <;> cases b <;> cases c <;> cases d <;> cases e <;> cases g <;> rfl

theorem readStepFinished_scan :
    ((readStepFinished (.obj o) at_).toOption.map Payload.stepFinished).map
      Payload.normal = (scanPayload o .stepFinished).run longs := by
  unfold readStepFinished scanPayload
  simp only [toOption_bind, toOption_pure, identifier_req?, optionalString_opt?, status_req?,
    optionalIntegral_opt, Scan.run_seq, Scan.run_map, Scan.run_lift, ← failures_scan at_]
  generalize req? o (txt "stepId") identifier? = a
  generalize req? o (txt "attemptId") identifier? = b
  generalize req? o (txt "status") (word? statuses Status.text) = c
  generalize opt? o (txt "rawStatus") text? = d
  generalize (opt o (txt "durationMs") (scanInt .any)).run longs = e
  generalize (failures (.obj o) at_).toOption = g
  cases a <;> cases b <;> cases c <;> cases d <;> cases e <;> cases g <;> rfl

theorem readAttachmentAdded_scan :
    ((readAttachmentAdded (.obj o) at_).toOption.map Payload.attachmentAdded).map
      Payload.normal = (scanPayload o .attachmentAdded).run longs := by
  unfold readAttachmentAdded scanPayload
  simp only [toOption_bind, toOption_pure, identifier_req?, requiredString_req?,
    optionalIdentifier_opt?, integral_req, Scan.run_seq, Scan.run_map, Scan.run_lift]
  generalize req? o (txt "attemptId") identifier? = a
  generalize opt? o (txt "stepId") identifier? = b
  generalize req? o (txt "name") text? = c
  generalize req? o (txt "mediaType") text? = d
  generalize (req o (txt "sizeBytes") (scanInt .any)).run longs = e
  generalize req? o (txt "sha256") text? = g
  cases a <;> cases b <;> cases c <;> cases d <;> cases e <;> cases g <;> rfl

theorem readScopeFailed_scan :
    ((readScopeFailed (.obj o) at_).toOption.map Payload.scopeFailed).map
      Payload.normal = (scanPayload o .scopeFailed).run longs := by
  have hpath : (required (.obj o) (txt "path") at_ >>= fun v =>
      pathSegments v (child at_ (txt "path"))).toOption = req? o (txt "path") path? :=
    required_req? pathSegments_path?
  have hnil := failures_nil (o := o) at_
  unfold readScopeFailed scanPayload
  rw [← bind_assoc, toOption_bind, hpath]
  simp only [toOption_bind, toOption_ite, toOption_invalid, toOption_pure, optionalString_opt?,
    optionalLocation_opt]
  cases hp : req? o (txt "path") path? with
  | none =>
      split_ifs
      · simp only [Scan.run_seq, Scan.run_map, Scan.run_lift]
        rfl
      · rfl
  | some path =>
      have hempty := req?_path_nil hp
      rw [Option.bind_some]
      cases hitems : hasItems o (txt "path") with
      | false =>
          rw [if_pos (hempty.mpr hitems)]
          rfl
      | true =>
          rw [if_neg (fun h => by rw [hempty.mp h] at hitems; cases hitems)]
          simp only [Bool.true_and]
          cases hfs : (failures (.obj o) at_).toOption with
          | none =>
              split_ifs
              · simp only [Scan.run_seq, ← failures_scan at_, hfs, seq_none]
                rfl
              · rfl
          | some fs =>
              have hfsnil := hnil fs hfs
              cases hh : hasItems o (txt "failures") with
              | false =>
                  obtain rfl := hfsnil.mpr hh
                  rfl
              | true =>
                  have hne : fs ≠ [] := fun h => by
                    rw [hfsnil.mp h] at hh
                    cases hh
                  simp only [if_true, Option.bind_some, if_neg hne, Scan.run_seq, Scan.run_map,
                    Scan.run_lift, ← failures_scan at_, hfs]
                  generalize opt? o (txt "displayName") text? = a
                  generalize opt? o (txt "rawStatus") text? = b
                  generalize (opt o (txt "location") (scanObject scanLocation)).run longs = c
                  cases a <;> cases b <;> cases c <;> rfl

/-- The codec reads a payload as the scan does. -/
theorem readPayload_scan (t : EventType) :
    (readPayload t (.obj o)).toOption.map Payload.normal = (scanPayload o t).run longs := by
  cases t with
  | sessionStarted => exact (congrArg _ (toOption_map _ _)).trans readSessionStarted_scan
  | sessionFinished => exact (congrArg _ (toOption_map _ _)).trans readSessionFinished_scan
  | runFinished => rfl
  | attemptStarted => exact (congrArg _ (toOption_map _ _)).trans readAttemptStarted_scan
  | attemptFinished => exact (congrArg _ (toOption_map _ _)).trans readAttemptFinished_scan
  | stepStarted => exact (congrArg _ (toOption_map _ _)).trans readStepStarted_scan
  | stepFinished => exact (congrArg _ (toOption_map _ _)).trans readStepFinished_scan
  | attachmentAdded => exact (congrArg _ (toOption_map _ _)).trans readAttachmentAdded_scan
  | scopeFailed => exact (congrArg _ (toOption_map _ _)).trans readScopeFailed_scan

theorem readSequence_scan : (readSequence (.obj o)).toOption =
    ((req o (txt "sequence") (scanInt .positive)).run longs).map Int.toNat := by
  unfold readSequence
  rw [toOption_bind, integral_req, req_scanInt .positive]
  exact bind_positive _ _ _

theorem readIgnorable_opt? : (readIgnorable (.obj o)).toOption = ignorable? o := by
  unfold readIgnorable ignorable? opt?
  rw [get_obj]
  cases present o (txt "ignorable") with
  | none => rfl
  | some v => cases v <;> rfl

theorem readEnvelope_scan {version : Text}
    (hversion : req? o (txt "protocolVersion") text? = some version)
    (hsupported : readVersion version = .ok ()) :
    (readEnvelope (.obj o)).toOption = (scanEnvelope o).run longs := by
  unfold readEnvelope scanEnvelope readEventType readOccurredAt
  rw [toOption_bind, requiredString_req?, hversion, Option.bind_some, hsupported]
  simp only [toOption_bind, toOption_ok, toOption_pure, Option.bind_some, requiredString_req?,
    identifier_req?, readSequence_scan, readIgnorable_opt?, bind_check, Scan.run_seq, Scan.run_map,
    Scan.run_lift]
  generalize (req? o (txt "eventType") text?).filter isEventTypeName = a
  generalize req? o (txt "eventId") identifier? = b
  generalize req? o (txt "runId") identifier? = c
  generalize req? o (txt "sessionId") identifier? = d
  generalize (req o (txt "sequence") (scanInt .positive)).run longs = e
  generalize (req? o (txt "occurredAt") text?).filter isTimestamp = g
  generalize ignorable? o = h
  cases a <;> cases b <;> cases c <;> cases d <;> cases e <;> cases g <;> cases h <;> rfl

end java

/-! ### The code of an error -/

section codes
variable {α : Type} (p : Json) (field at_ : Text)

theorem required_schema : SchemaOnly (required p field at_) := by
  unfold required
  split
  · exact .invalid _ _
  · exact .ok _

theorem textValue_schema (v : Json) : SchemaOnly (textValue at_ v) := by
  cases v with
  | str s => exact .ok s
  | _ => exact .invalid _ _

theorem longValue_schema (v : Json) : SchemaOnly (longValue at_ v) := by
  cases v with
  | num n =>
      unfold longValue
      dsimp only
      cases long? n with
      | none => exact .invalid _ _
      | some i => exact .ok i
  | _ => exact .invalid _ _

theorem requiredString_schema : SchemaOnly (requiredString p field at_) :=
  (required_schema p field at_).bind (textValue_schema _)

theorem optionalString_schema : SchemaOnly (optionalString p field at_) := by
  unfold optionalString
  split
  · exact .ok none
  · exact (textValue_schema _ _).map some

theorem identifier_schema : SchemaOnly (identifier p field at_) :=
  (requiredString_schema p field at_).bind (fun _ => .ite (.ok _) (.invalid _ _))

theorem optionalIdentifier_schema : SchemaOnly (optionalIdentifier p field at_) := by
  refine (optionalString_schema p field at_).bind (fun s => ?_)
  cases s with
  | none => exact .ok none
  | some s => exact .ite (.ok _) (.invalid _ _)

theorem integral_schema : SchemaOnly (integral p field at_) :=
  (required_schema p field at_).bind (longValue_schema _)

theorem optionalIntegral_schema : SchemaOnly (optionalIntegral p field at_) := by
  unfold optionalIntegral
  split
  · exact .ok none
  · exact (longValue_schema _ _).map some

theorem optionalObject_schema {read : Json → Read α} (h : ∀ n, SchemaOnly (read n)) :
    SchemaOnly (optionalObject p field at_ read) := by
  unfold optionalObject
  split
  · exact .ok none
  · exact .ite ((h _).map some) (.invalid _ _)

theorem stringMap_schema : SchemaOnly (stringMap p field at_) := by
  unfold stringMap
  split
  · exact .ok []
  · exact SchemaOnly.mapM (fun (m : Text × Json) => (textValue_schema _ m.2).map _) _
  · exact .invalid _ _

theorem stringList_schema : SchemaOnly (stringList p field at_) := by
  unfold stringList
  split
  · exact .ok []
  · exact SchemaOnly.mapItems (fun v ptr => textValue_schema ptr v) _ _
  · exact .invalid _ _

theorem fromWireName_schema (values : List α) (wireName : α → Text) (raw : Text) :
    SchemaOnly (fromWireName values wireName at_ raw) := by
  unfold fromWireName
  split
  · exact .ok _
  · exact .invalid _ _

theorem component_schema : SchemaOnly (component p at_) :=
  .ite ((requiredString_schema p _ _).bind (fun _ =>
    (optionalString_schema p _ _).bind (fun _ => .ok _))) (.invalid _ _)

theorem executor_schema : SchemaOnly (executor p at_) :=
  .ite ((optionalString_schema p _ _).bind (fun _ => (optionalString_schema p _ _).bind (fun _ =>
    (optionalString_schema p _ _).bind (fun _ => .ok _)))) (.invalid _ _)

theorem source_schema : SchemaOnly (source p at_) :=
  .ite ((optionalString_schema p _ _).bind (fun _ => (optionalString_schema p _ _).bind (fun _ =>
    (optionalString_schema p _ _).bind (fun _ => .ok _)))) (.invalid _ _)

theorem location_schema : SchemaOnly (location p at_) :=
  .ite ((requiredString_schema p _ _).bind (fun _ => (optionalIntegral_schema p _ _).bind (fun _ =>
    (optionalIntegral_schema p _ _).bind (fun _ => .ok _)))) (.invalid _ _)

theorem failure_schema : SchemaOnly (failure p at_) :=
  .ite ((optionalString_schema p _ _).bind (fun _ =>
    (SchemaOnly.optionMapM (fromWireName_schema _ _ _) _).bind (fun _ =>
      (requiredString_schema p _ _).bind (fun _ => (optionalString_schema p _ _).bind (fun _ =>
        (optionalString_schema p _ _).bind (fun _ =>
          (optionalObject_schema p _ _ (fun n => location_schema n _)).bind (fun _ => .ok _)))))))
    (.invalid _ _)

theorem failures_schema : SchemaOnly (failures p at_) := by
  unfold failures
  split
  · exact .ok []
  · exact SchemaOnly.mapItems failure_schema _ _
  · exact .invalid _ _

theorem pathSegments_schema : SchemaOnly (pathSegments p at_) := by
  unfold pathSegments
  split
  · exact SchemaOnly.mapItems (fun v ptr => .ite ((requiredString_schema v _ _).bind (fun _ =>
      (requiredString_schema v _ _).bind (fun _ => .ok _))) (.invalid _ _)) _ _
  · exact .invalid _ _

theorem testCase_schema : SchemaOnly (testCase p at_) :=
  .ite ((requiredString_schema p _ _).bind (fun _ => (fromWireName_schema _ _ _ _).bind (fun _ =>
    (optionalString_schema p _ _).bind (fun _ => .ite (.invalid _ _) (.ite (.invalid _ _)
      ((required_schema p _ _).bind (fun _ => (pathSegments_schema _ _).bind (fun _ =>
        (identifier_schema p _ _).bind (fun _ => (requiredString_schema p _ _).bind (fun _ =>
          (optionalObject_schema p _ _ (fun n => location_schema n _)).bind (fun _ =>
            (stringList_schema p _ _).bind (fun _ =>
              (stringMap_schema p _ _).bind (fun _ => .ok _)))))))))))))
    (.invalid _ _)

theorem sessionStatus_schema : SchemaOnly (sessionStatus p at_) := by
  refine (optionalString_schema p _ _).bind (fun raw => ?_)
  cases raw with
  | none => exact .ok none
  | some raw =>
      dsimp only
      split
      · exact .ok _
      · exact .invalid _ _

theorem status_schema : SchemaOnly (status p at_) :=
  (requiredString_schema p _ _).bind (fun _ => fromWireName_schema _ _ _ _)

theorem expectedStatus_schema : SchemaOnly (expectedStatus p at_) :=
  (optionalString_schema p _ _).bind (fun _ => .optionMapM (fromWireName_schema _ _ _) _)

theorem readPayload_schema (t : EventType) : SchemaOnly (readPayload t p) := by
  have hlocation : ∀ at_ ptr, SchemaOnly (optionalObject p (txt "location") at_
      (fun n => location n ptr)) :=
    fun _ _ => optionalObject_schema p _ _ (fun n => location_schema n _)
  cases t with
  | sessionStarted =>
      exact .map _ ((required_schema p _ _).bind (fun _ => (component_schema _ _).bind (fun _ =>
        (optionalObject_schema p _ _ (fun n => component_schema n _)).bind (fun _ =>
          (stringMap_schema p _ _).bind (fun _ =>
            (optionalObject_schema p _ _ (fun n => executor_schema n _)).bind (fun _ =>
              (optionalObject_schema p _ _ (fun n => source_schema n _)).bind (fun _ =>
                (stringMap_schema p _ _).bind (fun _ => .ok _))))))))
  | sessionFinished =>
      exact .map _ ((sessionStatus_schema p _).bind (fun _ =>
        (optionalString_schema p _ _).bind (fun _ => (failures_schema p _).bind (fun _ =>
          .ite (.invalid _ _) (.ite (.invalid _ _) (.ite (.invalid _ _) (.ok _)))))))
  | runFinished => exact .ok _
  | attemptStarted =>
      exact .map _ ((integral_schema p _ _).bind (fun _ => .ite (.invalid _ _)
        ((identifier_schema p _ _).bind (fun _ => (required_schema p _ _).bind (fun _ =>
          (testCase_schema _ _).bind (fun _ => .ok _))))))
  | attemptFinished =>
      exact .map _ ((identifier_schema p _ _).bind (fun _ => (status_schema p _).bind (fun _ =>
        (optionalString_schema p _ _).bind (fun _ => (expectedStatus_schema p _).bind (fun _ =>
          (optionalIntegral_schema p _ _).bind (fun _ =>
            (failures_schema p _).bind (fun _ => .ok _)))))))
  | stepStarted =>
      exact .map _ ((identifier_schema p _ _).bind (fun _ => (identifier_schema p _ _).bind (fun _ =>
        (optionalIdentifier_schema p _ _).bind (fun _ => (requiredString_schema p _ _).bind (fun _ =>
          (optionalString_schema p _ _).bind (fun _ =>
            (hlocation _ _).bind (fun _ => .ok _)))))))
  | stepFinished =>
      exact .map _ ((identifier_schema p _ _).bind (fun _ => (identifier_schema p _ _).bind (fun _ =>
        (status_schema p _).bind (fun _ => (optionalString_schema p _ _).bind (fun _ =>
          (optionalIntegral_schema p _ _).bind (fun _ =>
            (failures_schema p _).bind (fun _ => .ok _)))))))
  | attachmentAdded =>
      exact .map _ ((identifier_schema p _ _).bind (fun _ =>
        (optionalIdentifier_schema p _ _).bind (fun _ => (requiredString_schema p _ _).bind (fun _ =>
          (requiredString_schema p _ _).bind (fun _ => (integral_schema p _ _).bind (fun _ =>
            (requiredString_schema p _ _).bind (fun _ => .ok _)))))))
  | scopeFailed =>
      exact .map _ ((required_schema p _ _).bind (fun _ => (pathSegments_schema _ _).bind (fun _ =>
        .ite (.invalid _ _) ((failures_schema p _).bind (fun _ => .ite (.invalid _ _)
          ((optionalString_schema p _ _).bind (fun _ => (optionalString_schema p _ _).bind (fun _ =>
            (hlocation _ _).bind (fun _ => .ok _)))))))))

/-- A text that is checked after it is read. -/
theorem checked_schema {c : Text → Bool} (pointer message : Text) :
    SchemaOnly (requiredString p field at_ >>= fun s =>
      if c s then .ok s else invalid pointer message) :=
  (requiredString_schema p field at_).bind (fun s => .ite (.ok s) (.invalid _ _))

/-- Once the version is supported, the envelope fails with nothing but the schema. -/
theorem readEnvelope_schema {version : Text}
    (hversion : requiredString p (txt "protocolVersion") [] = .ok version)
    (hsupported : readVersion version = .ok ()) : SchemaOnly (readEnvelope p) := by
  have hsequence : SchemaOnly (readSequence p) :=
    (integral_schema p _ _).bind (fun _ => .ite (.invalid _ _) (.ok _))
  have hignorable : SchemaOnly (readIgnorable p) := by
    unfold readIgnorable
    split
    · exact .ok none
    · exact .ok _
    · exact .invalid _ _
  unfold readEnvelope
  rw [hversion]
  change SchemaOnly (readVersion version >>= _)
  rw [hsupported]
  exact (checked_schema p _ _ _ _).bind (fun _ => (identifier_schema p _ _).bind (fun _ =>
    (identifier_schema p _ _).bind (fun _ => (identifier_schema p _ _).bind (fun _ =>
      hsequence.bind (fun _ => (checked_schema p _ _ _ _).bind (fun _ =>
        hignorable.bind (fun _ => .ok _)))))))

end codes

end QeReport.Java

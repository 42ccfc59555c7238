import QeReport.Lib.JsonReading
import QeReport.Protocol.JavaScan
import QeReport.Protocol.TypeScriptScan

/-! # Where the two codecs agree

Both codecs read the event of a text as one scan of it (`scanEvent`), the one with the integers
`JSON.parse` makes of the numbers, the other with those Jackson makes of them.  So they part over
nothing but numbers: a protocol version with a part that is no `int`, and a number that stands
where an integer is read and that only one of them takes, such as `1.0`, `1e3` or `2 ^ 53`
(`decoders_agree_iff`). -/

namespace QeReport

/-! ### The scan of an event -/

/-- What is read of an event behind its envelope. -/
inductive Body where
  | known (payload : Payload)
  | ignored (eventType : Text) (payload : Obj)
  | refused

/-- The object a member is. -/
def objectMember : Option Json → Option Obj
  | some (.obj o) => some o
  | _ => none

section scan
variable (root : Obj)

/-- The payload under the type and the mark of an envelope. -/
def scanBody (eventType : Text) (ignorable : Option Bool) : Scanner Body :=
  match objectMember (memberOf root (txt "payload")) with
  | none => .fail
  | some payload =>
      match knownEventType eventType with
      | some t => .known <$> scanPayload payload t
      | none =>
          pure (if ignorable = some true then .ignored eventType payload else .refused)

/-- An event of a supported version. -/
def scanEvent : Scanner (Envelope × Body) :=
  match req? root (txt "eventType") text?, ignorable? root with
  | some eventType, some ignorable =>
      (fun e body => (e.1, body)) <$> scanEnvelope root <*> scanBody root eventType ignorable
  | _, _ => .fail

end scan

/-- What a codec makes of a scanned event; `g` is how it holds the payload of an unknown type. -/
def decoded (g : Obj → Obj) : Option (Envelope × Body) → Except ProtocolErrorCode (Envelope × Body)
  | none => .error .schemaInvalid
  | some (_, .refused) => .error .unsupportedEventType
  | some (envelope, .ignored eventType payload) => .ok (envelope, .ignored eventType (g payload))
  | some (envelope, .known payload) => .ok (envelope, .known payload)

/-- An event that is read, its empty collections left out, or the code it is refused with. -/
def seen : Read AnyEvent → Except ProtocolErrorCode (Envelope × Body)
  | .error e => .error e.code
  | .ok (.known e) => .ok (e.toEnvelope, .known e.payload.normal)
  | .ok (.unknown u) => .ok (u.toEnvelope, .ignored u.eventType u.payload)

/-- The way both codecs go from the envelope to the event. -/
def eventOf (envelope : Read (Envelope × Text)) (payload : Option Obj)
    (readPayload : EventType → Obj → Read Payload) : Read AnyEvent := do
  let (envelope, eventType) ← envelope
  match payload with
  | some payload =>
      match knownEventType eventType with
      | some t => (fun p => .known ⟨envelope, p⟩) <$> readPayload t payload
      | none =>
          if envelope.ignorable = some true then .ok (.unknown ⟨envelope, eventType, payload⟩)
          else .error ⟨.unsupportedEventType,
            txt "event type " ++ eventType ++ txt " is not known and not marked ignorable",
            some (txt "/eventType")⟩
  | none => invalid (txt "/payload") (txt "must be an object")

theorem scanEnvelope_parts {root : Obj} {answer : IntField → Option ℤ} {envelope : Envelope}
    {eventType : Text} (h : (scanEnvelope root).run answer = some (envelope, eventType)) :
    req? root (txt "eventType") text? = some eventType ∧
      ignorable? root = some envelope.ignorable := by
  unfold scanEnvelope at h
  simp only [Scan.run_seq, Scan.run_map, Scan.run_lift] at h
  generalize req? root (txt "protocolVersion") text? = a at h
  generalize req? root (txt "eventId") identifier? = b at h
  generalize req? root (txt "runId") identifier? = c at h
  generalize req? root (txt "sessionId") identifier? = d at h
  generalize (req root (txt "sequence") (scanInt .positive)).run answer = e at h
  generalize (req? root (txt "occurredAt") text?).filter isTimestamp = g at h
  cases ht : (req? root (txt "eventType") text?).filter isEventTypeName with
  | none =>
      rw [ht] at h
      cases a <;> cases h
  | some t =>
      rw [ht] at h
      have htype := (Option.filter_eq_some_iff.mp ht).1
      cases hi : ignorable? root with
      | none =>
          rw [hi, seq_none] at h
          cases h
      | some ignorable =>
          rw [hi] at h
          cases a <;> cases b <;> cases c <;> cases d <;> cases e <;> cases g <;> cases h
          exact ⟨htype, rfl⟩

theorem ok_of_toOption {α : Type} {r : Read α} {a : α} (h : r.toOption = some a) : r = .ok a := by
  cases r with
  | error e => cases h
  | ok b => exact congrArg Except.ok (Option.some.inj h)

section assembled
variable {root : Obj} {int : JsNumber → Option ℤ} {g : Obj → Obj} {envelope : Read (Envelope × Text)}
  {readPayload : EventType → Obj → Read Payload}

/-- A codec that reads envelopes and payloads as the scan does reads events as the scan does. -/
theorem seen_eventOf (henvelope : envelope.toOption = (scanEnvelope root).run (answers int))
    (hschema : SchemaOnly envelope)
    (hpayload : ∀ t o, (readPayload t (g o)).toOption.map Payload.normal =
      (scanPayload o t).run (answers int))
    (hpayloadSchema : ∀ t o, SchemaOnly (readPayload t o)) :
    seen (eventOf envelope ((objectMember (memberOf root (txt "payload"))).map g) readPayload) =
      decoded g ((scanEvent root).run (answers int)) := by
  cases hread : envelope with
  | error e =>
      rw [hread] at henvelope hschema
      have hnone : (scanEvent root).run (answers int) = none := by
        unfold scanEvent
        split
        · rw [Scan.run_seq, Scan.run_map, ← henvelope]
          rfl
        · rfl
      rw [hnone]
      exact congrArg Except.error (hschema e rfl)
  | ok r =>
      obtain ⟨envelope, eventType⟩ := r
      rw [hread] at henvelope
      obtain ⟨htype, hignorable⟩ := scanEnvelope_parts henvelope.symm
      have hrun : (scanEvent root).run (answers int) =
          ((scanBody root eventType envelope.ignorable).run (answers int)).map
            (fun body => (envelope, body)) := by
        unfold scanEvent
        rw [htype, hignorable]
        dsimp only
        rw [Scan.run_seq, Scan.run_map, ← henvelope]
        cases (scanBody root eventType envelope.ignorable).run (answers int) <;> rfl
      rw [hrun]
      unfold eventOf scanBody
      simp only [bind, Except.bind]
      cases objectMember (memberOf root (txt "payload")) with
      | none => rfl
      | some payload =>
          dsimp only [Option.map_some]
          cases knownEventType eventType with
          | none =>
              dsimp only
              split_ifs
              · rfl
              · rfl
          | some t =>
              have hp := hpayload t payload
              have hs := hpayloadSchema t (g payload)
              dsimp only
              rw [Scan.run_map, ← hp]
              cases hr : readPayload t (g payload) with
              | error e => exact congrArg Except.error (hs e hr)
              | ok p => rfl

end assembled

/-! ### The two codecs -/

/-- `parseEvent`, with `JSON.parse` as a parameter. -/
def parseEvent (parse : Text → Except Text Json) (json : Text) : Read AnyEvent :=
  match parse json with
  | .error message => .error ⟨.malformedJson, txt "not JSON: " ++ message, none⟩
  | .ok root => eventFromObject root

section events
variable (root : Obj)

theorem objectMember_asDoubles (v : Option Json) :
    objectMember (v.map asDoubles) = (objectMember v).map asDoublesMembers := by
  cases v with
  | none => rfl
  | some v => cases v <;> rfl

theorem eventFromObject_eventOf : eventFromObject (.obj (asDoublesMembers root)) =
    eventOf (readEnvelope (asDoublesMembers root))
      ((objectMember (memberOf root (txt "payload"))).map asDoublesMembers) readPayload := by
  rw [← objectMember_asDoubles, ← memberOf_asDoubles]
  unfold eventFromObject eventOf
  dsimp only
  congr 1
  funext r
  obtain ⟨envelope, eventType⟩ := r
  cases memberOf (asDoublesMembers root) (txt "payload") with
  | none => rfl
  | some v => cases v <;> rfl

theorem Java.readRoot_eventOf : Java.readRoot (.obj root) =
    eventOf (Java.readEnvelope (.obj root)) ((objectMember (memberOf root (txt "payload"))).map id)
      (fun t o => Java.readPayload t (.obj o)) := by
  have hobject : Java.isObject (.obj root) = true := rfl
  unfold Java.readRoot eventOf
  rw [if_pos hobject, Java.get_obj, Option.map_id, id_eq]
  congr 1
  funext r
  obtain ⟨envelope, eventType⟩ := r
  unfold present
  cases memberOf root (txt "payload") with
  | none => rfl
  | some v => cases v <;> rfl

variable {root} {version : Text}

theorem seen_eventFromObject (hversion : req? root (txt "protocolVersion") text? = some version)
    (hsupported : readVersion version = .ok ()) :
    seen (eventFromObject (.obj (asDoublesMembers root))) =
      decoded asDoublesMembers ((scanEvent root).run parsed) := by
  have hok : requiredString (asDoublesMembers root) (txt "protocolVersion") [] = .ok version :=
    ok_of_toOption (requiredString_req?.trans hversion)
  rw [eventFromObject_eventOf]
  exact seen_eventOf (readEnvelope_scan hversion hsupported)
    (readEnvelope_schema _ hok hsupported) (fun t _ => readPayload_scan t)
    (fun t o => readPayload_schema o t)

theorem Java.seen_readRoot (hversion : req? root (txt "protocolVersion") text? = some version)
    (hsupported : Java.readVersion version = .ok ()) :
    seen (Java.readRoot (.obj root)) = decoded id ((scanEvent root).run Java.longs) := by
  have hok : Java.requiredString (.obj root) (txt "protocolVersion") [] = .ok version :=
    ok_of_toOption (Java.requiredString_req?.trans hversion)
  rw [Java.readRoot_eventOf]
  exact seen_eventOf (Java.readEnvelope_scan hversion hsupported)
    (Java.readEnvelope_schema _ hok hsupported) (fun t _ => Java.readPayload_scan t)
    (fun t o => Java.readPayload_schema (.obj o) t)

/-- A check that fails ends the reading. -/
theorem bind_error {α β : Type} {x : Read α} {f : α → Read Unit} {k : α → Read β} {e : ProtocolError}
    (h : x >>= f = .error e) : (x >>= fun a => f a >>= fun _ => k a) = .error e := by
  cases x with
  | error e' => exact congrArg Except.error (Except.error.inj h)
  | ok a =>
      change f a = .error e at h
      change (f a >>= fun _ => k a) = .error e
      rw [h]
      rfl

/-- What is seen of an event, by what its version is. -/
def byVersion (version : Option ParsedVersion) (rest : Except ProtocolErrorCode (Envelope × Body)) :
    Except ProtocolErrorCode (Envelope × Body) :=
  match version with
  | none => .error .schemaInvalid
  | some v => if isSupportedProtocolVersion v then rest else .error .unsupportedProtocolVersion

theorem seen_byVersion : seen (eventFromObject (.obj (asDoublesMembers root))) =
    byVersion ((req? root (txt "protocolVersion") text?).bind parseProtocolVersion)
      (decoded asDoublesMembers ((scanEvent root).run parsed)) := by
  have herror : ∀ e, (requiredString (asDoublesMembers root) (txt "protocolVersion") [] >>=
      readVersion) = .error e →
      seen (eventFromObject (.obj (asDoublesMembers root))) = .error e.code := by
    intro e h
    have henvelope : readEnvelope (asDoublesMembers root) = .error e := bind_error h
    rw [eventFromObject_eventOf, henvelope]
    rfl
  cases hraw : req? root (txt "protocolVersion") text? with
  | none =>
      have hnone : (requiredString (asDoublesMembers root) (txt "protocolVersion") []).toOption =
          none := requiredString_req?.trans hraw
      cases hr : requiredString (asDoublesMembers root) (txt "protocolVersion") [] with
      | ok version =>
          rw [hr] at hnone
          cases hnone
      | error e =>
          rw [herror e (by rw [hr]; rfl), requiredString_schema _ _ _ e hr]
          rfl
  | some version =>
      have hok : requiredString (asDoublesMembers root) (txt "protocolVersion") [] = .ok version :=
        ok_of_toOption (requiredString_req?.trans hraw)
      have hbind : (requiredString (asDoublesMembers root) (txt "protocolVersion") [] >>=
          readVersion) = readVersion version := by
        rw [hok]
        rfl
      rw [Option.bind_some]
      unfold byVersion
      cases hv : parseProtocolVersion version with
      | none => exact herror _ (by rw [hbind, readVersion, hv]; rfl)
      | some v =>
          dsimp only
          split_ifs with hsupported
          · exact seen_eventFromObject hraw (by rw [readVersion, hv]; exact if_pos hsupported)
          · exact herror _ (by rw [hbind, readVersion, hv]; exact if_neg hsupported)

/-- A version whose parts are `int`s. -/
def fitsInt (v : ParsedVersion) : Bool :=
  v.major < 2 ^ 31 && v.minor < 2 ^ 31 && v.patch < 2 ^ 31

theorem Java.seen_byVersion : seen (Java.readRoot (.obj root)) =
    byVersion (((req? root (txt "protocolVersion") text?).bind parseProtocolVersion).filter fitsInt)
      (decoded id ((scanEvent root).run Java.longs)) := by
  have herror : ∀ e, (Java.requiredString (.obj root) (txt "protocolVersion") [] >>=
      Java.readVersion) = .error e → seen (Java.readRoot (.obj root)) = .error e.code := by
    intro e h
    have henvelope : Java.readEnvelope (.obj root) = .error e := bind_error h
    rw [Java.readRoot_eventOf, henvelope]
    rfl
  cases hraw : req? root (txt "protocolVersion") text? with
  | none =>
      have hnone : (Java.requiredString (.obj root) (txt "protocolVersion") []).toOption = none :=
        Java.requiredString_req?.trans hraw
      cases hr : Java.requiredString (.obj root) (txt "protocolVersion") [] with
      | ok version =>
          rw [hr] at hnone
          cases hnone
      | error e =>
          rw [herror e (by rw [hr]; rfl), Java.requiredString_schema _ _ _ e hr]
          rfl
  | some version =>
      have hok : Java.requiredString (.obj root) (txt "protocolVersion") [] = .ok version :=
        ok_of_toOption (Java.requiredString_req?.trans hraw)
      have hbind : (Java.requiredString (.obj root) (txt "protocolVersion") [] >>=
          Java.readVersion) = Java.readVersion version := by
        rw [hok]
        rfl
      have hparse : (parseProtocolVersion version).filter fitsInt = Java.parseVersion version := rfl
      rw [Option.bind_some, hparse]
      unfold byVersion
      cases hv : Java.parseVersion version with
      | none => exact herror _ (by rw [hbind, Java.readVersion, hv]; rfl)
      | some v =>
          dsimp only
          split_ifs with hsupported
          · exact Java.seen_readRoot hraw (by rw [Java.readVersion, hv]; exact if_pos hsupported)
          · exact herror _ (by rw [hbind, Java.readVersion, hv]; exact if_neg hsupported)

end events

/-! ### Agreement -/

/-- What the two codecs make of one text corresponds: the same code, or the same envelope and the
same payload, absent and empty collections identified. -/
def Agree : Read AnyEvent → Read AnyEvent → Prop
  | .error e, .error e' => e.code = e'.code
  | .ok (.known e), .ok (.known e') =>
      e.toEnvelope = e'.toEnvelope ∧ e.payload.normal = e'.payload.normal
  | .ok (.unknown u), .ok (.unknown u') =>
      u.toEnvelope = u'.toEnvelope ∧ u.eventType = u'.eventType ∧
        u.payload = asDoublesMembers u'.payload
  | _, _ => False

/-- The objects the two codecs read alike: the version fits, and where everything but the numbers
is in order, the one takes every integer exactly when the other does. -/
def ReadAlike (root : Obj) : Prop :=
  match (req? root (txt "protocolVersion") text?).bind parseProtocolVersion with
  | none => True
  | some v =>
      if isSupportedProtocolVersion v then
        (scanEvent root).isSome = true →
          ((∀ q ∈ (scanEvent root).asked, (parsed q).isSome = true) ↔
            fitsInt v = true ∧ ∀ q ∈ (scanEvent root).asked, (Java.longs q).isSome = true)
      else fitsInt v = true

/-- The payload of an unknown type as `JSON.parse` holds it. -/
def held : Except ProtocolErrorCode (Envelope × Body) → Except ProtocolErrorCode (Envelope × Body)
  | .ok (envelope, .ignored eventType payload) =>
      .ok (envelope, .ignored eventType (asDoublesMembers payload))
  | r => r

theorem held_decoded (x : Option (Envelope × Body)) :
    held (decoded id x) = decoded asDoublesMembers x := by
  rcases x with _ | ⟨envelope, _ | _ | _⟩ <;> rfl

theorem agree_iff (r r' : Read AnyEvent) : Agree r r' ↔ seen r = held (seen r') := by
  rcases r with e | e | u
  · rcases r' with e' | e' | u'
    · exact ⟨fun h => congrArg Except.error h, fun h => Except.error.inj h⟩
    · exact ⟨nofun, nofun⟩
    · exact ⟨nofun, nofun⟩
  · rcases r' with e' | e' | u'
    · exact ⟨nofun, nofun⟩
    · simp [Agree, seen, held]
    · exact ⟨nofun, fun h => by simp [seen, held] at h⟩
  · rcases r' with e' | e' | u'
    · exact ⟨nofun, nofun⟩
    · exact ⟨nofun, fun h => by simp [seen, held] at h⟩
    · simp [Agree, seen, held]

theorem decoded_eq_schemaInvalid (g : Obj → Obj) (x : Option (Envelope × Body)) :
    decoded g x = .error .schemaInvalid ↔ x.isSome = false := by
  rcases x with _ | ⟨envelope, _ | _ | _⟩ <;> simp [decoded]

/-- Two readings of one scan that do not contradict each other. -/
theorem decoded_eq_iff {g : Obj → Obj} {x y : Option (Envelope × Body)}
    (h : ∀ a b, x = some a → y = some b → a = b) :
    decoded g x = decoded g y ↔ (x.isSome = true ↔ y.isSome = true) := by
  cases x with
  | none =>
      have hx : decoded g none = .error .schemaInvalid := rfl
      rw [hx, eq_comm, decoded_eq_schemaInvalid]
      simp
  | some a =>
      cases y with
      | none =>
          have hy : decoded g none = .error .schemaInvalid := rfl
          rw [hy, decoded_eq_schemaInvalid]
          simp
      | some b =>
          rw [h a b rfl rfl]
          simp

/-- A lexeme is no two integers to the two codecs. -/
theorem parsed_long {n : JsNumber} {i j : ℤ} (hi : n.parsed? = some i) (hj : Java.long? n = some j) :
    i = j := by
  unfold Java.long? at hj
  split_ifs at hj with h
  rw [JsNumber.parsed?_of_plain h.1] at hi
  split_ifs at hi
  rw [← Option.some.inj hi, ← Option.some.inj hj]

theorem answers_agree {q : IntField} {i j : ℤ} (hi : parsed q = some i) (hj : Java.longs q = some j) :
    i = j :=
  parsed_long (Option.filter_eq_some_iff.mp hi).1 (Option.filter_eq_some_iff.mp hj).1

theorem held_byVersion (version : Option ParsedVersion) (x : Option (Envelope × Body)) :
    held (byVersion version (decoded id x)) = byVersion version (decoded asDoublesMembers x) := by
  unfold byVersion
  cases version with
  | none => rfl
  | some v =>
      dsimp only
      split_ifs
      · exact held_decoded x
      · rfl

/-- The two readings of an object correspond exactly when it is read alike. -/
theorem agree_readAlike (root : Obj) :
    Agree (eventFromObject (.obj (asDoublesMembers root))) (Java.readRoot (.obj root)) ↔
      ReadAlike root := by
  rw [agree_iff, seen_byVersion, Java.seen_byVersion, held_byVersion]
  unfold ReadAlike
  cases (req? root (txt "protocolVersion") text?).bind parseProtocolVersion with
  | none => exact ⟨fun _ => trivial, fun _ => rfl⟩
  | some v =>
      have hparsed := Scan.run_isSome parsed (scanEvent root)
      have hlongs := Scan.run_isSome Java.longs (scanEvent root)
      have hsame : ∀ a b, (scanEvent root).run parsed = some a →
          (scanEvent root).run Java.longs = some b → a = b :=
        fun a b => Scan.run_unique (fun _ _ _ _ => answers_agree)
      cases hfits : fitsInt v with
      | false =>
          have hfilter : (some v).filter fitsInt = none := by simp [Option.filter, hfits]
          rw [hfilter]
          unfold byVersion
          dsimp only
          split_ifs
          · rw [decoded_eq_schemaInvalid, Bool.eq_false_iff, ne_eq, hparsed, hfits]
            simp only [Bool.false_eq_true, false_and, iff_false, not_and]
          · simp [hfits]
      | true =>
          have hfilter : (some v).filter fitsInt = some v := by simp [Option.filter, hfits]
          rw [hfilter]
          unfold byVersion
          dsimp only
          split_ifs
          · rw [decoded_eq_iff hsame, hparsed, hlongs, hfits]
            tauto
          · simp [hfits]

/-- For every text both parsers read as one object, the two codecs agree exactly when it is read
alike. -/
theorem decoders_agree_iff {parse readTree : Text → Except Text Json} {text : Text} {root : Obj}
    (hparse : parse text = .ok (asDoubles (.obj root))) (htree : readTree text = .ok (.obj root)) :
    Agree (parseEvent parse text) (Java.read readTree text) ↔ ReadAlike root := by
  unfold parseEvent Java.read
  rw [hparse, htree]
  exact agree_readAlike root

namespace Sample

/-- Jackson's tree of a text, its numbers named by their lexemes. -/
def readTree (t : Text) : Except Text Json := ((parseJson t).map Except.ok).getD (.error [])

/-- `JSON.parse`, with numbers as doubles. -/
def parse (t : Text) : Except Text Json := asDoubles <$> readTree t

theorem readTree_jsonText (v : Json) : readTree (jsonText v) = .ok v := by
  rw [readTree, parseJson_jsonText]
  rfl

theorem parse_jsonText (v : Json) : parse (jsonText v) = .ok (asDoubles v) := by
  rw [parse, readTree_jsonText]
  rfl

/-- The event that ends a run, with the given number as its sequence. -/
def runFinished (sequence : JsNumber) : Obj :=
  [(txt "protocolVersion", .str (txt "0.3.0")), (txt "eventType", .str (txt "run.finished")),
    (txt "eventId", .str (txt "e1")), (txt "runId", .str (txt "r1")),
    (txt "sessionId", .str (txt "s1")), (txt "sequence", .num sequence),
    (txt "occurredAt", .str (txt "2024-01-01T00:00:00Z")), (txt "payload", .obj [])]

theorem version_runFinished (n : JsNumber) :
    (req? (runFinished n) (txt "protocolVersion") text?).bind parseProtocolVersion =
      some ⟨0, 3, 0⟩ := by
  have hversion : req? (runFinished n) (txt "protocolVersion") text? = some (txt "0.3.0") := rfl
  rw [hversion]
  decide

/-- The one number of the event is its sequence. -/
theorem scan_runFinished (n : JsNumber) : (scanEvent (runFinished n)).isSome = true ∧
    (scanEvent (runFinished n)).asked = [⟨n, .positive⟩] :=
  ⟨rfl, rfl⟩

theorem readAlike_runFinished (n : JsNumber) : ReadAlike (runFinished n) ↔
    ((parsed ⟨n, .positive⟩).isSome = true ↔ (Java.longs ⟨n, .positive⟩).isSome = true) := by
  have hfits : fitsInt ⟨0, 3, 0⟩ = true := by decide
  have hsupported : isSupportedProtocolVersion ⟨0, 3, 0⟩ = true := rfl
  obtain ⟨hscan, hasked⟩ := scan_runFinished n
  unfold ReadAlike
  rw [version_runFinished]
  simp only [hsupported, hfits, hscan, hasked, if_true, true_and, forall_const, List.mem_singleton,
    forall_eq]

/-- `1.0` as it stands in a text. -/
def onePointZero : JsNumber := ⟨txt "1.0", by decide⟩

theorem onePointZero_value : onePointZero.value = ((1 : ℤ) : ℚ) := by
  decide +kernel

/-- `JSON.parse` reads `1.0` as the integer one, and Jackson as no integer. -/
theorem onePointZero_parsed : parsed ⟨onePointZero, .positive⟩ = some 1 ∧
    Java.longs ⟨onePointZero, .positive⟩ = none := by
  refine ⟨?_, by decide⟩
  have hint : onePointZero.parsed? = some 1 := by
    unfold JsNumber.parsed?
    rw [onePointZero_value, double_of_lt (by decide)]
    decide
  unfold parsed answers
  rw [hint]
  rfl

end Sample

/-- A sequence number written `1`: both codecs read the event. -/
theorem decoders_agree_iff_plain : ReadAlike (Sample.runFinished (.ofInt 1)) ∧
    Agree (parseEvent Sample.parse (jsonText (.obj (Sample.runFinished (.ofInt 1)))))
      (Java.read Sample.readTree (jsonText (.obj (Sample.runFinished (.ofInt 1))))) := by
  have hparsed : parsed ⟨.ofInt 1, .positive⟩ = some 1 := by
    unfold parsed answers
    rw [JsNumber.parsed?_ofInt, if_pos (by decide)]
    rfl
  have hlongs : Java.longs ⟨.ofInt 1, .positive⟩ = some 1 := by decide
  have halike : ReadAlike (Sample.runFinished (.ofInt 1)) := by
    rw [Sample.readAlike_runFinished, hparsed, hlongs]
  refine ⟨halike, ?_⟩
  rw [decoders_agree_iff (Sample.parse_jsonText _) (Sample.readTree_jsonText _)]
  exact halike

/-- A sequence number written `1.0`: the one codec reads the event, the other refuses it. -/
theorem decoders_part :
    ¬ Agree (parseEvent Sample.parse (jsonText (.obj (Sample.runFinished Sample.onePointZero))))
      (Java.read Sample.readTree (jsonText (.obj (Sample.runFinished Sample.onePointZero)))) := by
  unfold parseEvent Java.read
  rw [Sample.parse_jsonText, Sample.readTree_jsonText]
  change ¬ Agree (eventFromObject (.obj (asDoublesMembers _))) (Java.readRoot (.obj _))
  obtain ⟨hparsed, hlongs⟩ := Sample.onePointZero_parsed
  rw [agree_readAlike, Sample.readAlike_runFinished, hparsed, hlongs]
  decide

end QeReport

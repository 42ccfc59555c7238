import QeReport.Protocol.Agreement

/-! # Objects both codecs read alike

An object whose numbers are safe integers, written as the codecs write them, is read alike by
both (`agree_of_plain`): whatever the scan asks, it asks of a number of the object. -/

namespace QeReport

/-! ### The numbers of a value -/

section numbers
variable (p : JsNumber → Bool)

mutual

/-- Every number of the value passes the test. -/
def allNumbers : Json → Bool
  | .num n => p n
  | .arr items => allNumbersItems items
  | .obj members => allNumbersMembers members
  | _ => true

def allNumbersItems : List Json → Bool
  | [] => true
  | v :: vs => allNumbers v && allNumbersItems vs

def allNumbersMembers : List (Text × Json) → Bool
  | [] => true
  | (_, v) :: ms => allNumbers v && allNumbersMembers ms

end

variable {p}

theorem allNumbers_item {v : Json} {items : List Json} (h : allNumbersItems p items = true)
    (hv : v ∈ items) : allNumbers p v = true := by
  induction items with
  | nil => cases hv
  | cons w items ih =>
      rw [allNumbersItems, Bool.and_eq_true] at h
      rcases List.mem_cons.mp hv with rfl | hv
      · exact h.1
      · exact ih h.2 hv

theorem allNumbers_member {m : Text × Json} {ms : List (Text × Json)}
    (h : allNumbersMembers p ms = true) (hm : m ∈ ms) : allNumbers p m.2 = true := by
  induction ms with
  | nil => cases hm
  | cons w ms ih =>
      rw [allNumbersMembers, Bool.and_eq_true] at h
      rcases List.mem_cons.mp hm with rfl | hm
      · exact h.1
      · exact ih h.2 hm

theorem allNumbers_memberOf {o : Obj} {field : Text} {v : Json}
    (h : allNumbersMembers p o = true) (hv : memberOf o field = some v) : allNumbers p v = true := by
  unfold memberOf at hv
  obtain ⟨m, hm, rfl⟩ := Option.map_eq_some_iff.mp hv
  exact allNumbers_member h (List.mem_of_find?_eq_some hm)

theorem allNumbers_present {o : Obj} {field : Text} {v : Json} (h : allNumbersMembers p o = true)
    (hv : present o field = some v) : allNumbers p v = true :=
  allNumbers_memberOf h (memberOf_of_present hv)

end numbers

/-! ### What a scan asks -/

/-- Every number the scan asks about passes the test. -/
def Asks (p : JsNumber → Bool) {α : Type} (s : Scanner α) : Prop :=
  ∀ q ∈ s.asked, p q.number = true

namespace Asks
variable {p : JsNumber → Bool} {α β : Type} {o : Obj} {field : Text}

theorem fail : Asks p (.fail : Scanner α) := nofun

theorem pure (a : α) : Asks p (Pure.pure a : Scanner α) := nofun

theorem lift (x : Option α) : Asks p (.lift x : Scanner α) := fun _ h => (Scan.mem_asked_lift h).elim

theorem seq {f : Scanner (α → β)} {x : Scanner α} (hf : Asks p f) (hx : Asks p x) :
    Asks p (f <*> x) := by
  intro q hq
  rcases Scan.mem_asked_seq hq with hq | hq
  · exact hf q hq
  · exact hx q hq

theorem map {g : α → β} {x : Scanner α} (hx : Asks p x) : Asks p (g <$> x) :=
  fun q hq => hx q (Scan.mem_asked_map hq)

theorem scanInt (range : IntRange) {v : Json} (h : allNumbers p v = true) :
    Asks p (scanInt range v) := by
  cases v with
  | num n =>
      intro q hq
      obtain rfl := List.mem_singleton.mp hq
      exact h
  | _ => exact fail

theorem req {scan : Json → Scanner α} (h : allNumbersMembers p o = true)
    (hscan : ∀ v, allNumbers p v = true → Asks p (scan v)) : Asks p (req o field scan) := by
  unfold QeReport.req
  cases hv : present o field with
  | none => exact fail
  | some v => exact hscan v (allNumbers_present h hv)

theorem opt {scan : Json → Scanner α} (h : allNumbersMembers p o = true)
    (hscan : ∀ v, allNumbers p v = true → Asks p (scan v)) : Asks p (opt o field scan) := by
  unfold QeReport.opt
  cases hv : present o field with
  | none => exact pure none
  | some v => exact map (hscan v (allNumbers_present h hv))

theorem scanObject {scan : Obj → Scanner α}
    (hscan : ∀ o, allNumbersMembers p o = true → Asks p (scan o)) {v : Json}
    (h : allNumbers p v = true) : Asks p (scanObject scan v) := by
  cases v with
  | obj o => exact hscan o h
  | _ => exact fail

theorem scanItems {scan : Json → Scanner α} (hscan : ∀ v, allNumbers p v = true → Asks p (scan v))
    {v : Json} (h : allNumbers p v = true) : Asks p (scanItems scan v) := by
  cases v with
  | arr items =>
      intro q hq
      obtain ⟨v, hv, hq⟩ := Scan.mem_asked_list hq
      exact hscan v (allNumbers_item h hv) q hq
  | _ => exact fail

end Asks

section scans
variable {p : JsNumber → Bool} {o : Obj}

theorem scanLocation_asks (o : Obj) (h : allNumbersMembers p o = true) : Asks p (scanLocation o) :=
  .seq (.seq (.map (.lift _)) (.opt h (fun _ => .scanInt _))) (.opt h (fun _ => .scanInt _))

theorem location_asks (h : allNumbersMembers p o = true) :
    Asks p (opt o (txt "location") (scanObject scanLocation)) :=
  .opt h (fun _ => .scanObject scanLocation_asks)

theorem scanFailures_asks (h : allNumbersMembers p o = true) : Asks p (scanFailures o) := by
  refine .map (.opt h (fun _ => .scanItems (fun _ => .scanObject (fun f hf => ?_))))
  exact .seq (.seq (.seq (.seq (.map (.lift _)) (.lift _)) (.lift _)) (.lift _)) (location_asks hf)

theorem scanTest_asks (o : Obj) (h : allNumbersMembers p o = true) : Asks p (scanTest o) :=
  .seq (.seq (.seq (.seq (.seq (.seq (.map (.lift _)) (.lift _)) (.lift _)) (.lift _))
    (location_asks h)) (.lift _)) (.lift _)

theorem scanPayload_asks (t : EventType) (h : allNumbersMembers p o = true) :
    Asks p (scanPayload o t) := by
  cases t with
  | sessionStarted =>
      exact .seq (.seq (.seq (.seq (.seq (.map (.lift _)) (.lift _)) (.lift _)) (.lift _)) (.lift _))
        (.lift _)
  | sessionFinished => exact .seq (.map (.lift _)) (scanFailures_asks h)
  | runFinished => exact .pure _
  | attemptStarted =>
      exact .seq (.seq (.map (.req h (fun _ => .scanInt _))) (.lift _))
        (.req h (fun _ => .scanObject scanTest_asks))
  | attemptFinished =>
      exact .seq (.seq (.seq (.seq (.seq (.map (.lift _)) (.lift _)) (.lift _)) (.lift _))
        (.opt h (fun _ => .scanInt _))) (scanFailures_asks h)
  | stepStarted =>
      exact .seq (.seq (.seq (.seq (.seq (.map (.lift _)) (.lift _)) (.lift _)) (.lift _)) (.lift _))
        (location_asks h)
  | stepFinished =>
      exact .seq (.seq (.seq (.seq (.seq (.map (.lift _)) (.lift _)) (.lift _)) (.lift _))
        (.opt h (fun _ => .scanInt _))) (scanFailures_asks h)
  | attachmentAdded =>
      exact .seq (.seq (.seq (.seq (.seq (.map (.lift _)) (.lift _)) (.lift _)) (.lift _))
        (.req h (fun _ => .scanInt _))) (.lift _)
  | scopeFailed =>
      unfold scanPayload
      split_ifs
      · exact .seq (.seq (.seq (.seq (.map (.lift _)) (.lift _)) (.lift _)) (location_asks h))
          (scanFailures_asks h)
      · exact .fail

theorem scanEnvelope_asks (h : allNumbersMembers p o = true) : Asks p (scanEnvelope o) :=
  .seq (.seq (.seq (.seq (.seq (.seq (.seq (.map (.lift _)) (.lift _)) (.lift _)) (.lift _))
    (.lift _)) (.req h (fun _ => .scanInt _))) (.lift _)) (.lift _)

theorem scanBody_asks (eventType : Text) (ignorable : Option Bool)
    (h : allNumbersMembers p o = true) : Asks p (scanBody o eventType ignorable) := by
  unfold scanBody
  cases hm : memberOf o (txt "payload") with
  | none => exact .fail
  | some v =>
      have hv := allNumbers_memberOf h hm
      cases v with
      | obj payload =>
          dsimp only [objectMember]
          cases knownEventType eventType with
          | none => exact .pure _
          | some t => exact .map (scanPayload_asks t hv)
      | _ => exact .fail

/-- Whatever the scan of an event asks, it asks of a number of the event. -/
theorem scanEvent_asks (h : allNumbersMembers p o = true) : Asks p (scanEvent o) := by
  unfold scanEvent
  split
  · exact .seq (.map (scanEnvelope_asks h)) (scanBody_asks _ _ h)
  · exact .fail

end scans

/-! ### Safe integers -/

/-- A safe integer, written as one. -/
def isPlainSafe (n : JsNumber) : Bool := n == .ofInt n.integer && n.integer.natAbs ≤ 9007199254740991

theorem isPlainSafe_ofInt (i : ℤ) : isPlainSafe (.ofInt i) = true ↔ isSafe i := by
  simp [isPlainSafe, (JsNumber.plain_ofInt i).2, isSafe]

theorem isPlainSafe_eq {n : JsNumber} (h : isPlainSafe n = true) : ∃ i, isSafe i ∧ n = .ofInt i := by
  rw [isPlainSafe, Bool.and_eq_true, beq_iff_eq, decide_eq_true_eq] at h
  exact ⟨n.integer, h.2, h.1⟩

theorem parsed_of_plain {n : JsNumber} (h : isPlainSafe n = true) (range : IntRange) :
    parsed ⟨n, range⟩ = Java.longs ⟨n, range⟩ := by
  obtain ⟨i, hi, rfl⟩ := isPlainSafe_eq h
  have hlong : Java.long? (.ofInt i) = some i := by
    unfold Java.long?
    rw [(JsNumber.plain_ofInt i).2, if_pos]
    refine ⟨(JsNumber.plain_ofInt i).1, ?_⟩
    unfold isSafe at hi
    omega
  have hparsed : (JsNumber.ofInt i).parsed? = some i := by
    rw [JsNumber.parsed?_ofInt]
    exact if_pos hi
  unfold parsed Java.longs answers
  rw [hparsed, hlong]

section doubles

theorem asDouble_of_plain {n : JsNumber} (h : isPlainSafe n = true) : n.asDouble = n := by
  obtain ⟨i, hi, rfl⟩ := isPlainSafe_eq h
  rw [JsNumber.asDouble, JsNumber.parsed?_ofInt, if_pos (show i.natAbs ≤ 9007199254740991 from hi)]
  rfl

mutual

theorem asDoubles_of_plain : ∀ v : Json, allNumbers isPlainSafe v = true → asDoubles v = v
  | .null, _ => rfl
  | .bool _, _ => rfl
  | .str _, _ => rfl
  | .num n, h => by
      rw [allNumbers] at h
      rw [asDoubles, asDouble_of_plain h]
  | .arr items, h => by
      rw [allNumbers] at h
      rw [asDoubles, asDoublesItems_of_plain items h]
  | .obj ms, h => by
      rw [allNumbers] at h
      rw [asDoubles, asDoublesMembers_of_plain ms h]

theorem asDoublesItems_of_plain :
    ∀ items : List Json, allNumbersItems isPlainSafe items = true → asDoublesItems items = items
  | [], _ => rfl
  | v :: vs, h => by
      rw [allNumbersItems, Bool.and_eq_true] at h
      rw [asDoublesItems, asDoubles_of_plain v h.1, asDoublesItems_of_plain vs h.2]

theorem asDoublesMembers_of_plain :
    ∀ ms : List (Text × Json), allNumbersMembers isPlainSafe ms = true → asDoublesMembers ms = ms
  | [], _ => rfl
  | (k, v) :: ms, h => by
      rw [allNumbersMembers, Bool.and_eq_true] at h
      rw [asDoublesMembers, asDoubles_of_plain v h.1, asDoublesMembers_of_plain ms h.2]

end

end doubles

/-- An object of line 0.3.0 whose numbers are safe integers is read alike. -/
theorem agree_of_plain {root : Obj} (h : allNumbersMembers isPlainSafe root = true)
    (hversion : req? root (txt "protocolVersion") text? = some (txt "0.3.0")) :
    Agree (eventFromObject (.obj root)) (Java.readRoot (.obj root)) := by
  have hagree := agree_readAlike root
  rw [asDoublesMembers_of_plain root h] at hagree
  have hparse : parseProtocolVersion (txt "0.3.0") = some ⟨0, 3, 0⟩ := by decide
  have hfits : fitsInt ⟨0, 3, 0⟩ = true := by decide
  have hsupported : isSupportedProtocolVersion ⟨0, 3, 0⟩ = true := rfl
  refine hagree.mpr ?_
  unfold ReadAlike
  rw [hversion, Option.bind_some, hparse]
  simp only [hsupported, hfits, if_true, true_and]
  intro _
  have hsame : ∀ q ∈ (scanEvent root).asked, parsed q = Java.longs q :=
    fun q hq => parsed_of_plain (scanEvent_asks h q hq) q.range
  constructor
  · intro hall q hq
    rw [← hsame q hq]
    exact hall q hq
  · intro hall q hq
    rw [hsame q hq]
    exact hall q hq

end QeReport

import QeReport.Lib.Sha256
import QeReport.Lib.Utf8
import QeReport.Sdk.JavaSession

/-! # Names of files and directories

Session files and run directories are named from untrusted identifiers: a readable stem that no
path can use, and a short digest that keeps colliding stems apart.  A stem is replaced character by
character, cut, and kept off the device names, in this order, in both bindings.

The names are portable whatever the identifier, the bindings agree on protocol identifiers, and
different digests keep names apart even where only the stems are folded (`names_portable`). -/

namespace QeReport.Sdk

/-! ### The stem -/

/-- `[A-Za-z0-9._-]`. -/
def isStemUnit (u : CodeUnit) : Bool :=
  isAlphaNumeric u || u == unit '.' || u == unit '_' || u == unit '-'

/-- `id.replace(/[^A-Za-z0-9._-]/gu, '_')`: one underscore for each other code point. -/
def replaceUnsafe (id : Text) : Text :=
  (points id).map (fun c => if isStemUnit (Fin.ofNat 65536 c) ∧ c < 65536 then Fin.ofNat 65536 c
    else unit '_')

def maxStem : ℕ := 48

def hashLength : ℕ := 12

/-- The alternatives of `RESERVED_DEVICE`. -/
def devices : List Text :=
  [txt "CON", txt "PRN", txt "AUX", txt "NUL", txt "COM1", txt "COM2", txt "COM3", txt "COM4",
    txt "COM5", txt "COM6", txt "COM7", txt "COM8", txt "COM9", txt "LPT1", txt "LPT2", txt "LPT3",
    txt "LPT4", txt "LPT5", txt "LPT6", txt "LPT7", txt "LPT8", txt "LPT9"]

/-- In any case. -/
def sameName (t d : Text) : Bool := t.map toLowerUnit == d.map toLowerUnit

/-- The text starts with a device name, and what follows the name satisfies `ends`. -/
def startsWithDevice (ends : Text → Bool) (t : Text) : Bool :=
  devices.any (fun d => sameName (t.take d.length) d && ends (t.drop d.length))

/-- `(?:\.|$)`. -/
def dotOrEnd : Text → Bool
  | [] => true
  | u :: _ => u == unit '.'

/-- `RESERVED_DEVICE.test(t)`. -/
def isReservedDevice (t : Text) : Bool := startsWithDevice dotOrEnd t

/-- ``safe = `_${safe.slice(1)}` ``. -/
def underscored (t : Text) : Text := unit '_' :: t.drop 1

/-- `/^[A-Za-z0-9_]/u.test(t)`. -/
def startsPlain : Text → Bool
  | [] => false
  | u :: _ => isAlphaNumeric u || u == unit '_'

/-- `safeStem(id)`. -/
def safeStem (id : Text) : Text :=
  let safe := replaceUnsafe id
  if safe = [] then txt "_"
  else
    let safe := if startsPlain safe then safe else underscored safe
    let safe := safe.take maxStem
    if isReservedDevice safe then underscored safe else safe

/-- `shortHash(id)`. -/
def shortHash (id : Text) : Text := (Sha256.digest (utf8 id)).take hashLength

/-- `runDirectoryName(runId)`. -/
def runDirectoryName (runId : Text) : Text := safeStem runId ++ unit '-' :: shortHash runId

/-- `sessionFileName(sessionId)`. -/
def sessionFileName (sessionId : Text) : Text :=
  safeStem sessionId ++ unit '-' :: (shortHash sessionId ++ txt ".ndjson")

/-! ### The Java binding -/

namespace Java

/-- `(?:\\.|$)`, where `$` also stands before a last line terminator. -/
def dotOrEnd (t : Text) : Bool :=
  QeReport.Sdk.dotOrEnd t || t == [0x0D, 0x0A] || t == [0x0A] || t == [0x0D] || t == [0x85] ||
    t == [0x2028] || t == [0x2029]

/-- `SafeNames.stem(id)`. -/
def stem (id : Text) : Text :=
  let safe := replaceUnsafe id
  if safe = [] then txt "_"
  else
    let safe := if startsPlain safe then safe else underscored safe
    let safe := if safe.length > maxStem then safe.take maxStem else safe
    if startsWithDevice dotOrEnd safe then underscored safe else safe

/-- `SafeNames.hash(id)`. -/
def hash (id : Text) : Text := (Sha256.digest (getBytes id)).take hashLength

/-- The name of a run directory. -/
def runDirectoryName (runId : Text) : Text := stem runId ++ unit '-' :: hash runId

end Java

/-! ### The units of a stem -/

theorem mem_replaceUnsafe {id : Text} {u : CodeUnit} (h : u ∈ replaceUnsafe id) :
    isStemUnit u = true := by
  obtain ⟨c, -, rfl⟩ := List.mem_map.mp h
  split_ifs with hc
  · exact hc.1
  · decide

theorem mem_underscored {t : Text} (h : ∀ u ∈ t, isStemUnit u = true) :
    ∀ u ∈ underscored t, isStemUnit u = true :=
  List.forall_mem_cons.mpr ⟨by decide, fun u hu => h u (List.mem_of_mem_drop hu)⟩

theorem length_underscored {t : Text} (h : t ≠ []) : (underscored t).length = t.length := by
  have hpos := List.length_pos_iff.mpr h
  rw [underscored, List.length_cons, List.length_drop]
  omega

theorem startsPlain_underscored (t : Text) : startsPlain (underscored t) = true := rfl

theorem underscored_ne_nil (t : Text) : underscored t ≠ [] := List.cons_ne_nil _ _

/-- The start of a name: what a path or an option parser looks at first. -/
theorem startsPlain_take {t : Text} (h : startsPlain t = true) : startsPlain (t.take maxStem) = true := by
  cases t with
  | nil => cases h
  | cons u t => exact h

/-- No device name starts with an underscore. -/
theorem not_isReservedDevice_underscored (t : Text) : isReservedDevice (underscored t) = false := by
  have hfirst : devices.all (fun d => !sameName (d.take 1) (txt "_") && d != []) = true := by
    decide
  rw [isReservedDevice, startsWithDevice, List.any_eq_false]
  intro d hd hname
  have hone := List.all_eq_true.mp hfirst d hd
  rw [Bool.and_eq_true, sameName, beq_iff_eq] at hname
  cases d with
  | nil => simp at hone
  | cons u d =>
      have hhead := (List.cons.inj hname.1).1
      simp only [List.take_succ_cons, List.take_zero, Bool.and_eq_true, Bool.not_eq_true'] at hone
      have hsame : sameName [u] (txt "_") = true := by
        rw [sameName, beq_iff_eq]
        exact congrArg (fun v => [v]) hhead.symm
      rw [hsame] at hone
      exact absurd hone.1 (by decide)

/-- What the stem of any identifier is like. -/
structure StemFits (t : Text) : Prop where
  length : t.length ≤ maxStem
  units : ∀ u ∈ t, isStemUnit u = true
  starts : startsPlain t = true
  device : isReservedDevice t = false

/-- The last step: a cut stem that starts plainly is kept off the device names. -/
theorem stemFits_of_cut {t : Text} (hunits : ∀ u ∈ t, isStemUnit u = true)
    (hstarts : startsPlain t = true) :
    StemFits (if isReservedDevice (t.take maxStem) then underscored (t.take maxStem)
      else t.take maxStem) := by
  have hplain := startsPlain_take hstarts
  have hcut : ∀ u ∈ t.take maxStem, isStemUnit u = true := fun u hu =>
    hunits u (List.mem_of_mem_take hu)
  have hlength : (t.take maxStem).length ≤ maxStem := List.length_take_le _ _
  split_ifs with hdevice
  · have hne : t.take maxStem ≠ [] := by
      intro hnil
      rw [hnil] at hplain
      cases hplain
    refine ⟨?_, mem_underscored hcut, rfl, not_isReservedDevice_underscored _⟩
    rw [length_underscored hne]
    exact hlength
  · exact ⟨hlength, hcut, hplain, by simpa using hdevice⟩

theorem safeStem_fits (id : Text) : StemFits (safeStem id) := by
  have hunits : ∀ u ∈ replaceUnsafe id, isStemUnit u = true := fun u hu => mem_replaceUnsafe hu
  unfold safeStem
  dsimp only
  by_cases hnil : replaceUnsafe id = []
  · rw [if_pos hnil]
    have htxt : txt "_" = [unit '_'] := by decide
    rw [htxt]
    exact ⟨by decide, List.forall_mem_singleton.mpr (by decide), rfl, by decide⟩
  · rw [if_neg hnil]
    by_cases hplain : startsPlain (replaceUnsafe id) = true
    · rw [if_pos hplain]
      exact stemFits_of_cut hunits hplain
    · rw [if_neg hplain]
      exact stemFits_of_cut (mem_underscored hunits) rfl

/-! ### Names -/

/-- A name that every file system takes as one entry: no separator, not hidden, no option, no
ending that is cut off, no device. -/
structure PortableName (t : Text) : Prop where
  units : ∀ u ∈ t, isStemUnit u = true
  length : t.length ≤ 61
  starts : startsPlain t = true
  ends : t.getLast? ≠ some (unit '.') ∧ t.getLast? ≠ some (unit ' ')
  device : ∀ d ∈ devices, sameName (t.takeWhile (fun u => u != unit '.')) d = false

theorem length_shortHash (id : Text) : (shortHash id).length = hashLength := by
  rw [shortHash, List.length_take, Sha256.length_digest]
  rfl

theorem isAlphaNumeric_of_mem_shortHash {id : Text} {u : CodeUnit} (h : u ∈ shortHash id) :
    isAlphaNumeric u = true := by
  have hall : ∀ n < 16, isAlphaNumeric (hexDigit n) = true := by decide
  obtain ⟨n, hn, rfl⟩ := Sha256.mem_digest (List.mem_of_mem_take h)
  exact hall n hn

theorem length_eq_of_sameName {t d : Text} (h : sameName t d = true) : t.length = d.length := by
  rw [sameName, beq_iff_eq] at h
  simpa using congrArg List.length h

/-- The part of a stem before its first dot is no device. -/
theorem StemFits.prefix_no_device {t p q : Text} (h : StemFits t) (ht : t = p ++ unit '.' :: q)
    {d : Text} (hd : d ∈ devices) : sameName p d = false := by
  rw [Bool.eq_false_iff]
  intro hsame
  have hlength := length_eq_of_sameName hsame
  have hno := List.any_eq_false.mp h.device d hd
  rw [ht, ← hlength, List.take_left, List.drop_left, hsame] at hno
  exact hno rfl

theorem dash_no_device : ∀ d ∈ devices, unit '-' ∉ d.map toLowerUnit := by
  decide

theorem runDirectoryName_portable (id : Text) : PortableName (runDirectoryName id) := by
  have hstem := safeStem_fits id
  have hhash := length_shortHash id
  refine ⟨fun u hu => ?_, ?_, ?_, ?_, fun d hd => ?_⟩
  · rcases List.mem_append.mp hu with hu | hu
    · exact hstem.units u hu
    · rcases List.mem_cons.mp hu with rfl | hu
      · decide
      · simp [isStemUnit, isAlphaNumeric_of_mem_shortHash hu]
  · have hlength := hstem.length
    rw [runDirectoryName, List.length_append, List.length_cons, hhash]
    simp only [maxStem, hashLength] at hlength ⊢
    omega
  · have hstarts := hstem.starts
    rw [runDirectoryName]
    cases hs : safeStem id with
    | nil =>
        rw [hs] at hstarts
        cases hstarts
    | cons u t =>
        rw [hs] at hstarts
        exact hstarts
  · have hne : shortHash id ≠ [] := by
      intro hnil
      rw [hnil] at hhash
      cases hhash
    have hlast : (runDirectoryName id).getLast? = some ((shortHash id).getLast hne) := by
      rw [runDirectoryName, List.getLast?_append, List.getLast?_cons_of_ne_nil hne,
        List.getLast?_eq_some_getLast hne]
      rfl
    have hmem := isAlphaNumeric_of_mem_shortHash (List.getLast_mem hne)
    rw [hlast]
    constructor
    · intro hdot
      rw [Option.some.inj hdot] at hmem
      exact absurd hmem (by decide)
    · intro hspace
      rw [Option.some.inj hspace] at hmem
      exact absurd hmem (by decide)
  · by_cases hdot : unit '.' ∈ safeStem id
    · obtain ⟨p, q, hpq, hp⟩ := List.eq_append_cons_of_mem hdot
      have htake : (runDirectoryName id).takeWhile (fun u => u != unit '.') = p := by
        have hpos : ∀ u ∈ p, (u != unit '.') = true := by
          intro u hu
          rw [bne_iff_ne]
          rintro rfl
          exact hp hu
        rw [runDirectoryName, hpq, List.append_assoc, List.takeWhile_append_of_pos hpos,
          List.cons_append, List.takeWhile_cons_of_neg (by simp), List.append_nil]
      rw [htake]
      exact hstem.prefix_no_device hpq hd
    · have hdash : unit '-' ∈ (runDirectoryName id).takeWhile (fun u => u != unit '.') := by
        have hpos : ∀ u ∈ safeStem id, (u != unit '.') = true := by
          intro u hu
          rw [bne_iff_ne]
          rintro rfl
          exact hdot hu
        rw [runDirectoryName, List.takeWhile_append_of_pos hpos,
          List.takeWhile_cons_of_pos (p := fun u => u != unit '.') (by decide)]
        simp
      rw [Bool.eq_false_iff]
      intro hsame
      rw [sameName, beq_iff_eq] at hsame
      refine dash_no_device d hd ?_
      rw [← hsame]
      exact List.mem_map.mpr ⟨_, hdash, by decide⟩

/-! ### The two bindings -/

/-- The encoders differ on lone surrogates only. -/
theorem getBytes_eq : ∀ {id : Text},
    (∀ u ∈ id, (isHighSurrogate u || isLowSurrogate u) = false) → Java.getBytes id = utf8 id
  | [], _ => rfl
  | [u], h => by
      rw [Java.getBytes, h u List.mem_cons_self]
      rfl
  | u :: v :: t, h => by
      have hu := h u List.mem_cons_self
      have hpair : ¬ (isHighSurrogate u && isLowSurrogate v) = true := by
        intro hpair
        rw [Bool.and_eq_true] at hpair
        rw [hpair.1] at hu
        cases hu
      rw [Java.getBytes, if_neg hpair, utf8, if_neg hpair,
        getBytes_eq (fun w hw => h w (List.mem_cons_of_mem u hw)), hu]
      rfl

/-- A stem has no line terminator before which `$` could stand. -/
theorem dotOrEnd_eq {t : Text} (h : ∀ u ∈ t, isStemUnit u = true) : Java.dotOrEnd t = dotOrEnd t := by
  cases t with
  | nil => rfl
  | cons u t =>
      have hu := h u List.mem_cons_self
      have hno : ∀ v : CodeUnit, isStemUnit v = false → (u == v) = false := by
        intro v hv
        rw [beq_eq_false_iff_ne]
        rintro rfl
        rw [hv] at hu
        cases hu
      simp [Java.dotOrEnd, hno 13 (by decide), hno 10 (by decide), hno 133 (by decide),
        hno 8232 (by decide), hno 8233 (by decide)]

theorem startsWithDevice_eq {t : Text} (h : ∀ u ∈ t, isStemUnit u = true) :
    startsWithDevice Java.dotOrEnd t = isReservedDevice t := by
  have hdrop : ∀ n, Java.dotOrEnd (t.drop n) = dotOrEnd (t.drop n) := fun n =>
    dotOrEnd_eq (fun u hu => h u (List.mem_of_mem_drop hu))
  simp only [isReservedDevice, startsWithDevice, hdrop]

/-- The stems of the bindings are the same for every string. -/
theorem stem_eq (id : Text) : Java.stem id = safeStem id := by
  have hunits : ∀ u ∈ replaceUnsafe id, isStemUnit u = true := fun u hu => mem_replaceUnsafe hu
  have hcut : ∀ t : Text, (if t.length > maxStem then t.take maxStem else t) = t.take maxStem := by
    intro t
    split_ifs with hlong
    · rfl
    · exact (List.take_of_length_le (by omega)).symm
  have hplain : ∀ u ∈ (if startsPlain (replaceUnsafe id) then replaceUnsafe id
      else underscored (replaceUnsafe id)), isStemUnit u = true := by
    split_ifs
    · exact hunits
    · exact mem_underscored hunits
  unfold Java.stem safeStem
  dsimp only
  rw [hcut, startsWithDevice_eq (fun u hu => hplain u (List.mem_of_mem_take hu))]

theorem hash_eq {id : Text} (h : isIdentifier id = true) : Java.hash id = shortHash id := by
  rw [Java.hash, shortHash, getBytes_eq]
  intro u hu
  rw [isIdentifier, Bool.and_eq_true, List.all_eq_true] at h
  have hbound := h.2 u hu
  simp only [Bool.and_eq_true, decide_eq_true_eq, Fin.le_def] at hbound
  have hlow : u.val < 0xD800 := lt_of_le_of_lt hbound.2 (by decide)
  simp only [isHighSurrogate, isLowSurrogate, Bool.or_eq_false_iff, Bool.and_eq_false_iff,
    decide_eq_false_iff_not, Fin.le_def, not_le]
  exact ⟨.inl hlow, .inl (hlow.trans (by decide))⟩

/-! ### Different identifiers -/

/-- Names whose stems may be changed, but whose digests differ, differ. -/
theorem name_injOn {ids : Set Text} (h : Set.InjOn shortHash ids) (fold : Text → Text) :
    Set.InjOn (fun id => fold (safeStem id) ++ unit '-' :: shortHash id) ids := by
  intro id hid id' hid' heq
  refine h hid hid' ?_
  have htail := List.append_inj_right' heq (by simp [length_shortHash])
  exact (List.cons.inj htail).2

/-- Every name is portable, the bindings give a protocol identifier the same name, and identifiers
with different digests have different names, whatever becomes of their stems. -/
theorem names_portable :
    (∀ id, PortableName (runDirectoryName id)) ∧
    (∀ id, isIdentifier id = true →
      Java.stem id = safeStem id ∧ Java.hash id = shortHash id ∧
        Java.runDirectoryName id = runDirectoryName id) ∧
    ∀ ids : Set Text, Set.InjOn shortHash ids →
      Set.InjOn runDirectoryName ids ∧
      ∀ fold : Text → Text,
        Set.InjOn (fun id => fold (safeStem id) ++ unit '-' :: shortHash id) ids := by
  refine ⟨runDirectoryName_portable, fun id hid => ?_, fun ids hids => ?_⟩
  · refine ⟨stem_eq id, hash_eq hid, ?_⟩
    rw [Java.runDirectoryName, stem_eq, hash_eq hid, runDirectoryName]
  · exact ⟨name_injOn hids (fun t => t), name_injOn hids⟩

/-- Two identifiers whose stems are the same. -/
theorem names_portable_colliding :
    safeStem (txt "a/b") = safeStem (txt "a:b") ∧
      Set.InjOn runDirectoryName {txt "a/b", txt "a:b"} := by
  refine ⟨by decide, (names_portable.2.2 {txt "a/b", txt "a:b"} ?_).1⟩
  have hne : shortHash (txt "a/b") ≠ shortHash (txt "a:b") := by decide
  rintro id hid id' hid' heq
  rcases hid with rfl | rfl <;> rcases hid' with rfl | rfl
  · rfl
  · exact absurd heq hne
  · exact absurd heq.symm hne
  · rfl

end QeReport.Sdk

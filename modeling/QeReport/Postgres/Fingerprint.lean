import QeReport.Lib.JsonAlike
import QeReport.Lib.Utf8
import QeReport.Postgres.Replay
import QeReport.Validator.Duplicates

/-! # What the fingerprint names

The fingerprint of a run is the digest of the sorted digests of its lines that are not
duplicates.  Where no two of the texts hashed for two valid runs collide, the runs have one
fingerprint exactly when every event of one is an event of the other, up to the order of members
(`fingerprint_identifies`); files, white space and identical duplicates do not show in it. -/

namespace QeReport

/-! ### Digests -/

def isLowerHex (u : CodeUnit) : Bool :=
  (unit '0' ≤ u && u ≤ unit '9') || (unit 'a' ≤ u && u ≤ unit 'f')

/-- The text of a SHA-256 digest: 64 lower-case hexadecimal digits. -/
structure IsDigest (t : Text) : Prop where
  length : t.length = 64
  lowerHex : ∀ u ∈ t, isLowerHex u = true

/-- Bytes in hexadecimal. -/
def hexText (bytes : List ℕ) : Text := bytes.flatMap (fun b => [hexDigit (b / 16), hexDigit (b % 16)])

theorem hexValue_lowerHex {u : CodeUnit} (h : isLowerHex u = true) :
    ∃ n < 16, hexValue u = some n ∧ hexDigit n = u := by
  rw [isLowerHex, Bool.or_eq_true] at h
  rcases h with h | h
  · rw [Bool.and_eq_true, decide_eq_true_eq, decide_eq_true_eq] at h
    have hl : 48 ≤ u.val := h.1
    have hu : u.val ≤ 57 := h.2
    refine ⟨u.val - 48, by omega, ?_, ?_⟩
    · rw [hexValue, if_pos (by simp [h])]
    · rw [hexDigit, if_pos (by omega)]
      ext
      change (48 + (u.val - 48)) % 65536 = u.val
      omega
  · rw [Bool.and_eq_true, decide_eq_true_eq, decide_eq_true_eq] at h
    have hl : 97 ≤ u.val := h.1
    have hu : u.val ≤ 102 := h.2
    have hdigit : ¬ (unit '0' ≤ u && u ≤ unit '9') = true := by
      rw [Bool.and_eq_true, decide_eq_true_eq, decide_eq_true_eq]
      rintro ⟨-, hle⟩
      have hle : u.val ≤ 57 := hle
      omega
    refine ⟨u.val - 87, by omega, ?_, ?_⟩
    · rw [hexValue, if_neg hdigit, if_pos (by simp [h])]
    · rw [hexDigit, if_neg (by omega)]
      ext
      change (87 + (u.val - 87)) % 65536 = u.val
      omega

/-- Pairs of digits are read as bytes that are written as the same pairs. -/
theorem hexBytes_lowerHex {n : ℕ} {t : Text} (hlen : t.length = 2 * n)
    (h : ∀ u ∈ t, isLowerHex u = true) : (hexBytes t).length = n ∧ hexText (hexBytes t) = t := by
  induction n generalizing t with
  | zero =>
      rw [List.length_eq_zero_iff.mp hlen]
      exact ⟨rfl, rfl⟩
  | succ n ih =>
      match t, hlen with
      | u :: v :: t, hlen =>
          obtain ⟨a, ha, hau, hua⟩ := hexValue_lowerHex (h u (by simp))
          obtain ⟨b, hb, hbv, hvb⟩ := hexValue_lowerHex (h v (by simp))
          have hrest : t.length = 2 * n := by
            rw [List.length_cons, List.length_cons] at hlen
            omega
          obtain ⟨hlength, htext⟩ := ih hrest (fun w hw => h w (by simp [hw]))
          rw [hexBytes, hau, hbv]
          refine ⟨by rw [List.length_cons, hlength], ?_⟩
          have hhigh : (16 * a + b) / 16 = a := by omega
          have hlow : (16 * a + b) % 16 = b := by omega
          rw [hexText, List.flatMap_cons, hhigh, hlow, hua, hvb]
          exact congrArg (fun r => u :: v :: r) htext

theorem IsDigest.length_hexBytes {t : Text} (h : IsDigest t) : (hexBytes t).length = 32 :=
  (hexBytes_lowerHex (n := 32) h.length h.lowerHex).1

theorem IsDigest.hexBytes_injective {s t : Text} (hs : IsDigest s) (ht : IsDigest t)
    (h : hexBytes s = hexBytes t) : s = t := by
  rw [← (hexBytes_lowerHex (n := 32) hs.length hs.lowerHex).2, h,
    (hexBytes_lowerHex (n := 32) ht.length ht.lowerHex).2]

/-- Digests one after the other are told apart. -/
theorem flatMap_hexBytes_injective {ds es : List Text} (hd : ∀ d ∈ ds, IsDigest d)
    (he : ∀ e ∈ es, IsDigest e) (h : ds.flatMap hexBytes = es.flatMap hexBytes) : ds = es := by
  have hlength : ∀ d, IsDigest d → (hexBytes d).length = 32 := fun _ => IsDigest.length_hexBytes
  induction ds generalizing es with
  | nil =>
      cases es with
      | nil => rfl
      | cons e es =>
          have hcount := congrArg List.length h
          rw [List.flatMap_nil, List.flatMap_cons, List.length_append,
            hlength e (he e (List.mem_cons_self ..)), List.length_nil] at hcount
          omega
  | cons d ds ih =>
      cases es with
      | nil =>
          have hcount := congrArg List.length h
          rw [List.flatMap_nil, List.flatMap_cons, List.length_append,
            hlength d (hd d (List.mem_cons_self ..)), List.length_nil] at hcount
          omega
      | cons e es =>
          have hd' := hd d (List.mem_cons_self ..)
          have he' := he e (List.mem_cons_self ..)
          rw [List.flatMap_cons, List.flatMap_cons] at h
          obtain ⟨hfirst, hrest⟩ := List.append_inj h (by rw [hlength d hd', hlength e he'])
          rw [hd'.hexBytes_injective he' hfirst, ih (fun x hx => hd x (List.mem_cons_of_mem _ hx))
            (fun x hx => he x (List.mem_cons_of_mem _ hx)) hrest]

/-- `Sha256.digest` writes digests. -/
theorem isDigest_sha256 (bytes : List ℕ) : IsDigest (Sha256.digest bytes) := by
  have hdigit : ∀ n < 16, isLowerHex (hexDigit n) = true := by decide
  have hword : ∀ w, (Sha256.hexWord w).length = 8 ∧
      ∀ u ∈ Sha256.hexWord w, isLowerHex u = true := by
    intro w
    refine ⟨rfl, fun u hu => ?_⟩
    simp only [Sha256.hexWord, List.mem_cons, List.not_mem_nil, or_false] at hu
    rcases hu with rfl | rfl | rfl | rfl | rfl | rfl | rfl | rfl
    all_goals exact hdigit _ (Nat.mod_lt _ (by decide))
  constructor
  · rw [Sha256.digest]
    simp only [List.flatMap_cons, List.flatMap_nil, List.length_append, (hword _).1,
      List.length_nil]
  · intro u hu
    rw [Sha256.digest] at hu
    obtain ⟨w, -, huw⟩ := List.mem_flatMap.mp hu
    exact (hword w).2 u huw

/-! ### The texts that are hashed -/

/-- The digests of the lines that are not duplicates. -/
def lineDigests (lines : List ValidatedSourceLine) : List Text :=
  (lines.filter (fun l => l.disposition ≠ .duplicate)).map (fun l => l.canonicalSha256)

/-- The bytes that the fingerprint is the digest of. -/
def fingerprintBytes (lines : List ValidatedSourceLine) : List ℕ :=
  utf8 (txt "qe-report-run-fingerprint/" ++ natText fingerprintVersion ++ txt "\n") ++
    (distinctSorted (lineDigests lines)).flatMap hexBytes

theorem contentFingerprint_eq (rt : Runtime) (lines : List ValidatedSourceLine) :
    contentFingerprint rt lines = rt.sha256 (fingerprintBytes lines) := rfl

section content
variable (rt : Runtime)

/-- The bytes hashed for a run: those of the fingerprint, and the canonical text of each line. -/
def Hashed (lines : List ValidatedSourceLine) (bytes : List ℕ) : Prop :=
  bytes = fingerprintBytes lines ∨
    ∃ l ∈ lines, ∃ v, rt.parse l.rawLine = .ok v ∧ bytes = utf8 (canonical v)

/-- The value is that of an accepted or ignored line. -/
def Holds (lines : List ValidatedSourceLine) (v : Json) : Prop :=
  ∃ l ∈ lines, l.disposition ≠ .duplicate ∧ rt.parse l.rawLine = .ok v

/-- The value is that of a line that was fed. -/
def Fed (calls : List FeedCall) (v : Json) : Prop :=
  ∃ c ∈ calls, ∃ raw ∈ c.lines, blank raw = false ∧ rt.parse raw = .ok v

/-- The same values up to the order of members. -/
def SameContent (P Q : Json → Prop) : Prop :=
  (∀ v, P v → ∃ w, Q w ∧ Alike v w) ∧ ∀ w, Q w → ∃ v, P v ∧ Alike v w

/-- An event with the id was fed. -/
def FedId (calls : List FeedCall) (i : Text) : Prop :=
  ∃ o, Fed rt calls (.obj o) ∧ memberOf o (txt "eventId") = some (.str i)

end content

/-! ### Values and keys -/

/-- A line with the key is among the lines. -/
def HasKey (ls : List Line) (k : Text) : Prop := ∃ x ∈ ls, x.key = k

/-- The values have the keys of the lines. -/
structure Keyed (ls : List Line) (P : Json → Prop) : Prop where
  key : ∀ v, P v → HasKey ls (canonText v)
  value : ∀ k, HasKey ls k → ∃ v, P v ∧ canonText v = k

/-- Runs with the same keys have the same values up to the order of members. -/
theorem sameContent_iff {ls ls' : List Line} {P Q : Json → Prop} (hP : Keyed ls P)
    (hQ : Keyed ls' Q) (hd : ∀ v, P v → v.KeysDistinct) :
    SameContent P Q ↔ ∀ k, HasKey ls k ↔ HasKey ls' k := by
  constructor
  · rintro ⟨hpq, hqp⟩ k
    constructor
    · intro hk
      obtain ⟨v, hv, rfl⟩ := hP.value k hk
      obtain ⟨w, hw, hvw⟩ := hpq v hv
      rw [(canonText_eq_iff (hd v hv)).mpr hvw]
      exact hQ.key w hw
    · intro hk
      obtain ⟨w, hw, rfl⟩ := hQ.value k hk
      obtain ⟨v, hv, hvw⟩ := hqp w hw
      rw [← (canonText_eq_iff (hd v hv)).mpr hvw]
      exact hP.key v hv
  · intro h
    constructor
    · intro v hv
      obtain ⟨w, hw, hkey⟩ := hQ.value _ ((h _).mp (hP.key v hv))
      exact ⟨w, hw, (canonText_eq_iff (hd v hv)).mp hkey.symm⟩
    · intro w hw
      obtain ⟨v, hv, hkey⟩ := hP.value _ ((h _).mpr (hQ.key w hw))
      exact ⟨v, hv, (canonText_eq_iff (hd v hv)).mp hkey⟩

section run
variable {rt : Runtime} {fs : FileSystem} {options : ValidateOptions} {calls : List FeedCall}

theorem wereRead_all : WereRead rt (eventLimit options) (allLines rt options calls) := by
  intro x hx
  obtain ⟨c, -, hxc⟩ := mem_allLines.mp hx
  exact (mem_linesOf hxc).2

theorem exists_linesOf {limit n : ℕ} {file raw : Text} {raws : List Text} (h : raw ∈ raws)
    (hb : blank raw = false) (hread : (reading rt limit raw).isSome = true) :
    ∃ x ∈ linesOf rt limit file n raws, x.raw = raw := by
  induction raws generalizing n with
  | nil => cases h
  | cons first raws ih =>
      rw [linesOf]
      rcases List.mem_cons.mp h with rfl | h
      · obtain ⟨r, hr⟩ := Option.isSome_iff_exists.mp hread
        rw [if_neg (by simp [hb])]
        simp only [hr]
        exact ⟨_, List.mem_cons_self, (reading_eq_some hr).1⟩
      · obtain ⟨x, hx, hraw⟩ := ih (n := n + 1) h
        split_ifs
        · exact ⟨x, hx, hraw⟩
        · cases reading rt limit first with
          | none => exact ⟨x, hx, hraw⟩
          | some r => exact ⟨x, List.mem_cons_of_mem _ hx, hraw⟩

/-- What was fed is what the lines hold. -/
theorem fed_iff (hread : ∀ c ∈ calls, AllRead rt (eventLimit options) c.lines) {v : Json} :
    Fed rt calls v ↔ ∃ x ∈ allLines rt options calls, rt.parse x.raw = .ok v := by
  constructor
  · rintro ⟨c, hc, raw, hraw, hb, hv⟩
    have hsome : (reading rt (eventLimit options) raw).isSome = true := by
      rcases hread c hc raw hraw with hblank | h
      · rw [hb] at hblank
        cases hblank
      · exact h
    obtain ⟨x, hx, rfl⟩ : ∃ x ∈ linesOf rt (eventLimit options) c.file 0 c.lines, x.raw = raw :=
      exists_linesOf hraw hb hsome
    exact ⟨x, mem_allLines.mpr ⟨c, hc, hx⟩, hv⟩
  · rintro ⟨x, hx, hv⟩
    obtain ⟨c, hc, hxc⟩ := mem_allLines.mp hx
    obtain ⟨hraw, hb, -⟩ := mem_linesOf hxc
    exact ⟨c, hc, x.raw, hraw, hb, hv⟩

/-- The key of a line is the canonical text of its value. -/
theorem line_value {x : Line} (hx : x ∈ allLines rt options calls) :
    ∃ v, rt.parse x.raw = .ok v ∧ x.key = canonText v ∧ eventFromObject v = .ok x.event := by
  obtain ⟨hraw, v, hv, he, hkey⟩ := reading_eq_some (wereRead_all x hx).2
  exact ⟨v, hv, hkey, he⟩

theorem keyed_fed (hread : ∀ c ∈ calls, AllRead rt (eventLimit options) c.lines) :
    Keyed (allLines rt options calls) (Fed rt calls) := by
  constructor
  · intro v hv
    obtain ⟨x, hx, hparse⟩ := (fed_iff hread).mp hv
    obtain ⟨w, hw, hkey, -⟩ := line_value hx
    obtain rfl := Except.ok.inj (hparse.symm.trans hw)
    exact ⟨x, hx, hkey⟩
  · rintro k ⟨x, hx, rfl⟩
    obtain ⟨v, hv, hkey, -⟩ := line_value hx
    exact ⟨v, (fed_iff hread).mpr ⟨x, hx, hv⟩, hkey.symm⟩

/-- The lines that are not duplicates are the fresh lines. -/
theorem source_fresh {done ls : List Line} {t : ValidatedSourceLine} :
    (t ∈ sourceAfter rt done ls ∧ t.disposition ≠ .duplicate) →
      ∃ x ∈ ls, t.rawLine = x.raw := by
  rintro ⟨ht, -⟩
  obtain ⟨x, hx, hd⟩ := exists_of_forall₂ (sourceAfter_describes rt done ls) ht
  exact ⟨x, hx, hd.rawLine⟩

theorem fresh_source {done ls : List Line} {x : Line}
    (hx : x ∈ freshAfter Line.eventId done ls) :
    ∃ t ∈ sourceAfter rt done ls, t.disposition ≠ .duplicate ∧ t.rawLine = x.raw := by
  induction ls generalizing done with
  | nil => cases hx
  | cons y ls ih =>
      rw [freshAfter] at hx
      rw [sourceAfter]
      split_ifs at hx ⊢ with hdup
      · obtain ⟨t, ht, h⟩ := ih hx
        exact ⟨t, List.mem_cons_of_mem _ ht, h⟩
      · rcases List.mem_cons.mp hx with rfl | hx
        · refine ⟨_, List.mem_cons_self, ?_, rfl⟩
          change freshDisposition x ≠ .duplicate
          unfold freshDisposition
          split_ifs <;> decide
        · obtain ⟨t, ht, h⟩ := ih hx
          exact ⟨t, List.mem_cons_of_mem _ ht, h⟩

theorem keyed_holds (hcons : Consistent (allLines rt options calls)) :
    Keyed (allLines rt options calls)
      (Holds rt (sourceAfter rt [] (allLines rt options calls))) := by
  constructor
  · rintro v ⟨t, ht, hdisposition, hv⟩
    obtain ⟨x, hx, hraw⟩ := source_fresh ⟨ht, hdisposition⟩
    obtain ⟨w, hw, hkey, -⟩ := line_value hx
    rw [hraw] at hv
    obtain rfl := Except.ok.inj (hv.symm.trans hw)
    exact ⟨x, hx, hkey⟩
  · rintro k ⟨x, hx, rfl⟩
    obtain ⟨y, hy, hid⟩ : ∃ y ∈ fresh Line.eventId (allLines rt options calls),
        y.eventId = x.eventId := exists_fresh hx
    have hmem := (fresh_sublist _).subset hy
    obtain ⟨v, hv, hkey, -⟩ := line_value hmem
    obtain ⟨t, ht, hdisposition, hraw⟩ :
        ∃ t ∈ sourceAfter rt [] (allLines rt options calls), t.disposition ≠ .duplicate ∧
          t.rawLine = y.raw := fresh_source hy
    refine ⟨v, ⟨t, ht, hdisposition, by rw [hraw]; exact hv⟩, ?_⟩
    rw [← hkey]
    exact hcons y hmem x hx hid

/-- What is held was fed. -/
theorem Holds.fed (hread : ∀ c ∈ calls, AllRead rt (eventLimit options) c.lines) {v : Json}
    (h : Holds rt (sourceAfter rt [] (allLines rt options calls)) v) : Fed rt calls v := by
  obtain ⟨t, ht, hdisposition, hv⟩ := h
  obtain ⟨x, hx, hraw⟩ := source_fresh ⟨ht, hdisposition⟩
  exact (fed_iff hread).mpr ⟨x, hx, by rw [← hraw]; exact hv⟩

/-- The digests of a run are those of its keys. -/
theorem mem_lineDigests (hcons : Consistent (allLines rt options calls)) {d : Text} :
    d ∈ lineDigests (sourceAfter rt [] (allLines rt options calls)) ↔
      ∃ k, HasKey (allLines rt options calls) k ∧ rt.sha256 (utf8 k) = d := by
  rw [lineDigests, mem_digests hcons]
  constructor
  · rintro ⟨r, hr, rfl⟩
    obtain ⟨x, hx, rfl⟩ := List.mem_map.mp hr
    exact ⟨x.key, ⟨x, hx, rfl⟩, rfl⟩
  · rintro ⟨k, ⟨x, hx, rfl⟩, rfl⟩
    exact ⟨x.toReading, List.mem_map.mpr ⟨x, hx, rfl⟩, rfl⟩

/-- The text of a key is hashed. -/
theorem hashed_key {k : Text} (hk : HasKey (allLines rt options calls) k) :
    Hashed rt (sourceAfter rt [] (allLines rt options calls)) (utf8 k) := by
  obtain ⟨x, hx, rfl⟩ := hk
  obtain ⟨v, hv, hkey, -⟩ := line_value hx
  obtain ⟨t, ht, hd⟩ := mem_of_forall₂ (sourceAfter_describes rt [] _) hx
  refine .inr ⟨t, ht, v, ?_, by rw [canonical_eq, hkey]⟩
  rw [hd.rawLine]
  exact hv

theorem isWellFormed_key {k : Text} (hk : HasKey (allLines rt options calls) k) :
    isWellFormed k = true := by
  obtain ⟨x, hx, rfl⟩ := hk
  obtain ⟨v, -, hkey, -⟩ := line_value hx
  rw [hkey]
  exact isWellFormed_canonText v

end run

theorem mem_distinctSorted {ts : List Text} {t : Text} : t ∈ distinctSorted ts ↔ t ∈ ts := by
  rw [distinctSorted, mem_sortBy]
  refine ⟨fun ht => (fresh_sublist ts).subset ht, fun ht => ?_⟩
  obtain ⟨y, hy, rfl⟩ : ∃ y ∈ fresh id ts, y = t := exists_fresh ht
  exact hy

/-- The fingerprint tells the keys of two runs apart. -/
theorem fingerprint_iff_keys {rt : Runtime} {options options' : ValidateOptions}
    {calls calls' : List FeedCall} {src src' : List ValidatedSourceLine}
    (hsrc : src = sourceAfter rt [] (allLines rt options calls))
    (hsrc' : src' = sourceAfter rt [] (allLines rt options' calls'))
    (hcons : Consistent (allLines rt options calls))
    (hcons' : Consistent (allLines rt options' calls'))
    (hdigest : ∀ b, IsDigest (rt.sha256 b))
    (hinj : Set.InjOn rt.sha256 {b | Hashed rt src b ∨ Hashed rt src' b}) :
    contentFingerprint rt src = contentFingerprint rt src' ↔
      ∀ k, HasKey (allLines rt options calls) k ↔ HasKey (allLines rt options' calls') k := by
  subst hsrc hsrc'
  rw [contentFingerprint_eq, contentFingerprint_eq]
  constructor
  · intro h
    have hbytes := hinj (.inl (.inl rfl)) (.inr (.inl rfl)) h
    have hdigests : ∀ ls : List Line, Consistent ls → ∀ d ∈ distinctSorted
        (lineDigests (sourceAfter rt [] ls)), IsDigest d := by
      intro ls hls d hd
      rw [mem_distinctSorted, lineDigests, mem_digests hls] at hd
      obtain ⟨r, -, rfl⟩ := hd
      exact hdigest _
    have hlists := flatMap_hexBytes_injective (hdigests _ hcons) (hdigests _ hcons')
      (List.append_cancel_left hbytes)
    have hset : ∀ d, d ∈ lineDigests (sourceAfter rt [] (allLines rt options calls)) ↔
        d ∈ lineDigests (sourceAfter rt [] (allLines rt options' calls')) := by
      intro d
      rw [← mem_distinctSorted, hlists, mem_distinctSorted]
    -- one digest is one text, and one text is one key
    intro k
    constructor
    · intro hk
      obtain ⟨k', hk', hsame⟩ :=
        (mem_lineDigests hcons').mp ((hset _).mp ((mem_lineDigests hcons).mpr ⟨k, hk, rfl⟩))
      have hutf8 := hinj (.inr (hashed_key hk')) (.inl (hashed_key hk)) hsame
      rwa [← utf8_injective (isWellFormed_key hk') (isWellFormed_key hk) hutf8]
    · intro hk
      obtain ⟨k', hk', hsame⟩ :=
        (mem_lineDigests hcons).mp ((hset _).mpr ((mem_lineDigests hcons').mpr ⟨k, hk, rfl⟩))
      have hutf8 := hinj (.inl (hashed_key hk')) (.inr (hashed_key hk)) hsame
      rwa [← utf8_injective (isWellFormed_key hk') (isWellFormed_key hk) hutf8]
  · intro h
    have hset : ∀ d, d ∈ lineDigests (sourceAfter rt [] (allLines rt options calls)) ↔
        d ∈ lineDigests (sourceAfter rt [] (allLines rt options' calls')) := by
      intro d
      rw [mem_lineDigests hcons, mem_lineDigests hcons']
      simp only [h]
    rw [fingerprintBytes, fingerprintBytes, distinctSorted_congr hset]

/-- The event id of a line that was fed. -/
theorem fed_eventId {rt : Runtime} {options : ValidateOptions} {calls : List FeedCall} {x : Line}
    {v : Json} (hx : x ∈ allLines rt options calls) (hv : rt.parse x.raw = .ok v) :
    ∃ o, v = .obj o ∧ memberOf o (txt "eventId") = some (.str x.eventId) := by
  obtain ⟨w, hw, -, he⟩ := line_value hx
  obtain rfl := Except.ok.inj (hv.symm.trans hw)
  exact eventFromObject_eventId he

/-- Alike objects have alike members. -/
theorem Alike.members {o o' : Obj} (h : Alike (.obj o) (.obj o')) (hd : (Json.obj o).KeysDistinct)
    (key : Text) : (memberOf o key).map Json.normal = (memberOf o' key).map Json.normal := by
  obtain ⟨n, hn, hm⟩ := normal_obj o
  obtain ⟨n', hn', hm'⟩ := normal_obj o'
  have heq := h.normal_eq hd
  rw [hn, hn'] at heq
  rw [← hm, ← hm', Json.obj.inj heq]

/-- The texts hashed for a valid run are those of the fingerprint and of the lines that were fed. -/
theorem hashed_fed {rt : Runtime} {fs : FileSystem} {options : ValidateOptions}
    {calls : List FeedCall} (hvalid : (reportOf rt fs options calls).valid = true)
    (hretain : options.retainSourceLines = true) {bytes : List ℕ}
    (h : Hashed rt (snapshotOf rt fs options calls).sourceLines bytes) :
    bytes = fingerprintBytes (snapshotOf rt fs options calls).sourceLines ∨
      ∃ v, Fed rt calls v ∧ bytes = utf8 (canonText v) := by
  have hv := (valid_iff rt fs options calls).mp hvalid
  have hrun : (snapshotOf rt fs options calls).sourceLines =
      sourceAfter rt [] (allLines rt options calls) :=
    hv.ends.clean.source.trans (if_pos hretain)
  rcases h with h | ⟨l, hl, v, hparse, rfl⟩
  · exact .inl h
  · rw [hrun] at hl
    obtain ⟨x, hx, hd⟩ := exists_of_forall₂ (sourceAfter_describes rt [] _) hl
    rw [hd.rawLine] at hparse
    exact .inr ⟨v, (fed_iff hv.read).mpr ⟨x, hx, hparse⟩, by rw [canonical_eq]⟩

section identifies
variable (rt : Runtime) {fs fs' : FileSystem} {options options' : ValidateOptions}
  {calls calls' : List FeedCall}

/-- Two valid runs have one fingerprint exactly when every accepted or ignored event of one is an
event of the other up to the order of members, and so does every line that was fed.  The order
of the lines and the files they stand in do not matter; runs with one fingerprint have the same
event ids, and for each of them alike events. -/
theorem fingerprint_identifies (hdigest : ∀ b, IsDigest (rt.sha256 b))
    (hparse : ∀ v, Fed rt calls v → v.KeysDistinct)
    (hretain : options.retainSourceLines = true) (hretain' : options'.retainSourceLines = true)
    (hvalid : (reportOf rt fs options calls).valid = true)
    (hvalid' : (reportOf rt fs' options' calls').valid = true)
    (hinj : Set.InjOn rt.sha256 {b | Hashed rt (snapshotOf rt fs options calls).sourceLines b ∨
      Hashed rt (snapshotOf rt fs' options' calls').sourceLines b}) :
    let run := (snapshotOf rt fs options calls).sourceLines
    let run' := (snapshotOf rt fs' options' calls').sourceLines
    let same := contentFingerprint rt run = contentFingerprint rt run'
    (same ↔ SameContent (Holds rt run) (Holds rt run')) ∧
    (same ↔ SameContent (Fed rt calls) (Fed rt calls')) ∧
    ((calls.flatMap (fun c => c.lines)).Perm (calls'.flatMap (fun c => c.lines)) → same) ∧
    (same → ∀ i, FedId rt calls i ↔ FedId rt calls' i) ∧
    (same → ∀ o o', Fed rt calls (.obj o) → Fed rt calls' (.obj o') →
      memberOf o (txt "eventId") = memberOf o' (txt "eventId") → Alike (.obj o) (.obj o') ∧
        ∀ key, (memberOf o key).map Json.normal = (memberOf o' key).map Json.normal) := by
  intro run run' same
  have hv := (valid_iff rt fs options calls).mp hvalid
  have hv' := (valid_iff rt fs' options' calls').mp hvalid'
  have hrun : run = sourceAfter rt [] (allLines rt options calls) :=
    hv.ends.clean.source.trans (if_pos hretain)
  have hrun' : run' = sourceAfter rt [] (allLines rt options' calls') :=
    hv'.ends.clean.source.trans (if_pos hretain')
  have hkeys : same ↔ ∀ k, HasKey (allLines rt options calls) k ↔
      HasKey (allLines rt options' calls') k :=
    fingerprint_iff_keys hrun hrun' hv.consistent hv'.consistent hdigest hinj
  have hfed : same ↔ SameContent (Fed rt calls) (Fed rt calls') := by
    rw [hkeys, sameContent_iff (keyed_fed hv.read) (keyed_fed hv'.read) hparse]
  have hheld : same ↔ SameContent (Holds rt run) (Holds rt run') := by
    rw [hkeys, hrun, hrun', sameContent_iff (keyed_holds hv.consistent) (keyed_holds hv'.consistent)
      (fun v h => hparse v (h.fed hv.read))]
  refine ⟨hheld, hfed, ?_, ?_, ?_⟩
  · intro hp
    have hlines : ∀ (ks : List FeedCall) (v : Json), Fed rt ks v ↔
        ∃ raw ∈ ks.flatMap (fun c => c.lines), blank raw = false ∧ rt.parse raw = .ok v := by
      intro ks v
      constructor
      · rintro ⟨c, hc, raw, hraw, h⟩
        exact ⟨raw, List.mem_flatMap.mpr ⟨c, hc, hraw⟩, h⟩
      · rintro ⟨raw, hraw, h⟩
        obtain ⟨c, hc, hraw⟩ := List.mem_flatMap.mp hraw
        exact ⟨c, hc, raw, hraw, h⟩
    have heq : Fed rt calls = Fed rt calls' := by
      funext v
      rw [hlines, hlines]
      simp only [hp.mem_iff]
    rw [hkeys]
    intro k
    have h1 := keyed_fed hv.read
    have h2 := keyed_fed hv'.read
    rw [heq] at h1
    constructor
    · intro hk
      obtain ⟨v, hfv, rfl⟩ := h1.value k hk
      exact h2.key v hfv
    · intro hk
      obtain ⟨v, hfv, rfl⟩ := h2.value k hk
      exact h1.key v hfv
  · intro hsame i
    have hid : ∀ (o o' : Obj), (Json.obj o).KeysDistinct → Alike (.obj o) (.obj o') →
        (memberOf o (txt "eventId") = some (.str i) ↔ memberOf o' (txt "eventId") = some (.str i)) := by
      intro o o' hd halike
      have hmember := halike.members hd (txt "eventId")
      have hstr : ∀ m : Option Json, m.map Json.normal = some (.str i) ↔ m = some (.str i) := by
        intro m
        cases m with
        | none => simp
        | some v => cases v <;> simp [Json.normal]
      rw [← hstr, hmember, hstr]
    have hobj : ∀ v o', Alike v (.obj o') → ∃ o, v = .obj o := by
      intro v o' h
      cases h with
      | obj h hp => exact ⟨_, rfl⟩
    have hobj' : ∀ o w, Alike (.obj o) w → ∃ o', w = .obj o' := by
      intro o w h
      cases h with
      | obj h hp => exact ⟨_, rfl⟩
    obtain ⟨hleft, hright⟩ := hfed.mp hsame
    constructor
    · rintro ⟨o, ho, hoi⟩
      obtain ⟨w, hw, halike⟩ := hleft _ ho
      obtain ⟨o', rfl⟩ := hobj' o w halike
      exact ⟨o', hw, (hid o o' (hparse _ ho) halike).mp hoi⟩
    · rintro ⟨o', ho', hoi⟩
      obtain ⟨v, hv, halike⟩ := hright _ ho'
      obtain ⟨o, rfl⟩ := hobj v o' halike
      exact ⟨o, hv, (hid o o' (hparse _ hv) halike).mpr hoi⟩
  · intro hsame o o' ho ho' hid
    obtain ⟨x, hx, hxv⟩ := (fed_iff hv.read).mp ho
    obtain ⟨y, hy, hyv⟩ := (fed_iff hv'.read).mp ho'
    obtain ⟨p, hp, hpid⟩ := fed_eventId hx hxv
    obtain ⟨q, hq, hqid⟩ := fed_eventId hy hyv
    obtain rfl := Json.obj.inj hp
    obtain rfl := Json.obj.inj hq
    -- the key of the first line is that of some line of the second run, which has the same id
    obtain ⟨z, hz, hzkey⟩ := (hkeys.mp hsame x.key).mp ⟨x, hx, rfl⟩
    obtain ⟨u, hu, hukey, -⟩ := line_value hx
    obtain ⟨w, hw, hwkey, -⟩ := line_value hy
    obtain ⟨t, ht, htkey, -⟩ := line_value hz
    obtain rfl := Except.ok.inj (hxv.symm.trans hu)
    obtain rfl := Except.ok.inj (hyv.symm.trans hw)
    obtain ⟨r, rfl, hrid⟩ := fed_eventId hz ht
    have halike : Alike (.obj o) (.obj r) :=
      (canonText_eq_iff (hparse _ ho)).mp (by rw [← hukey, ← htkey, hzkey])
    have hzid : z.eventId = y.eventId := by
      have hmember := halike.members (hparse _ ho) (txt "eventId")
      rw [hid, hqid, hrid] at hmember
      simpa [Json.normal] using hmember.symm
    have hsamekey : z.key = y.key := hv'.consistent z hz y hy hzid
    have hfinal : Alike (.obj o) (.obj o') :=
      (canonText_eq_iff (hparse _ ho)).mp (by rw [← hukey, ← hwkey, ← hzkey, hsamekey])
    exact ⟨hfinal, hfinal.members (hparse _ ho)⟩

end identifies

namespace Sample

/-- The members of the event that starts a session. -/
def startedMembers : Obj :=
  [(txt "protocolVersion", .str (txt "0.3.0")), (txt "eventId", .str (txt "a1")),
    (txt "eventType", .str (txt "session.started")), (txt "runId", .str (txt "run")),
    (txt "sessionId", .str (txt "a")), (txt "sequence", .num (.ofInt 1)),
    (txt "occurredAt", .str (txt "2026-01-01T00:00:00Z")),
    (txt "payload", .obj [(txt "producer", .obj [(txt "name", .str (txt "p"))])])]

def startedOnce : FeedCall := ⟨[jsonText (.obj startedMembers)], txt "a", true⟩

/-- The same event twice, its members once in another order, with an empty line between. -/
def startedTwice : FeedCall :=
  ⟨[jsonText (.obj startedMembers.reverse), [], jsonText (.obj startedMembers)], txt "b", true⟩

theorem canonText_started :
    canonText (.obj startedMembers.reverse) = canonText (.obj startedMembers) := by
  decide +kernel

theorem fed_startedOnce {v : Json} (h : Fed runtime [startedOnce] v) : v = .obj startedMembers := by
  obtain ⟨c, hc, raw, hraw, -, hv⟩ := h
  obtain rfl := List.mem_singleton.mp hc
  obtain rfl := List.mem_singleton.mp hraw
  exact (Except.ok.inj ((parse_written _).symm.trans hv)).symm

theorem fed_startedTwice {v : Json} (h : Fed runtime [startedTwice] v) :
    v = .obj startedMembers ∨ v = .obj startedMembers.reverse := by
  obtain ⟨c, hc, raw, hraw, hb, hv⟩ := h
  obtain rfl := List.mem_singleton.mp hc
  simp only [startedTwice, List.mem_cons, List.not_mem_nil, or_false] at hraw
  rcases hraw with rfl | rfl | rfl
  · exact .inr (Except.ok.inj ((parse_written _).symm.trans hv)).symm
  · cases hb
  · exact .inl (Except.ok.inj ((parse_written _).symm.trans hv)).symm

theorem started_valid :
    (reportOf runtime noFiles options [startedOnce]).valid = true ∧
    (reportOf runtime noFiles options [startedTwice]).valid = true := by
  decide +kernel

theorem fingerprintBytes_started :
    fingerprintBytes (snapshotOf runtime noFiles options [startedTwice]).sourceLines =
      fingerprintBytes (snapshotOf runtime noFiles options [startedOnce]).sourceLines := by
  decide +kernel

theorem started_apart :
    runtime.sha256 (fingerprintBytes (snapshotOf runtime noFiles options [startedOnce]).sourceLines) ≠
      runtime.sha256 (utf8 (canonText (.obj startedMembers))) := by
  decide +kernel

end Sample

theorem fingerprint_identifies_reordered :
    contentFingerprint Sample.runtime
        (snapshotOf Sample.runtime Sample.noFiles Sample.options [Sample.startedOnce]).sourceLines =
      contentFingerprint Sample.runtime
        (snapshotOf Sample.runtime Sample.noFiles Sample.options [Sample.startedTwice]).sourceLines := by
  have hdistinct : (Json.obj Sample.startedMembers).KeysDistinct := by
    refine ⟨by decide, ?_⟩
    simp [Sample.startedMembers, membersDistinct, Json.KeysDistinct]
  have halike : Alike (.obj Sample.startedMembers) (.obj Sample.startedMembers.reverse) :=
    (canonText_eq_iff hdistinct).mp Sample.canonText_started.symm
  have hself : Alike (.obj Sample.startedMembers) (.obj Sample.startedMembers) :=
    (canonText_eq_iff hdistinct).mp rfl
  have honce : Fed Sample.runtime [Sample.startedOnce] (.obj Sample.startedMembers) :=
    ⟨_, List.mem_singleton_self _, _, List.mem_singleton_self _, by decide,
      Sample.parse_written _⟩
  have htwice : Fed Sample.runtime [Sample.startedTwice] (.obj Sample.startedMembers) :=
    ⟨_, List.mem_singleton_self _, jsonText (.obj Sample.startedMembers),
      by simp [Sample.startedTwice], by decide, Sample.parse_written _⟩
  refine (fingerprint_identifies Sample.runtime
    isDigest_sha256 (fun v hv => ?_) rfl rfl Sample.started_valid.1 Sample.started_valid.2
    ?_).2.1.mpr ⟨fun v hv => ?_, fun w hw => ?_⟩
  · rw [Sample.fed_startedOnce hv]
    exact hdistinct
  · have htwo : ∀ b, (Hashed Sample.runtime (snapshotOf Sample.runtime Sample.noFiles
          Sample.options [Sample.startedOnce]).sourceLines b ∨ Hashed Sample.runtime
          (snapshotOf Sample.runtime Sample.noFiles Sample.options
            [Sample.startedTwice]).sourceLines b) →
        b = fingerprintBytes (snapshotOf Sample.runtime Sample.noFiles Sample.options
          [Sample.startedOnce]).sourceLines ∨ b = utf8 (canonText (.obj Sample.startedMembers)) := by
      rintro b (hb | hb)
      · rcases hashed_fed Sample.started_valid.1 rfl hb with rfl | ⟨v, hv, rfl⟩
        · exact .inl rfl
        · rw [Sample.fed_startedOnce hv]
          exact .inr rfl
      · rcases hashed_fed Sample.started_valid.2 rfl hb with rfl | ⟨v, hv, rfl⟩
        · exact .inl Sample.fingerprintBytes_started
        · rcases Sample.fed_startedTwice hv with rfl | rfl
          · exact .inr rfl
          · rw [Sample.canonText_started]
            exact .inr rfl
    intro b hb d hd hsame
    rcases htwo b hb with rfl | rfl <;> rcases htwo d hd with rfl | rfl
    · rfl
    · exact absurd hsame Sample.started_apart
    · exact absurd hsame.symm Sample.started_apart
    · rfl
  · rw [Sample.fed_startedOnce hv]
    exact ⟨_, htwice, hself⟩
  · rcases Sample.fed_startedTwice hw with rfl | rfl
    · exact ⟨_, honce, hself⟩
    · exact ⟨_, honce, halike⟩

end QeReport

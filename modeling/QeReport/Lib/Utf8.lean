import QeReport.Lib.Json

/-! # UTF-8 of well-formed texts

A text is well formed when it has no lone surrogate.  Of well-formed texts the UTF-8 bytes name
the text (`utf8_injective`): the bytes are those of the code points, one after the other, and a
code point can be read off the bytes it begins.  The canonical text of a JSON value is well
formed, since `JSON.stringify` escapes lone surrogates. -/

namespace QeReport

def isSurrogate (u : CodeUnit) : Bool := isHighSurrogate u || isLowSurrogate u

/-- `text.isWellFormed()`. -/
def isWellFormed : Text → Bool
  | [] => true
  | [u] => !isSurrogate u
  | u :: v :: t =>
      if isHighSurrogate u && isLowSurrogate v then isWellFormed t
      else !isSurrogate u && isWellFormed (v :: t)

/-! ### Code points -/

/-- The code point of a surrogate pair. -/
def pairPoint (u v : CodeUnit) : ℕ := 0x10000 + (u.val - 0xD800) * 0x400 + (v.val - 0xDC00)

/-- The code points of a text, a lone surrogate among them as it stands. -/
def points : Text → List ℕ
  | [] => []
  | [u] => [u.val]
  | u :: v :: t =>
      if isHighSurrogate u && isLowSurrogate v then pairPoint u v :: points t
      else u.val :: points (v :: t)

/-- The code units of a code point. -/
def encodePoint (c : ℕ) : Text :=
  if c < 0x10000 then [Fin.ofNat 65536 c]
  else [Fin.ofNat 65536 (0xD800 + (c - 0x10000) / 0x400),
    Fin.ofNat 65536 (0xDC00 + (c - 0x10000) % 0x400)]

theorem high_bounds {u : CodeUnit} (h : isHighSurrogate u = true) : 0xD800 ≤ u.val ∧ u.val ≤ 0xDBFF := by
  rw [isHighSurrogate, Bool.and_eq_true, decide_eq_true_eq, decide_eq_true_eq] at h
  exact ⟨h.1, h.2⟩

theorem low_bounds {u : CodeUnit} (h : isLowSurrogate u = true) : 0xDC00 ≤ u.val ∧ u.val ≤ 0xDFFF := by
  rw [isLowSurrogate, Bool.and_eq_true, decide_eq_true_eq, decide_eq_true_eq] at h
  exact ⟨h.1, h.2⟩

theorem ofNat_val (u : CodeUnit) : Fin.ofNat 65536 u.val = u := Fin.ext (Nat.mod_eq_of_lt u.isLt)

theorem encodePoint_unit (u : CodeUnit) : encodePoint u.val = [u] := by
  rw [encodePoint, if_pos u.isLt, ofNat_val]

theorem encodePoint_pair {u v : CodeUnit} (hu : isHighSurrogate u = true)
    (hv : isLowSurrogate v = true) : encodePoint (pairPoint u v) = [u, v] := by
  have hu := high_bounds hu
  have hv := low_bounds hv
  have hpoint : ¬ pairPoint u v < 0x10000 := by
    unfold pairPoint
    omega
  have hhigh : 0xD800 + (pairPoint u v - 0x10000) / 0x400 = u.val := by
    unfold pairPoint
    omega
  have hlow : 0xDC00 + (pairPoint u v - 0x10000) % 0x400 = v.val := by
    unfold pairPoint
    omega
  rw [encodePoint, if_neg hpoint, hhigh, hlow, ofNat_val, ofNat_val]

/-- A text is spelled by its code points. -/
theorem points_encode (t : Text) : (points t).flatMap encodePoint = t := by
  induction t using points.induct with
  | case1 => rfl
  | case2 u => rw [points, List.flatMap_singleton, encodePoint_unit]
  | case3 u v t h ih =>
      rw [Bool.and_eq_true] at h
      rw [points, if_pos (by rw [h.1, h.2]; rfl), List.flatMap_cons, encodePoint_pair h.1 h.2, ih]
      rfl
  | case4 u v t h ih =>
      rw [points, if_neg h, List.flatMap_cons, encodePoint_unit, ih]
      rfl

theorem points_bounded (t : Text) : ∀ c ∈ points t, c < 0x110000 := by
  induction t using points.induct with
  | case1 => exact nofun
  | case2 u =>
      intro c hc
      rw [List.mem_singleton.mp hc]
      exact Nat.lt_trans u.isLt (Nat.lt_of_sub_pos (by decide))
  | case3 u v t h ih =>
      rw [points, if_pos h]
      rw [Bool.and_eq_true] at h
      have hu := high_bounds h.1
      have hv := low_bounds h.2
      have hpair : pairPoint u v < 0x110000 := by
        unfold pairPoint
        omega
      intro c hc
      rcases List.mem_cons.mp hc with heq | hc
      · exact lt_of_eq_of_lt heq hpair
      · exact ih c hc
  | case4 u v t h ih =>
      rw [points, if_neg h]
      intro c hc
      rcases List.mem_cons.mp hc with rfl | hc
      · exact Nat.lt_trans u.isLt (Nat.lt_of_sub_pos (by decide))
      · exact ih c hc

/-- The bytes of a well-formed text are those of its code points. -/
theorem utf8_points {t : Text} (h : isWellFormed t = true) :
    utf8 t = (points t).flatMap utf8Bytes := by
  have hunit : ∀ u : CodeUnit, isSurrogate u = false → utf8Unit u = utf8Bytes u.val := by
    intro u hu
    unfold isSurrogate at hu
    rw [utf8Unit, hu]
    rfl
  induction t using points.induct with
  | case1 => rfl
  | case2 u =>
      rw [isWellFormed, Bool.not_eq_true'] at h
      rw [utf8, points, List.flatMap_singleton, hunit u h]
  | case3 u v t hp ih =>
      rw [isWellFormed, if_pos hp] at h
      rw [utf8, points, if_pos hp, if_pos hp, List.flatMap_cons, ih h]
      rfl
  | case4 u v t hp ih =>
      rw [isWellFormed, if_neg hp, Bool.and_eq_true, Bool.not_eq_true'] at h
      rw [utf8, points, if_neg hp, if_neg hp, List.flatMap_cons, ih h.2, hunit u h.1]

/-! ### Reading a code point -/

/-- The code point that bytes begin with, and what follows it. -/
def firstPoint : List ℕ → ℕ × List ℕ
  | a :: r =>
      if a < 0x80 then (a, r)
      else if a < 0xE0 then (64 * (a - 0xC0) + (r.getD 0 0 - 0x80), r.drop 1)
      else if a < 0xF0 then
        (4096 * (a - 0xE0) + 64 * (r.getD 0 0 - 0x80) + (r.getD 1 0 - 0x80), r.drop 2)
      else
        (262144 * (a - 0xF0) + 4096 * (r.getD 0 0 - 0x80) + 64 * (r.getD 1 0 - 0x80) +
          (r.getD 2 0 - 0x80), r.drop 3)
  | [] => (0, [])

theorem firstPoint_utf8Bytes {c : ℕ} (h : c < 0x110000) (r : List ℕ) :
    firstPoint (utf8Bytes c ++ r) = (c, r) := by
  unfold utf8Bytes
  split_ifs with h1 h2 h3
  · simp only [List.cons_append, List.nil_append, firstPoint]
    rw [if_pos h1]
  · simp only [List.cons_append, List.nil_append, firstPoint]
    rw [if_neg (by omega), if_pos (by omega)]
    refine Prod.ext ?_ rfl
    simp only [List.getD_cons_zero]
    omega
  · simp only [List.cons_append, List.nil_append, firstPoint]
    rw [if_neg (by omega), if_neg (by omega), if_pos (by omega)]
    refine Prod.ext ?_ rfl
    simp only [List.getD_cons_zero, List.getD_cons_succ]
    omega
  · simp only [List.cons_append, List.nil_append, firstPoint]
    rw [if_neg (by omega), if_neg (by omega), if_neg (by omega)]
    refine Prod.ext ?_ rfl
    simp only [List.getD_cons_zero, List.getD_cons_succ]
    omega

theorem utf8Bytes_ne_nil (c : ℕ) : utf8Bytes c ≠ [] := by
  unfold utf8Bytes
  split_ifs <;> exact List.cons_ne_nil _ _

theorem utf8_ne_nil {t : Text} (h : t ≠ []) : utf8 t ≠ [] := by
  have hunit : ∀ u, utf8Unit u ≠ [] := by
    intro u
    unfold utf8Unit
    split
    · exact utf8Bytes_ne_nil _
    · exact utf8Bytes_ne_nil _
  fun_cases utf8 t with
  | case1 => exact absurd rfl h
  | case2 u => exact hunit u
  | case3 u v t hpair => exact List.append_ne_nil_of_left_ne_nil (utf8Bytes_ne_nil _) _
  | case4 u v t hpair => exact List.append_ne_nil_of_left_ne_nil (hunit u) _

theorem flatMap_utf8Bytes_injective {cs ds : List ℕ} (hc : ∀ c ∈ cs, c < 0x110000)
    (hd : ∀ d ∈ ds, d < 0x110000) (h : cs.flatMap utf8Bytes = ds.flatMap utf8Bytes) : cs = ds := by
  induction cs generalizing ds with
  | nil =>
      cases ds with
      | nil => rfl
      | cons d ds =>
          rw [List.flatMap_nil, List.flatMap_cons] at h
          exact absurd (List.append_eq_nil_iff.mp h.symm).1 (utf8Bytes_ne_nil d)
  | cons c cs ih =>
      cases ds with
      | nil =>
          rw [List.flatMap_nil, List.flatMap_cons] at h
          exact absurd (List.append_eq_nil_iff.mp h).1 (utf8Bytes_ne_nil c)
      | cons d ds =>
          rw [List.flatMap_cons, List.flatMap_cons] at h
          have hfirst := congrArg firstPoint h
          rw [firstPoint_utf8Bytes (hc c (List.mem_cons_self ..)),
            firstPoint_utf8Bytes (hd d (List.mem_cons_self ..))] at hfirst
          obtain ⟨rfl, hrest⟩ := Prod.mk.inj hfirst
          rw [ih (fun x hx => hc x (List.mem_cons_of_mem _ hx))
            (fun x hx => hd x (List.mem_cons_of_mem _ hx)) hrest]

/-- The bytes of a well-formed text name it. -/
theorem utf8_injective {s t : Text} (hs : isWellFormed s = true) (ht : isWellFormed t = true)
    (h : utf8 s = utf8 t) : s = t := by
  rw [utf8_points hs, utf8_points ht] at h
  have hpoints := flatMap_utf8Bytes_injective (points_bounded s) (points_bounded t) h
  rw [← points_encode s, hpoints, points_encode t]

/-! ### Canonical texts are well formed -/

theorem isWellFormed_of_units {t : Text} (h : ∀ u ∈ t, isSurrogate u = false) :
    isWellFormed t = true := by
  induction t using isWellFormed.induct with
  | case1 => rfl
  | case2 u => rw [isWellFormed, h u (List.mem_singleton_self u)]; rfl
  | case3 u v t hp ih =>
      have hu := h u (List.mem_cons_self ..)
      rw [Bool.and_eq_true] at hp
      rw [isSurrogate, hp.1] at hu
      cases hu
  | case4 u v t hp ih =>
      rw [isWellFormed, if_neg hp, h u (List.mem_cons_self ..),
        ih (fun w hw => h w (List.mem_cons_of_mem _ hw))]
      rfl

theorem isWellFormed_append {s t : Text} (hs : isWellFormed s = true)
    (ht : isWellFormed t = true) : isWellFormed (s ++ t) = true := by
  induction s using isWellFormed.induct with
  | case1 => exact ht
  | case2 u =>
      rw [isWellFormed, Bool.not_eq_true'] at hs
      cases t with
      | nil =>
          rw [List.append_nil, isWellFormed, hs]
          rfl
      | cons v t =>
          have hhigh : isHighSurrogate u = false := (Bool.or_eq_false_iff.mp hs).1
          rw [List.singleton_append, isWellFormed, hhigh, Bool.false_and, if_neg Bool.false_ne_true,
            hs, ht]
          rfl
  | case3 u v s hp ih =>
      rw [isWellFormed, if_pos hp] at hs
      rw [List.cons_append, List.cons_append, isWellFormed, if_pos hp, ih hs]
  | case4 u v s hp ih =>
      rw [isWellFormed, if_neg hp, Bool.and_eq_true] at hs
      have ih := ih hs.2
      rw [List.cons_append] at ih
      rw [List.cons_append, List.cons_append, isWellFormed, if_neg hp, hs.1, ih]
      rfl

theorem isWellFormed_cons {u : CodeUnit} {t : Text} (hu : isSurrogate u = false)
    (ht : isWellFormed t = true) : isWellFormed (u :: t) = true :=
  isWellFormed_append (s := [u]) (isWellFormed_of_units (by simpa using hu)) ht

theorem hexDigit_unit (n : ℕ) (h : n < 16) : isSurrogate (hexDigit n) = false := by
  have hall : ∀ m < 16, isSurrogate (hexDigit m) = false := by decide
  exact hall n h

theorem isWellFormed_escapeUnit (u : CodeUnit) : isWellFormed (escapeUnit u) = true := by
  unfold escapeUnit
  split_ifs with h1 h2 h3 h4 h5 h6 h7 h8
  all_goals try decide
  · have hu : u.val < 65536 := u.isLt
    have hd : ∀ n < 16, isSurrogate (hexDigit n) = false := hexDigit_unit
    refine isWellFormed_of_units ?_
    intro w hw
    rw [escapeHex] at hw
    simp only [List.mem_cons, List.not_mem_nil, or_false] at hw
    rcases hw with rfl | rfl | rfl | rfl | rfl | rfl
    · decide
    · decide
    · exact hd _ (by omega)
    · exact hd _ (Nat.mod_lt _ (by decide))
    · exact hd _ (Nat.mod_lt _ (by decide))
    · exact hd _ (Nat.mod_lt _ (by decide))
  · refine isWellFormed_of_units ?_
    intro w hw
    obtain rfl := List.mem_singleton.mp hw
    rw [Bool.not_eq_true, Bool.or_eq_false_iff, Bool.or_eq_false_iff] at h8
    rw [isSurrogate, h8.1.2, h8.2]
    rfl

theorem isWellFormed_quoteUnits (s : Text) : isWellFormed (quoteUnits s) = true := by
  induction s using quoteUnits.induct with
  | case1 => rfl
  | case2 u => exact isWellFormed_escapeUnit u
  | case3 u v t hp ih => rw [quoteUnits, if_pos hp, isWellFormed, if_pos hp, ih]
  | case4 u v t hp ih =>
      rw [quoteUnits, if_neg hp]
      exact isWellFormed_append (isWellFormed_escapeUnit u) ih

theorem isWellFormed_quote (s : Text) : isWellFormed (quote s) = true :=
  isWellFormed_cons (by decide)
    (isWellFormed_append (isWellFormed_quoteUnits s) (by decide))

theorem numeral_unit {u : CodeUnit} (h : isNumeralUnit u = true) : isSurrogate u = false := by
  have hsmall : ∀ w : CodeUnit, w.val < 0xD800 → isSurrogate w = false := by
    intro w hw
    rw [isSurrogate, Bool.or_eq_false_iff, isHighSurrogate, isLowSurrogate]
    constructor
    · rw [Bool.and_eq_false_iff]
      left
      rw [decide_eq_false_iff_not, not_le]
      exact hw
    · rw [Bool.and_eq_false_iff]
      left
      rw [decide_eq_false_iff_not, not_le]
      exact hw.trans (by decide)
  unfold isNumeralUnit at h
  simp only [Bool.or_eq_true, Bool.and_eq_true, decide_eq_true_eq, beq_iff_eq] at h
  rcases h with ((((h | rfl) | rfl) | rfl) | rfl) | rfl
  · exact hsmall u (lt_of_le_of_lt h.2 (by decide))
  all_goals decide

theorem isWellFormed_number (n : JsNumber) : isWellFormed n.text = true := by
  have h := n.isNumber
  rw [isJsonNumber.eq_def, Bool.and_eq_true, List.all_eq_true] at h
  exact isWellFormed_of_units (fun u hu => numeral_unit (h.1 u hu))

theorem isWellFormed_commaSeparated {ts : List Text} (h : ∀ t ∈ ts, isWellFormed t = true) :
    isWellFormed (commaSeparated ts) = true := by
  induction ts using commaSeparated.induct with
  | case1 => rfl
  | case2 t => exact h t (List.mem_singleton_self t)
  | case3 t ts hne ih =>
      rw [commaSeparated]
      · exact isWellFormed_append (h t (List.mem_cons_self ..)) (isWellFormed_cons (by decide)
          (ih (fun s hs => h s (List.mem_cons_of_mem _ hs))))
      · exact hne

mutual

theorem isWellFormed_canonText : ∀ v : Json, isWellFormed (canonText v) = true
  | .null => by decide
  | .bool true => by decide
  | .bool false => by decide
  | .num n => isWellFormed_number n
  | .str s => isWellFormed_quote s
  | .arr items =>
      isWellFormed_cons (by decide) (isWellFormed_append
        (isWellFormed_commaSeparated (isWellFormed_canonTexts items))
        (by decide))
  | .obj members => by
      rw [canonText]
      refine isWellFormed_cons (by decide) (isWellFormed_append (isWellFormed_commaSeparated ?_)
        (by decide))
      intro t ht
      obtain ⟨m, hm, rfl⟩ := List.mem_map.mp ht
      exact isWellFormed_append (isWellFormed_quote m.1) (isWellFormed_cons (by decide)
        (isWellFormed_canonMembers members m (mem_sortBy.mp hm)))

theorem isWellFormed_canonTexts : ∀ vs : List Json, ∀ t ∈ canonTexts vs, isWellFormed t = true
  | [] => nofun
  | v :: vs => by
      intro t ht
      rw [canonTexts] at ht
      rcases List.mem_cons.mp ht with rfl | ht
      · exact isWellFormed_canonText v
      · exact isWellFormed_canonTexts vs t ht

theorem isWellFormed_canonMembers : ∀ ms : List (Text × Json), ∀ m ∈ canonMembers ms,
    isWellFormed m.2 = true
  | [] => nofun
  | (k, v) :: ms => by
      intro m hm
      rw [canonMembers] at hm
      rcases List.mem_cons.mp hm with rfl | hm
      · exact isWellFormed_canonText v
      · exact isWellFormed_canonMembers ms m hm

end

/-! ### Reading bytes -/

/-- A sequence that has begun: the bytes it lacks, the bounds of the next one, the bits so far. -/
structure Begun where
  missing : ℕ
  lower : ℕ
  upper : ℕ
  bits : ℕ

/-- A byte where a sequence may begin: what it stands for, or the sequence it begins. -/
def leadByte (b : ℕ) : Text × Option Begun :=
  if b < 0x80 then ([Fin.ofNat 65536 b], none)
  else if 0xC2 ≤ b ∧ b ≤ 0xDF then ([], some ⟨1, 0x80, 0xBF, b - 0xC0⟩)
  else if 0xE0 ≤ b ∧ b ≤ 0xEF then
    ([], some ⟨2, if b = 0xE0 then 0xA0 else 0x80, if b = 0xED then 0x9F else 0xBF, b - 0xE0⟩)
  else if 0xF0 ≤ b ∧ b ≤ 0xF4 then
    ([], some ⟨3, if b = 0xF0 then 0x90 else 0x80, if b = 0xF4 then 0x8F else 0xBF, b - 0xF0⟩)
  else ([0xFFFD], none)

/-- `buffer.toString('utf8')`, after the bytes of a sequence that has begun: what cannot continue
a sequence ends it as one U+FFFD and is read anew. -/
def readUtf8 : Option Begun → List ℕ → Text
  | none, [] => []
  | some _, [] => [0xFFFD]
  | none, b :: rest => (leadByte b).1 ++ readUtf8 (leadByte b).2 rest
  | some s, b :: rest =>
      if s.lower ≤ b ∧ b ≤ s.upper then
        if s.missing = 1 then encodePoint (s.bits * 64 + (b - 0x80)) ++ readUtf8 none rest
        else readUtf8 (some ⟨s.missing - 1, 0x80, 0xBF, s.bits * 64 + (b - 0x80)⟩) rest
      else 0xFFFD :: ((leadByte b).1 ++ readUtf8 (leadByte b).2 rest)

/-- Every unit is an ASCII character. -/
def IsAscii (t : Text) : Prop := ∀ u ∈ t, u < 0x80

theorem IsAscii.append {s t : Text} (hs : IsAscii s) (ht : IsAscii t) : IsAscii (s ++ t) := by
  intro u hu
  exact (List.mem_append.mp hu).elim (hs u) (ht u)

theorem IsAscii.cons {u : CodeUnit} {t : Text} (hu : u < 0x80) (ht : IsAscii t) :
    IsAscii (u :: t) := by
  intro v hv
  rcases List.mem_cons.mp hv with rfl | hv
  · exact hu
  · exact ht v hv

theorem isSurrogate_ascii {u : CodeUnit} (hu : u < 0x80) :
    isHighSurrogate u = false ∧ isLowSurrogate u = false := by
  have h1 : ¬ (0xD800 : CodeUnit) ≤ u := not_le.mpr (hu.trans (by decide))
  have h2 : ¬ (0xDC00 : CodeUnit) ≤ u := not_le.mpr (hu.trans (by decide))
  simp [isHighSurrogate, isLowSurrogate, h1, h2]

theorem utf8Unit_ascii {u : CodeUnit} (hu : u < 0x80) : utf8Unit u = [u.val] := by
  obtain ⟨hhigh, hlow⟩ := isSurrogate_ascii hu
  rw [utf8Unit, hhigh, hlow]
  exact if_pos hu

theorem utf8_ascii {t : Text} (h : IsAscii t) : utf8 t = t.map Fin.val := by
  induction t using utf8.induct with
  | case1 => rfl
  | case2 u => exact utf8Unit_ascii (h u List.mem_cons_self)
  | case3 u v t hpair ih =>
    rw [(isSurrogate_ascii (h u List.mem_cons_self)).1] at hpair
    cases hpair
  | case4 u v t hpair ih =>
    rw [utf8, if_neg hpair, utf8Unit_ascii (h u List.mem_cons_self),
      ih fun w hw => h w (List.mem_cons_of_mem _ hw)]
    rfl

theorem readUtf8_ascii {t : Text} (h : IsAscii t) : readUtf8 none (utf8 t) = t := by
  rw [utf8_ascii h]
  induction t with
  | nil => rfl
  | cons u t ih =>
    have hu : u.val < 0x80 := h u List.mem_cons_self
    rw [List.map_cons, readUtf8, leadByte, if_pos hu, ofNat_val,
      ih fun v hv => h v (List.mem_cons_of_mem _ hv)]
    rfl

end QeReport

import QeReport.Sdk.Shortfall

/-! # How much URLs and bearer tokens fall short of their replacements

The user information of a URL and a bearer token give weights of places as values do.  A bearer
token reads on until what is of no token, and so up to a mark; but no mark is put where a token can
go on into it, except behind the signs of a URL (`not_beforeSecret`). -/

namespace QeReport.Sdk.Redactor

open Regex (Cursor Match concat drop_take_eq exec exec_concat_cons exec_concat_nil
  exec_many_eq_some exec_many_total exec_star_total head?_drop_of_lt head?_of_take_eq
  length_le_of_startsWith length_takeWhile_le length_takeWhile_of_head matchAt replaceFrom
  startsWith startsWith_take takeWhile_append_cons takeWhile_of_take_eq)

/-! ### User information of a URL -/

/-- The length of a scheme with its `://`. -/
def schemeLength (t : Text) : Option ℕ :=
  let n := ((t.drop 1).takeWhile (isSchemeChar codeUnits)).length
  if t.head?.any (isInI codeUnits (range 'a' 'z')) = true ∧ n ≤ 30 ∧
      startsWith (letters codeUnits "://") (t.drop (1 + n)) = true then some (1 + n + 3)
  else none

/-- The length of a user and a password before an `@`. -/
def userLength (t : Text) : Option ℕ :=
  let n := (t.takeWhile (isUrlChar codeUnits "/:@")).length
  let m := ((t.drop (n + 1)).takeWhile (isUrlChar codeUnits "/@")).length
  if 1 ≤ n ∧ n ≤ 256 ∧ startsWith (letters codeUnits ":") (t.drop n) = true ∧ 1 ≤ m ∧ m ≤ 256 ∧
      startsWith (letters codeUnits "@") (t.drop (n + 1 + m)) = true then some (n + 1 + m)
  else none

/-- By how much a user with a password falls short of its replacement. -/
def userShortfall (t : Text) : ℕ := (userLength t).elim 0 (fun n => 10 - n)

/-- By how much the user information of a URL that begins at a place falls short. -/
def urlShortfall (before rest : Text) : ℕ :=
  if before.getLast?.any (isSchemeChar codeUnits) then 0
  else (schemeLength rest).elim 0 (fun n => userShortfall (rest.drop n))

theorem schemeLength_eq_some {t : Text} {l : ℕ} : schemeLength t = some l ↔ ∃ n, l = 1 + n + 3 ∧
    ((t.drop 1).takeWhile (isSchemeChar codeUnits)).length = n ∧
    t.head?.any (isInI codeUnits (range 'a' 'z')) = true ∧ n ≤ 30 ∧
    startsWith (letters codeUnits "://") (t.drop (1 + n)) = true := by
  rw [schemeLength]
  constructor
  · intro h
    split_ifs at h with hall
    exact ⟨_, (Option.some.inj h).symm, rfl, hall⟩
  · rintro ⟨n, rfl, rfl, hall⟩
    rw [if_pos hall]

theorem userLength_eq_some {t : Text} {l : ℕ} : userLength t = some l ↔ ∃ n m, l = n + 1 + m ∧
    (t.takeWhile (isUrlChar codeUnits "/:@")).length = n ∧
    ((t.drop (n + 1)).takeWhile (isUrlChar codeUnits "/@")).length = m ∧
    1 ≤ n ∧ n ≤ 256 ∧ startsWith (letters codeUnits ":") (t.drop n) = true ∧ 1 ≤ m ∧ m ≤ 256 ∧
    startsWith (letters codeUnits "@") (t.drop (n + 1 + m)) = true := by
  rw [userLength]
  constructor
  · intro h
    split_ifs at h with hall
    exact ⟨_, _, (Option.some.inj h).symm, rfl, rfl, hall⟩
  · rintro ⟨n, m, rfl, rfl, rfl, hall⟩
    rw [if_pos hall]

/-! ### A match of the pattern -/

theorem eq_unit_of_sign {ch : Char} (hch : ch ∈ "://@".toList) {x : CodeUnit}
    (hx : isInI codeUnits (· = ch.toNat) x = true) : x = unit ch := by
  have hsigns : ch = ':' ∨ ch = '/' ∨ ch = '@' := by simpa using hch
  rcases hsigns with rfl | rfl | rfl
  · exact Fin.ext (code_of_isInI (by decide) (by decide) hx)
  · exact Fin.ext (code_of_isInI (by decide) (by decide) hx)
  · exact Fin.ext (code_of_isInI (by decide) (by decide) hx)

/-- The signs of a URL are read as they are written. -/
theorem eq_append_of_startsWith {s : String} (hs : s.toList.all ("://@".toList.contains ·) = true)
    {t : Text} (h : startsWith (letters codeUnits s) t = true) :
    t = s.toList.map unit ++ t.drop s.toList.length := by
  rw [letters] at h
  generalize s.toList = l at hs h
  induction l generalizing t with
  | nil => simp
  | cons ch l ih =>
      rw [List.all_cons, Bool.and_eq_true, List.contains_iff_mem] at hs
      obtain ⟨hch, hl⟩ := hs
      cases t with
      | nil => exact absurd h Bool.false_ne_true
      | cons x t =>
          rw [List.map_cons, startsWith, Bool.and_eq_true] at h
          rw [List.map_cons, List.cons_append, List.length_cons, List.drop_succ_cons,
            ← eq_unit_of_sign hch h.1, ← ih hl h.2]

/-- A sign ends a run of what it is not of. -/
theorem length_takeWhile_of_sign {s : String} {ch : Char} {w : List Char} {p : CodeUnit → Bool}
    {t : Text} {n : ℕ} (hs : s.toList = ch :: w)
    (hsigns : s.toList.all ("://@".toList.contains ·) = true) (hp : p (unit ch) = false) (hn : n ≤ (t.takeWhile p).length)
    (h : startsWith (letters codeUnits s) (t.drop n) = true) : (t.takeWhile p).length = n := by
  refine length_takeWhile_of_head hn ?_
  rw [eq_append_of_startsWith hsigns h, hs]
  exact hp

/-- A match of the pattern: the user information stands behind the scheme. -/
structure UserinfoMatch (prev : Option CodeUnit) (rest : Text) (m : Match CodeUnit) (n l : ℕ) :
    Prop where
  apart : prev.any (isSchemeChar codeUnits) = false
  scheme : schemeLength rest = some n
  user : userLength (rest.drop n) = some l
  length : m.length = n + l + 1
  captured : captured m 1 = rest.take n

theorem exists_userinfoMatch {prev : Option CodeUnit} {rest : Text} {m : Match CodeUnit}
    (h : matchAt (urlUserinfo codeUnits) prev rest = some m) :
    ∃ n l, UserinfoMatch prev rest m n l := by
  obtain ⟨d, hd, rfl⟩ := Option.map_eq_some_iff.mp h
  rw [urlUserinfo, exec_concat_cons, exec] at hd
  split_ifs at hd with hprev
  rw [exec_concat_cons, exec, exec_concat_cons, exec] at hd
  split_ifs at hd with hhead
  rw [exec_concat_cons] at hd
  obtain ⟨n, -, hn, hn30, hd⟩ := exec_many_eq_some hd
  rw [exec_concat_cons, exec_litI, exec_concat_nil] at hd
  split_ifs at hd with hsigns
  rw [exec_concat_cons] at hd
  obtain ⟨i, hi1, hi, hi256, hd⟩ := exec_many_eq_some hd
  rw [exec_concat_cons, exec_litI] at hd
  split_ifs at hd with hcolon
  rw [exec_concat_cons] at hd
  obtain ⟨j, hj1, hj, hj256, hd⟩ := exec_many_eq_some hd
  rw [exec_concat_cons, exec_litI, exec_concat_nil] at hd
  split_ifs at hd with hat
  obtain rfl := Option.some.inj hd
  have hsignsLength : "://".toList.length = 3 := by decide
  have hcolonLength : ":".toList.length = 1 := by decide
  have hatLength : "@".toList.length = 1 := by decide
  simp only [hsignsLength, hcolonLength, hatLength, Cursor.rest_move, List.drop_drop,
    Cursor.groups_move] at hn hsigns hi hcolon hj hat hhead hprev ⊢
  have hn' := length_takeWhile_of_sign (s := "://") rfl (by decide) (by decide) hn
    (by rwa [List.drop_drop])
  have hi' := length_takeWhile_of_sign (s := ":") rfl (by decide) (by decide) hi
    (by rwa [List.drop_drop])
  have hj' := length_takeWhile_of_sign (s := "@") rfl (by decide) (by decide) hj
    (by rwa [List.drop_drop])
  have hle := length_le_of_startsWith hat
  rw [letters, List.length_map, hatLength, List.length_drop] at hle
  refine ⟨1 + n + 3, i + 1 + j, Bool.not_eq_true _ ▸ hprev,
    schemeLength_eq_some.mpr ⟨n, rfl, hn', hhead, hn30 30 rfl, hsigns⟩,
    userLength_eq_some.mpr ⟨i, j, rfl, hi', ?_, hi1, hi256 256 rfl, ?_, hj1, hj256 256 rfl, ?_⟩,
    ?_, ?_⟩
  · rwa [List.drop_drop, ← Nat.add_assoc]
  · rwa [List.drop_drop]
  · rwa [List.drop_drop, ← Nat.add_assoc, ← Nat.add_assoc]
  · rw [List.length_drop]
    dsimp only
    omega
  · have htext : rest.length - (rest.drop (1 + n + 3)).length = 1 + n + 3 := by
      rw [List.length_drop]
      omega
    simp only [captured, Match.group?, Cursor.textTo, Cursor.rest_move, List.drop_drop, htext]
    rfl

/-- What is written for user information is longer by no more than it falls short. -/
theorem length_urlRule_le {b rest : Text} {m : Match CodeUnit}
    (h : matchAt (urlUserinfo codeUnits) b.getLast? rest = some m) :
    ((urlRule codeUnits).replacement m).length ≤ m.length + urlShortfall b rest := by
  obtain ⟨n, l, hm⟩ := exists_userinfoMatch h
  have hshort : urlShortfall b rest = 10 - l := by
    rw [urlShortfall, if_neg (Bool.not_eq_true _ ▸ hm.apart), hm.scheme, Option.elim_some,
      userShortfall, hm.user, Option.elim_some]
  have hlength : ((urlRule codeUnits).replacement m).length = (rest.take n).length + 10 + 1 := by
    rw [← hm.captured, urlRule, List.length_append, List.length_append]
    rfl
  have htake := List.length_take_le n rest
  rw [hlength, hshort, hm.length]
  omega

/-- A rule that looks for user information hides it behind the scheme. -/
theorem hides_url (b b' : Text) (prev : Option CodeUnit) (rest : Text) :
    Hides (redacted codeUnits) BeforeSecret EndsSecret b b' rest
      (replaceFrom (urlUserinfo codeUnits) (urlRule codeUnits).replacement 0 prev rest) := by
  refine hides_replaceFrom (minLength_urlUserinfo_pos codeUnits) (fun prev rest m h => ?_)
    b b' prev rest
  obtain ⟨n, l, hm⟩ := exists_userinfoMatch h
  obtain ⟨i, rfl, -, -, -, hsigns⟩ := schemeLength_eq_some.mp hm.scheme
  obtain ⟨j, k, rfl, -, -, -, -, -, -, -, hat⟩ := userLength_eq_some.mp hm.user
  rw [List.drop_drop] at hat
  have hat' := eq_append_of_startsWith (by decide) hat
  have hsigns' := eq_append_of_startsWith (by decide) hsigns
  refine ⟨rest.take (1 + i + 3), (rest.drop (1 + i + 3)).take (j + 1 + k), written codeUnits "@",
    ?_, ?_, fun b => .inr ?_, ?_⟩
  · rw [hm.length, List.take_add, List.take_add, hat']
    rfl
  · rw [← hm.captured]
    rfl
  · rw [List.take_add, hsigns', ← List.append_assoc]
    exact List.suffix_append _ _
  · rfl

/-! ### URLs around a mark -/

theorem local_userShortfall : Local (redacted codeUnits) userShortfall := by
  intro t' hpos
  rw [userShortfall] at hpos
  cases hl : userLength t' with
  | none =>
      rw [hl] at hpos
      exact absurd hpos (Nat.lt_irrefl 0)
  | some l =>
      obtain ⟨n, m, rfl, hn, hm, hn1, hn256, hcolon, hm1, hm256, hat⟩ := userLength_eq_some.mp hl
      rw [hl, Option.elim_some] at hpos
      refine ⟨n + 1 + m + 1, by omega, ⟨0, fun x hx => ?_, ?_, fun i x hi hx hmem => ?_⟩,
        fun t ht => ?_⟩
      · rw [List.take_zero] at hx
        cases hx
      · have hmark : (redacted codeUnits).length = 10 := by decide
        omega
      · obtain rfl := Nat.succ.inj hi
        have hat' := eq_append_of_startsWith (by decide) hat
        have hx' : x = unit '@' := by
          rw [← List.head?_drop, hat'] at hx
          exact (Option.some.inj hx).symm
        have hno : unit '@' ∉ redacted codeUnits := by decide
        exact hno (hx' ▸ hmem)
      · have hdrop : ∀ i j, i + j = n + 1 + m + 1 → (t.drop i).take j = (t'.drop i).take j := by
          intro i j hij
          refine drop_take_eq ?_
          rw [hij]
          exact ht
        have hstart : ∀ {s : String} {i : ℕ}, s.toList.length = 1 → i + 1 ≤ n + 1 + m + 1 →
            startsWith (letters codeUnits s) (t'.drop i) = true →
            startsWith (letters codeUnits s) (t.drop i) = true := by
          intro s i hs hi h
          have hlength : (letters codeUnits s).length ≤ n + 1 + m + 1 - i := by
            rw [letters, List.length_map]
            omega
          rw [← startsWith_take hlength] at h ⊢
          rw [hdrop i _ (by omega)]
          exact h
        have hsame : userLength t = some (n + 1 + m) := by
          refine userLength_eq_some.mpr ⟨n, m, rfl, ?_, ?_, hn1, hn256,
            hstart (by decide) (by omega) hcolon, hm1, hm256, hstart (by decide) (by omega) hat⟩
          · rw [takeWhile_of_take_eq ht (by omega), hn]
          · rw [takeWhile_of_take_eq (hdrop (n + 1) (m + 1) (by omega)) (by omega), hm]
        rw [userShortfall, userShortfall, hsame, hl]

/-- A character of a class that does not have the bracket begins no mark. -/
theorem mark_ne_of_class {p : CodeUnit → Bool} (hp : p (unit '[') = false) {x : CodeUnit}
    (hx : p x = true) : (redacted codeUnits).head? ≠ some x := by
  have hhead : (redacted codeUnits).head? = some (unit '[') := by decide
  rw [hhead]
  rintro ⟨⟩
  rw [hp] at hx
  cases hx

theorem schemeLength_local (t' : Text) (l : ℕ) (h : schemeLength t' = some l) :
    (∀ x ∈ t'.take l, (redacted codeUnits).head? ≠ some x) ∧ l ≤ t'.length ∧
      ∀ t : Text, t.take (l + 1) = t'.take (l + 1) → schemeLength t = some l := by
  obtain ⟨n, rfl, hn, hhead, hn30, hsigns⟩ := schemeLength_eq_some.mp h
  have hlength : (letters codeUnits "://").length = 3 := by decide
  refine ⟨fun x hx => ?_, ?_, fun t ht => ?_⟩
  · rw [List.take_add, List.take_add, List.mem_append, List.mem_append] at hx
    rcases hx with (hx | hx) | hx
    · obtain ⟨y, hy, hletter⟩ := (Option.any_eq_true _ _).mp hhead
      obtain ⟨u, rfl⟩ := List.head?_eq_some_iff.mp hy
      rw [List.take_succ_cons, List.take_zero, List.mem_singleton] at hx
      exact mark_ne_of_class (by decide) (hx ▸ hletter)
    · rw [← hn] at hx
      exact mark_ne_of_class (by decide) (of_mem_take_takeWhile hx)
    · rw [eq_append_of_startsWith (by decide) hsigns] at hx
      have hall : (txt "://").all (isInI codeUnits (oneOf ":/")) = true := by decide
      exact mark_ne_of_class (by decide) (List.all_eq_true.mp hall x hx)
  · have hle := length_le_of_startsWith hsigns
    rw [hlength, List.length_drop] at hle
    omega
  · have hdrop : ∀ i j, i + j = 1 + n + 3 + 1 → (t.drop i).take j = (t'.drop i).take j := by
      intro i j hij
      refine drop_take_eq ?_
      rw [hij]
      exact ht
    refine schemeLength_eq_some.mpr ⟨n, rfl, ?_, ?_, hn30, ?_⟩
    · rw [takeWhile_of_take_eq (hdrop 1 (n + 4) (by omega)) (by omega), hn]
    · rw [head?_of_take_eq (by omega) ht]
      exact hhead
    · rw [← startsWith_take (n := 4) (by omega), hdrop (1 + n) 4 (by omega),
        startsWith_take (by omega)]
      exact hsigns

theorem schemeLength_eq_none {t : Text} (h : t.head?.any (isWord codeUnits) = false) :
    schemeLength t = none := by
  rw [schemeLength, if_neg]
  rintro ⟨hhead, -⟩
  obtain ⟨x, hx, hletter⟩ := (Option.any_eq_true _ _).mp hhead
  have hword : isWord codeUnits x = true :=
    (@isAscii_range 'a' 'z' (by decide)).ignoringCase.forall
      (q := fun c => ignoringCase (alphaNumericOr "_-") c = true) (by decide) hletter
  rw [hx, Option.any_some, hword] at h
  cases h

/-- User information falls short by no more where parts of a text are hidden. -/
theorem steady_url (front : Text → Prop) :
    Steady (redacted codeUnits) front EndsSecret urlShortfall := by
  refine ⟨fun {b b' t t' x} h hb => ?_, fun b u v t huv hv => ?_⟩
  · have hle := (local_userShortfall.after _ schemeLength_local).le (by decide) h
    rw [urlShortfall, urlShortfall]
    rcases hb with hb | hb
    · rw [hb]
      split_ifs
      · exact Nat.le_refl 0
      · exact hle
    · rw [schemeLength_eq_none (t := x :: t') hb]
      split_ifs <;> exact Nat.zero_le _
  · rw [urlShortfall]
    rcases mark_split huv hv with ⟨rfl, rfl⟩ | ⟨hlast, rfl⟩ | ⟨hlast, hhead⟩
    · have hword : (redacted codeUnits).head?.any (isWord codeUnits) = false := by decide
      rw [schemeLength_eq_none (by rw [head?_append_any hv, hword])]
      split_ifs <;> rfl
    · have hnone : schemeLength (txt "REDACTED" ++ [unit ']'] ++ t) = none := by
        rw [schemeLength, if_neg]
        rintro ⟨-, -, hsigns⟩
        have hdrop : (txt "REDACTED" ++ [unit ']'] ++ t).drop 1 =
            txt "EDACTED" ++ unit ']' :: t := rfl
        have hrun : ((txt "EDACTED" ++ unit ']' :: t).takeWhile
            (isSchemeChar codeUnits)).length = 7 := by
          rw [takeWhile_append_cons (by decide)]
          decide
        rw [hdrop, hrun] at hsigns
        have hbracket : unit ']' = unit ':' :=
          Option.some.inj (congrArg List.head? (eq_append_of_startsWith (by decide) hsigns))
        exact absurd hbracket (by decide)
      rw [hnone]
      split_ifs <;> rfl
    · rw [if_pos]
      refine getLast?_append_of_any ?_
      obtain ⟨x, hx, hupper⟩ := (Option.any_eq_true _ _).mp hlast
      rw [hx]
      exact (@isAscii_range 'A' 'Z' (by decide)).forall
        (q := fun c => ignoringCase (fun c => range 'a' 'z' c || range '0' '9' c ||
          oneOf "+.-" c) c = true) (by decide) hupper

/-! ### Bearer tokens -/

/-- The length of the word, of the blanks behind it and of a token. -/
def bearerLength (t : Text) : Option ℕ :=
  let n := ((t.drop 6).takeWhile (isBlank codeUnits)).length
  let m := ((t.drop (6 + n)).takeWhile isTokenChar).length
  if startsWith (letters codeUnits "bearer") t = true ∧ 1 ≤ n ∧ 1 ≤ m then some (6 + n + m)
  else none

/-- By how much a bearer token that begins at a place, with its word, falls short of its
replacement. -/
def bearerShortfall (before rest : Text) : ℕ :=
  if before.getLast?.any (isInI codeUnits (alphaNumericOr "_")) then 0
  else (bearerLength rest).elim 0 (fun n => 17 - n)

theorem bearerLength_eq_some {t : Text} {l : ℕ} : bearerLength t = some l ↔ ∃ n m,
    l = 6 + n + m ∧ ((t.drop 6).takeWhile (isBlank codeUnits)).length = n ∧
    ((t.drop (6 + n)).takeWhile isTokenChar).length = m ∧
    startsWith (letters codeUnits "bearer") t = true ∧ 1 ≤ n ∧ 1 ≤ m := by
  rw [bearerLength]
  constructor
  · intro h
    split_ifs at h with hall
    exact ⟨_, _, (Option.some.inj h).symm, rfl, rfl, hall⟩
  · rintro ⟨n, m, rfl, rfl, rfl, hall⟩
    rw [if_pos hall]

theorem isBlank_of_isTokenChar {x : CodeUnit} (h : isTokenChar x = true) :
    isBlank codeUnits x = false :=
  (isAscii_alphaNumericOr (by decide)).ignoringCase.forall
    (q := fun c => ignoringCase (oneOf " \t") c = false) (by decide) h

/-- A match of the pattern takes the word, the blanks and the token, if not more. -/
theorem bearerLength_of_matchAt {prev : Option CodeUnit} {rest : Text} {m : Match CodeUnit}
    (h : matchAt (bearer codeUnits) prev rest = some m) :
    prev.any (isInI codeUnits (alphaNumericOr "_")) = false ∧
      ∃ l, bearerLength rest = some l ∧ l ≤ m.length := by
  obtain ⟨d, hd, rfl⟩ := Option.map_eq_some_iff.mp h
  rw [bearer, exec_concat_cons, exec] at hd
  split_ifs at hd with hprev
  rw [exec_concat_cons, exec_litI] at hd
  split_ifs at hd with hword
  have hwordLength : "bearer".toList.length = 6 := by decide
  rw [hwordLength, exec_concat_cons] at hd
  obtain ⟨n, hn1, hn, -, hd⟩ := exec_many_eq_some hd
  rw [exec_concat_cons] at hd
  obtain ⟨i, hi1, hi, -, -⟩ := exec_many_eq_some hd
  have hstar : ∀ c : Cursor CodeUnit,
      (exec (concat [star (isInI codeUnits (oneOf "="))]) c some).isSome = true := by
    intro c
    rw [exec_concat_cons, star, exec_star_total rfl]
    rfl
  -- the token goes as far as it can
  rw [exec_many_total (Nat.le_trans hi1 hi) (hstar _), exec_concat_cons] at hd
  obtain ⟨e, -, -, -, hd⟩ := exec_many_eq_some hd
  rw [exec_concat_nil] at hd
  obtain rfl := Option.some.inj hd
  simp only [Cursor.rest_move, List.drop_drop] at hn hi hword hprev ⊢
  have hblank : ((rest.drop 6).takeWhile (isBlank codeUnits)).length = n := by
    refine length_takeWhile_of_head hn ?_
    obtain ⟨x, hx, htoken⟩ := head?_drop_of_lt (n := 0) (Nat.lt_of_lt_of_le hi1 hi)
    rw [List.drop_zero] at hx
    rw [List.drop_drop, hx, Option.any_some, isBlank_of_isTokenChar htoken]
  refine ⟨Bool.not_eq_true _ ▸ hprev, _, bearerLength_eq_some.mpr ⟨n, _, rfl, hblank, rfl, hword,
    hn1, Nat.le_trans hi1 hi⟩, ?_⟩
  have hle := length_takeWhile_le isTokenChar (rest.drop (6 + n))
  have hpos : 1 ≤ ((rest.drop (6 + n)).takeWhile isTokenChar).length := Nat.le_trans hi1 hi
  rw [List.length_drop] at hle ⊢
  change _ ≤ rest.length - (rest.length - (6 + n +
    ((rest.drop (6 + n)).takeWhile isTokenChar).length + e))
  omega

/-- What is written for a bearer token is longer by no more than it falls short. -/
theorem length_bearer_le {b rest : Text} {m : Match CodeUnit}
    (h : matchAt (bearer codeUnits) b.getLast? rest = some m) :
    (written codeUnits "Bearer " ++ redacted codeUnits).length ≤
      m.length + bearerShortfall b rest := by
  obtain ⟨hprev, l, hl, hle⟩ := bearerLength_of_matchAt h
  have hlength : (written codeUnits "Bearer " ++ redacted codeUnits).length = 17 := by decide
  rw [bearerShortfall, hprev, if_neg Bool.false_ne_true, hl, Option.elim_some, hlength]
  omega

/-! ### Bearer tokens around a mark -/

/-- A character of a word, of blanks or of a token. -/
def isBearerChar (x : CodeUnit) : Bool := isInI codeUnits (alphaNumericOr "-._~+/ \t") x

theorem isBearerChar_of_mem {t : Text} {l : ℕ} (h : bearerLength t = some l) :
    ∀ x ∈ t.take l, isBearerChar x = true := by
  obtain ⟨n, m, rfl, hn, hm, hword, -, -⟩ := bearerLength_eq_some.mp h
  have hmono : ∀ {p : Chars} {x : CodeUnit}, (∀ c, p c = true →
      alphaNumericOr "-._~+/ \t" c = true) → isInI codeUnits p x = true → isBearerChar x = true :=
    fun hp hx => ignoringCase_mono hp hx
  intro x hx
  rw [List.take_add, List.take_add, List.mem_append, List.mem_append] at hx
  rcases hx with (hx | hx) | hx
  · have hlength : (letters codeUnits "bearer").length = 6 := by decide
    rw [← hlength] at hx
    refine forall_take_of_startsWith (P := fun x => isBearerChar x = true) hword
      (fun p hp x hpx => ?_) x hx
    obtain ⟨ch, hch, rfl⟩ := List.mem_map.mp hp
    refine hmono (fun c hc => ?_) hpx
    have hall : "bearer".toList.all (fun ch => alphaNumericOr "-._~+/ \t" ch.toNat) = true := by
      decide
    rw [of_decide_eq_true hc]
    exact List.all_eq_true.mp hall ch hch
  · rw [← hn] at hx
    refine hmono (fun c hc => ?_) (of_mem_take_takeWhile hx)
    have hblank : " \t".toList.all (fun ch => alphaNumericOr "-._~+/ \t" ch.toNat) = true := by
      decide
    obtain ⟨ch, hch, heq⟩ := List.any_eq_true.mp hc
    rw [← of_decide_eq_true heq]
    exact List.all_eq_true.mp hblank ch hch
  · rw [← hm] at hx
    refine hmono (fun c hc => ?_) (of_mem_take_takeWhile hx)
    rw [alphaNumericOr, Bool.or_eq_true] at hc ⊢
    refine hc.imp_right (fun hc => ?_)
    obtain ⟨ch, hch, heq⟩ := List.any_eq_true.mp hc
    exact List.any_eq_true.mpr ⟨ch, List.mem_append_left [' ', '\t'] hch, heq⟩

/-- No mark stands within a bearer token, nor behind one that goes on. -/
theorem not_beforeSecret {t : Text} {l : ℕ} (h : bearerLength t = some l) (b : Text) :
    ¬ BeforeSecret (b ++ t.take l) := by
  have hchars := isBearerChar_of_mem h
  obtain ⟨n, m, rfl, -, hm, -, -, hm1⟩ := bearerLength_eq_some.mp h
  have hle := length_takeWhile_le isTokenChar (t.drop (6 + n))
  rw [hm, List.length_drop] at hle
  rintro (hlast | hsigns)
  · have hne : (t.drop (6 + n)).take m ≠ [] := by
      rw [← List.length_pos_iff, List.length_take, List.length_drop]
      omega
    have htoken : ((t.drop (6 + n)).take m).getLast?.any isTokenChar = true := by
      have hall : ∀ x ∈ (t.drop (6 + n)).take m, isTokenChar x = true := by
        intro x hx
        rw [← hm] at hx
        exact of_mem_take_takeWhile hx
      rw [List.getLast?_eq_some_getLast hne, Option.any_some]
      exact hall _ (List.getLast_mem hne)
    rw [List.take_add, ← List.append_assoc, getLast?_append_of_any htoken] at hlast
    cases hlast
  · have hsuffix : txt "://" <:+ t.take (6 + n + m) := by
      refine List.suffix_of_suffix_length_le hsigns (List.suffix_append _ _) ?_
      have hthree : (txt "://").length = 3 := by decide
      rw [hthree, List.length_take]
      omega
    have hcolon := hchars (unit ':') (hsuffix.subset (by decide))
    exact absurd hcolon (by decide)

theorem bearerLength_of_take {t t' : Text} {l : ℕ} (h : bearerLength t' = some l)
    (ht : t.take (l + 1) = t'.take (l + 1)) : bearerLength t = some l := by
  obtain ⟨n, m, rfl, hn, hm, hword, hn1, hm1⟩ := bearerLength_eq_some.mp h
  have hlength : (letters codeUnits "bearer").length = 6 := by decide
  have hdrop : ∀ i j, i + j = 6 + n + m + 1 → (t.drop i).take j = (t'.drop i).take j := by
    intro i j hij
    refine drop_take_eq ?_
    rw [hij]
    exact ht
  refine bearerLength_eq_some.mpr ⟨n, m, rfl, ?_, ?_, ?_, hn1, hm1⟩
  · rw [takeWhile_of_take_eq (hdrop 6 (n + m + 1) (by omega)) (by omega), hn]
  · rw [takeWhile_of_take_eq (hdrop (6 + n) (m + 1) (by omega)) (by omega), hm]
  · rw [← startsWith_take (n := 6 + n + m + 1) (by omega), ht, startsWith_take (by omega)]
    exact hword

theorem head?_of_startsWith_bearer {t : Text}
    (h : startsWith (letters codeUnits "bearer") t = true) :
    ∃ x, t.head? = some x ∧ isInI codeUnits (· = 'b'.toNat) x = true := by
  cases t with
  | nil => exact absurd h Bool.false_ne_true
  | cons x t =>
      have hletters : "bearer".toList = 'b' :: "earer".toList := by decide
      rw [letters, hletters, List.map_cons, startsWith, Bool.and_eq_true] at h
      exact ⟨x, rfl, h.1⟩

theorem bearerLength_eq_none {t : Text}
    (h : t.head?.any (isInI codeUnits (· = 'b'.toNat)) = false) : bearerLength t = none := by
  rw [bearerLength, if_neg]
  rintro ⟨hword, -⟩
  obtain ⟨x, hx, hletter⟩ := head?_of_startsWith_bearer hword
  rw [hx, Option.any_some, hletter] at h
  cases h

/-- A bearer token falls short by no more where parts of a text are hidden. -/
theorem steady_bearer : Steady (redacted codeUnits) BeforeSecret EndsSecret bearerShortfall := by
  refine ⟨fun {b b' t t' x} h hb => ?_, fun b u v t huv hv => ?_⟩
  · rw [bearerShortfall, bearerShortfall]
    cases hl : bearerLength (x :: t') with
    | none => split_ifs <;> exact Nat.zero_le _
    | some l =>
        have hread := h.take_succ_eq (by decide)
          (fun y hy => mark_ne_of_class (by decide) (isBearerChar_of_mem hl y hy))
          (not_beforeSecret hl b')
        rcases hb with hb | hb
        · rw [hb, bearerLength_of_take hl hread]
        · have hletter : isInI codeUnits (· = 'b'.toNat) x = false := by
            refine Bool.eq_false_iff.mpr fun hx => Bool.eq_false_iff.mp hb ?_
            refine ignoringCase_mono (fun c hc => ?_) hx
            rw [of_decide_eq_true hc]
            decide
          rw [bearerLength_eq_none (t := x :: t') hletter] at hl
          cases hl
  · rw [bearerShortfall]
    rcases mark_split huv hv with ⟨rfl, rfl⟩ | ⟨hlast, rfl⟩ | ⟨hlast, hhead⟩
    · have hb : (redacted codeUnits).head?.any (isInI codeUnits (· = 'b'.toNat)) = false := by
        decide
      rw [bearerLength_eq_none (by rw [head?_append_any hv, hb])]
      split_ifs <;> rfl
    · have hb : (txt "REDACTED" ++ [unit ']']).head?.any (isInI codeUnits (· = 'b'.toNat)) =
          false := by
        decide
      rw [bearerLength_eq_none (by rw [head?_append_any hv, hb])]
      split_ifs <;> rfl
    · rw [if_pos]
      refine getLast?_append_of_any ?_
      obtain ⟨x, hx, hupper⟩ := (Option.any_eq_true _ _).mp hlast
      rw [hx]
      exact (@isAscii_range 'A' 'Z' (by decide)).forall
        (q := fun c => ignoringCase (alphaNumericOr "_") c = true) (by decide) hupper

end QeReport.Sdk.Redactor

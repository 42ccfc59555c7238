import QeReport.Sdk.TokenShortfall

/-! # How much longer redaction can make a text

`lengthening` adds up, over the places of a text, by how much the value of a name, the user
information of a URL or a bearer token that stands there falls short of what is written for it.
What one rule writes hides what it replaces from the rules after it, and shows them nothing new, or
pays for what it shows by its own length, as a private key does; so redaction makes a text longer by
no more (`length_redactText_le`). -/

namespace QeReport.Sdk.Redactor

open Regex (Match getLast?_take_of_startsWith head?_drop_of_lt head?_drop_of_startsWith lastOf
  matchAt matchAt_length minLength replaceAll replaceFrom replaceFrom_none replaceFrom_some
  scan_induction search_eq_some startsWith)

/-! ### Private keys -/

theorem valueShortfall_le (stops : String) (t : Text) : valueShortfall stops t ≤ 10 := by
  have hquoted : ∀ quote, quotedShortfall quote t ≤ 10 := by
    intro quote
    rw [quotedShortfall]
    cases hn : quotedLength codeUnits quote t with
    | none => exact Nat.zero_le _
    | some n =>
        obtain ⟨m, rfl, -⟩ := quotedLength_eq_some.mp hn
        rw [Option.elim_some]
        omega
  exact Nat.max_le.mpr ⟨Nat.sub_le _ _, Nat.max_le.mpr ⟨hquoted _, hquoted _⟩⟩

theorem namedShortfall_le (names : List String) (stops : String) (b t : Text) :
    namedShortfall names stops b t ≤ 10 := by
  have hnames : ∀ q t, nameShortfall names stops q t ≤ 10 := by
    refine fun q t => greatest_le fun name _ => ?_
    cases nameLength q name t with
    | none => exact Nat.zero_le _
    | some n => exact valueShortfall_le stops _
  rw [namedShortfall]
  split_ifs
  · exact hnames _ _
  · exact Nat.zero_le _
  · exact hnames _ _

theorem urlShortfall_le (b t : Text) : urlShortfall b t ≤ 10 := by
  rw [urlShortfall]
  split_ifs
  · exact Nat.zero_le _
  · cases schemeLength t with
    | none => exact Nat.zero_le _
    | some n =>
        rw [Option.elim_some, userShortfall]
        cases userLength (t.drop n) with
        | none => exact Nat.zero_le _
        | some m => exact Nat.sub_le _ _

/-- What names and URLs that begin at a place fall short of. -/
def plainShortfall (before rest : Text) : ℕ :=
  namedShortfall sensitiveHeaders "\r\n" before rest +
    namedShortfall sensitiveKeys "\r\n,;&" before rest + urlShortfall before rest

theorem plainShortfall_le (b t : Text) : plainShortfall b t ≤ 30 := by
  have hheader := namedShortfall_le sensitiveHeaders "\r\n" b t
  have hkey := namedShortfall_le sensitiveKeys "\r\n,;&" b t
  have hurl := urlShortfall_le b t
  rw [plainShortfall]
  omega

theorem steady_headers (front : Text → Prop) :
    Steady (redacted codeUnits) front EndsSecret (namedShortfall sensitiveHeaders "\r\n") :=
  steady_named areWords_sensitiveHeaders (marks_of_all (by decide)) front
    (by decide)

theorem steady_keys (front : Text → Prop) :
    Steady (redacted codeUnits) front EndsSecret (namedShortfall sensitiveKeys "\r\n,;&") :=
  steady_named areWords_sensitiveKeys (marks_of_all (by decide)) front (by decide)

theorem steady_plain (front : Text → Prop) :
    Steady (redacted codeUnits) front EndsSecret plainShortfall := by
  refine ⟨fun h hb => ?_, fun b u v t huv hv => ?_⟩
  · exact Nat.add_le_add (Nat.add_le_add ((steady_headers front).keep h hb)
      ((steady_keys front).keep h hb)) ((steady_url front).keep h hb)
  · rw [plainShortfall, (steady_headers front).mark b u v t huv hv,
      (steady_keys front).mark b u v t huv hv, (steady_url front).mark b u v t huv hv]

/-- The text with its private keys hidden, from some place on. -/
def hideKeysFrom (prev : Option CodeUnit) (rest : Text) : Text :=
  replaceFrom (privateKeyBlock codeUnits) (fun _ => redacted codeUnits) 0 prev rest

theorem hides_keys (b b' : Text) (prev : Option CodeUnit) (rest : Text) :
    Hides (redacted codeUnits) (fun _ => True) (fun _ => True) b b' rest
      (hideKeysFrom prev rest) := by
  refine hides_replaceFrom (minLength_privateKeyBlock_pos codeUnits) (fun prev rest m _ => ?_)
    b b' prev rest
  exact ⟨[], rest.take m.length, [], by simp, by simp, fun _ => trivial, trivial⟩

/-- A private key ends with a dash. -/
theorem getLast?_key {prev : Option CodeUnit} {rest : Text} {m : Match CodeUnit}
    (h : matchAt (privateKeyBlock codeUnits) prev rest = some m) (b : Text) :
    (b ++ rest.take m.length).getLast?.any (isInI codeUnits (alphaNumericOr "_")) = false := by
  rw [matchAt_privateKeyBlock] at h
  obtain ⟨n, hblock, rfl⟩ := Option.map_eq_some_iff.mp h
  obtain ⟨k, -, hclose⟩ := Option.bind_eq_some_iff.mp hblock
  obtain ⟨j, hsearch, rfl⟩ := Option.map_eq_some_iff.mp hclose
  obtain ⟨i, e, rfl, he⟩ := search_eq_some hsearch
  rw [List.drop_drop, markerLength] at he
  split_ifs at he with hstart
  dsimp only at he
  split_ifs at he with hwords
  obtain rfl := Option.some.inj he
  generalize "-----END ".toList.length + (((rest.drop (k + i)).drop
    "-----END ".toList.length).takeWhile (isCapital codeUnits)).length = l at hwords
  have hsplit : literals codeUnits "PRIVATE KEY-----" =
      literals codeUnits "PRIVATE KEY----" ++ [isIn codeUnits (· = '-'.toNat)] := rfl
  have hlength : (literals codeUnits "PRIVATE KEY----").length = 15 := by decide
  have hlast := getLast?_take_of_startsWith (hsplit ▸ hwords.2)
  obtain ⟨x, hx, hdash⟩ := (Option.any_eq_true _ _).mp hlast
  have hend : k + (i + (l + 5)) = k + i + (l - 11) + 16 := by omega
  rw [hlength, List.drop_drop] at hx
  rw [hend, List.take_add, ← List.append_assoc, List.getLast?_append, hx, Option.some_or,
    Option.any_some, isInI, of_decide_eq_true hdash]
  decide

/-- What a place adds for a bearer token grows only before a mark that ends the token. -/
theorem bearerShortfall_keep {b b' t t' : Text} {x : CodeUnit}
    (hb : b.getLast? = b'.getLast? ∨
      b.getLast?.any (isInI codeUnits (alphaNumericOr "_")) = false) :
    bearerShortfall b' (x :: t') ≤ bearerShortfall b (x :: t) ∨
      ∃ l, bearerLength (x :: t') = some l ∧ (x :: t).take (l + 1) ≠ (x :: t').take (l + 1) := by
  rw [bearerShortfall, bearerShortfall]
  cases hl : bearerLength (x :: t') with
  | none =>
      refine .inl ?_
      split_ifs <;> exact Nat.zero_le _
  | some l =>
      by_cases hread : (x :: t).take (l + 1) = (x :: t').take (l + 1)
      · refine .inl ?_
        rw [bearerLength_of_take hl hread]
        rcases hb with hb | hb
        · rw [hb]
        · rw [hb, if_neg Bool.false_ne_true]
          split_ifs
          · exact Nat.zero_le _
          · exact Nat.le_refl _
      · exact .inr ⟨l, rfl, hread⟩

theorem isAscii_b : IsAscii (fun c => decide (c = 'b'.toNat)) := by
  intro c hc
  rw [of_decide_eq_true hc]
  decide

/-- No bearer token begins within one that a mark ends. -/
theorem bearerLength_drop {t : Text} {l : ℕ} (h : bearerLength t = some l)
    (hend : (t.drop l).head? = some (unit '[')) {i : ℕ} (hi : 0 < i) (hil : i < l) :
    bearerLength (t.drop i) = none := by
  obtain ⟨n, m, rfl, hn, hm, hword, hn1, hm1⟩ := bearerLength_eq_some.mp h
  have hlength : (letters codeUnits "bearer").length = 6 := by decide
  cases hinner : bearerLength (t.drop i) with
  | none => rfl
  | some l =>
      exfalso
      obtain ⟨n', m', rfl, hn', -, hword', hn1', -⟩ := bearerLength_eq_some.mp hinner
      obtain ⟨b, hb, hletter⟩ := head?_of_startsWith_bearer hword'
      obtain ⟨y, hy, hblank⟩ := head?_drop_of_lt (n := 0) (p := isBlank codeUnits)
        (t := (t.drop i).drop 6) (by omega)
      rw [List.drop_zero, List.drop_drop] at hy
      by_cases hi6 : i < 6
      · -- within the word
        obtain ⟨x, p, hx, hp, hpx⟩ := head?_drop_of_startsWith hword (n := i) (by omega)
        have hsub := (List.drop_subset_drop_left (letters codeUnits "bearer") hi) hp
        obtain ⟨ch, hch, rfl⟩ := List.mem_map.mp (show p ∈ letters codeUnits "earer" from hsub)
        rw [hx, Option.some.injEq] at hb
        rw [← hb] at hletter
        have hapart := isAscii_b.ignoringCase.forall
          (q := fun c => "earer".toList.all
            (fun ch => !ignoringCase (fun c => c = ch.toNat) c) = true) (by decide) hletter
        have hno := List.all_eq_true.mp hapart ch hch
        rw [isInI] at hpx
        rw [hpx] at hno
        cases hno
      · by_cases hin : i < 6 + n
        · -- within the blanks
          obtain ⟨x, hx, hx'⟩ := head?_drop_of_lt (n := i - 6) (p := isBlank codeUnits)
            (t := t.drop 6) (by omega)
          rw [List.drop_drop, Nat.add_sub_cancel' (by omega), hb, Option.some.injEq] at hx
          rw [← hx] at hx'
          have hapart := isAscii_b.ignoringCase.forall
            (q := fun c => ignoringCase (oneOf " \t") c = false) (by decide) hletter
          rw [isBlank, isInI, hapart] at hx'
          cases hx'
        · -- within the token: its end is too near for the word and a blank
          rcases Nat.lt_trichotomy (i + 6) (6 + n + m) with hlt | heq | hgt
          · obtain ⟨x, hx, htoken⟩ := head?_drop_of_lt (n := i + 6 - (6 + n)) (p := isTokenChar)
              (t := t.drop (6 + n)) (by omega)
            rw [List.drop_drop, Nat.add_sub_cancel' (by omega), hy, Option.some.injEq] at hx
            rw [hx, isBlank_of_isTokenChar htoken] at hblank
            cases hblank
          · rw [heq, hend, Option.some.injEq] at hy
            rw [← hy] at hblank
            exact absurd hblank (by decide)
          · obtain ⟨x, p, hx, hp, hpx⟩ := head?_drop_of_startsWith hword'
              (n := 6 + n + m - i) (by omega)
            rw [List.drop_drop, Nat.add_sub_cancel' (by omega), hend, Option.some.injEq] at hx
            have hall : (letters codeUnits "bearer").all (fun p => !p (unit '[')) = true := by
              decide
            have hno := List.all_eq_true.mp hall p (List.mem_of_mem_drop hp)
            rw [hx, hpx] at hno
            cases hno

/-- By how much what stands at the places of a text, from some place on, falls short of what is
written for it. -/
def lengtheningFrom (before rest : Text) : ℕ :=
  totalWeight plainShortfall before rest + totalWeight bearerShortfall before rest

theorem lengtheningFrom_cons (b t : Text) (x : CodeUnit) : lengtheningFrom b (x :: t) =
    plainShortfall b (x :: t) + bearerShortfall b (x :: t) + lengtheningFrom (b ++ [x]) t := by
  rw [lengtheningFrom, lengtheningFrom, totalWeight, totalWeight]
  omega

theorem lengtheningFrom_append_le (b s t : Text) :
    lengtheningFrom (b ++ s) t ≤ lengtheningFrom b (s ++ t) :=
  Nat.add_le_add (totalWeight_append_le s) (totalWeight_append_le s)

/-- A mark adds nothing. -/
theorem lengtheningFrom_mark (b t : Text) :
    lengtheningFrom b (redacted codeUnits ++ t) = lengtheningFrom (b ++ redacted codeUnits) t := by
  rw [lengtheningFrom, lengtheningFrom, totalWeight_append_of_zero, totalWeight_append_of_zero]
  · exact fun u v huv hv => steady_bearer.mark b u v t huv hv
  · exact fun u v huv hv => (steady_plain BeforeSecret).mark b u v t huv hv

theorem bearerShortfall_le {b t : Text} {l : ℕ} (h : bearerLength t = some l) :
    8 ≤ l ∧ bearerShortfall b t ≤ 9 := by
  obtain ⟨n, m, rfl, -, -, -, hn1, hm1⟩ := bearerLength_eq_some.mp h
  refine ⟨by omega, ?_⟩
  rw [bearerShortfall, h, Option.elim_some]
  split_ifs
  · exact Nat.zero_le _
  · omega

/-- A private key is long enough for what shows when it is hidden: for a name or a URL behind it,
and for a bearer token that goes into it. -/
theorem hideKeysFrom_le (prev : Option CodeUnit) (rest : Text) :
    (∀ b b' : Text, b.getLast? = b'.getLast? →
      (hideKeysFrom prev rest).length + lengtheningFrom b' (hideKeysFrom prev rest) ≤
        rest.length + lengtheningFrom b rest) ∧
    (∀ b b' : Text, b.getLast?.any (isInI codeUnits (alphaNumericOr "_")) = false →
      (hideKeysFrom prev rest).length + lengtheningFrom b' (hideKeysFrom prev rest) ≤
        rest.length + lengtheningFrom b rest + 30) ∧
    (∀ (b b' : Text) (n : ℕ), b.getLast? = b'.getLast? →
      rest.take (n + 1) ≠ (hideKeysFrom prev rest).take (n + 1) →
      (∀ i < n, bearerLength ((hideKeysFrom prev rest).drop i) = none) →
      (hideKeysFrom prev rest).length + lengtheningFrom b' (hideKeysFrom prev rest) + 9 ≤
        rest.length + lengtheningFrom b rest) := by
  induction prev, rest using scan_induction (minLength_privateKeyBlock_pos codeUnits) with
  | nil prev =>
      exact ⟨fun _ _ _ => Nat.le_refl _, fun _ _ _ => Nat.le_add_right _ _,
        fun _ _ _ _ hne => absurd rfl hne⟩
  | step prev x t h ih =>
      have hrest : hideKeysFrom prev (x :: t) = x :: hideKeysFrom (some x) t := replaceFrom_none h
      have hhides := fun b b' => hides_keys b b' prev (x :: t)
      obtain ⟨hsame, -, hpending⟩ := ih
      rw [hrest] at hhides ⊢
      generalize hideKeysFrom (some x) t = t' at *
      have hlast : ∀ b b' : Text, (b ++ [x]).getLast? = (b' ++ [x]).getLast? := by simp
      have hplace : ∀ b b' : Text, b.getLast? = b'.getLast? ∨
          b.getLast?.any (isInI codeUnits (alphaNumericOr "_")) = false →
          t'.length + (bearerShortfall b' (x :: t') + lengtheningFrom (b' ++ [x]) t') ≤
            t.length + (bearerShortfall b (x :: t) + lengtheningFrom (b ++ [x]) t) := by
        intro b b' hb
        rcases @bearerShortfall_keep b b' t t' x hb with hle | ⟨l, hl, hne⟩
        · have hbehind := hsame _ _ (hlast b b')
          omega
        · -- the token ends at a key, which pays for it
          obtain ⟨hl8, hle⟩ := bearerShortfall_le (b := b') hl
          obtain ⟨k, rfl⟩ : ∃ k, l = k + 1 := ⟨l - 1, by omega⟩
          have hend := (hhides b b').head?_of_take_ne (by decide)
            (fun y hy => mark_ne_of_class (by decide) (isBearerChar_of_mem hl y hy)) hne
          have hbehind := hpending _ _ k (hlast b b') (fun heq => hne (by
            rw [List.take_succ_cons, List.take_succ_cons, heq]))
            (fun i hi => bearerLength_drop hl hend (Nat.succ_pos i) (Nat.succ_lt_succ hi))
          omega
      refine ⟨fun b b' hb => ?_, fun b b' hb => ?_, fun b b' n hb hne hnone => ?_⟩
      · have hplain := (steady_plain _).keep (hhides b b') (.inl hb)
        have hbehind := hplace b b' (.inl hb)
        rw [lengtheningFrom_cons, lengtheningFrom_cons, List.length_cons, List.length_cons]
        omega
      · have hplain := plainShortfall_le b' (x :: t')
        have hbehind := hplace b b' (.inr hb)
        rw [lengtheningFrom_cons, lengtheningFrom_cons, List.length_cons, List.length_cons]
        omega
      · cases n with
        | zero => exact absurd (by simp) hne
        | succ n =>
            have hplain := (steady_plain _).keep (hhides b b') (.inl hb)
            have hbearer : bearerShortfall b' (x :: t') = 0 := by
              have hzero := hnone 0 (Nat.succ_pos n)
              rw [List.drop_zero] at hzero
              rw [bearerShortfall, hzero]
              split_ifs <;> rfl
            have hbehind := hpending _ _ n (hlast b b') (fun heq => hne (by
              rw [List.take_succ_cons, List.take_succ_cons, heq]))
              (fun i hi => hnone (i + 1) (Nat.succ_lt_succ hi))
            rw [lengtheningFrom_cons, lengtheningFrom_cons, hbearer, List.length_cons,
              List.length_cons]
            omega
  | found prev rest m h ih =>
      have hrest : hideKeysFrom prev rest = redacted codeUnits ++
          hideKeysFrom (lastOf prev rest m.length) (rest.drop m.length) :=
        replaceFrom_some (minLength_privateKeyBlock_pos codeUnits) h
      obtain ⟨-, hapart, -⟩ := ih
      obtain ⟨hmin, hmax⟩ := matchAt_length h
      have hblock : minLength (privateKeyBlock codeUnits) = 52 := by decide
      have hmark : (redacted codeUnits).length = 10 := by decide
      have hle : ∀ b b' : Text, (hideKeysFrom prev rest).length +
          lengtheningFrom b' (hideKeysFrom prev rest) + 12 ≤
            rest.length + lengtheningFrom b rest := by
        intro b b'
        have hbehind := hapart (b ++ rest.take m.length) (b' ++ redacted codeUnits)
          (getLast?_key h b)
        have hbefore := lengtheningFrom_append_le b (rest.take m.length) (rest.drop m.length)
        rw [List.take_append_drop] at hbefore
        rw [List.length_drop] at hbehind
        rw [hrest, lengtheningFrom_mark, List.length_append, hmark]
        omega
      refine ⟨fun b b' _ => ?_, fun b b' _ => ?_, fun b b' _ _ _ _ => ?_⟩ <;>
        · have := hle b b'
          omega

/-! ### All rules -/

/-- By how much what stands at the places of a text falls short of what is written for it. -/
def lengthening (text : Text) : ℕ := lengtheningFrom [] text

/-- What is at least as long as the mark makes no text longer. -/
theorem length_replaceAll_redacted_le {p : Regex CodeUnit} (hp : 10 ≤ minLength p) (text : Text) :
    (replaceAll p (fun _ => redacted codeUnits) text).length ≤ text.length := by
  have hlength : (redacted codeUnits).length = 10 := by decide
  have hle : (replaceAll p (fun _ => redacted codeUnits) text).length ≤
      text.length + totalWeight (fun _ _ => 0) [] text := by
    refine length_replaceFrom_le (by omega) (fun b rest m hm => ?_) [] text
    rw [hlength]
    exact Nat.le_trans hp (matchAt_length hm).1
  rwa [totalWeight_zero] at hle

theorem length_applyRules_le {patterns : List (Regex CodeUnit)}
    (h : ∀ p ∈ patterns, 10 ≤ minLength p) (text : Text) :
    (applyRules (patterns.map (fun p => ⟨p, fun _ => redacted codeUnits⟩)) text).length ≤
      text.length := by
  induction patterns generalizing text with
  | nil => exact Nat.le_refl _
  | cons p patterns ih =>
      obtain ⟨hp, hpatterns⟩ := List.forall_mem_cons.mp h
      exact Nat.le_trans (ih hpatterns _) (length_replaceAll_redacted_le hp text)

/-- A token is at least as long as the mark. -/
theorem minLength_tokens :
    ∀ p ∈ jwt codeUnits :: wellKnownTokens codeUnits, 10 ≤ minLength p := by
  simp only [wellKnownTokens, List.forall_mem_cons]
  exact ⟨by decide, by decide, by decide, by decide, by decide,
    fun _ h => absurd h List.not_mem_nil⟩

/-- Redaction makes a text longer by no more than its secrets fall short of what is written for
them. -/
theorem length_redactText_le (text : Text) :
    (redactText text).length ≤ text.length + lengthening text := by
  have happly : redactText text =
      applyRules ((jwt codeUnits :: wellKnownTokens codeUnits).map
          (fun p => ⟨p, fun _ => redacted codeUnits⟩))
        (replaceAll (bearer codeUnits) (fun _ => written codeUnits "Bearer " ++ redacted codeUnits)
          (replaceAll (urlUserinfo codeUnits) (urlRule codeUnits).replacement
            (replaceAll (keyValue codeUnits) (replaceValue codeUnits)
              (replaceAll (headerValue codeUnits) (replaceValue codeUnits)
                (hideKeysFrom none text))))) :=
    rfl
  have hkeys := (hideKeysFrom_le none text).1 [] [] rfl
  rw [happly, lengthening]
  refine Nat.le_trans ?_ hkeys
  generalize hideKeysFrom none text = shown
  have hplain : totalWeight plainShortfall [] shown =
      totalWeight (namedShortfall sensitiveHeaders "\r\n") [] shown +
        totalWeight (namedShortfall sensitiveKeys "\r\n,;&") [] shown +
        totalWeight urlShortfall [] shown := by
    rw [← totalWeight_add, ← totalWeight_add]
    rfl
  rw [lengtheningFrom, hplain]
  -- each rule adds its own weight, and hides what it replaces from the rules behind it
  have hlength₁ : (replaceAll (headerValue codeUnits) (replaceValue codeUnits) shown).length ≤ _ :=
    length_replaceFrom_le (w := namedShortfall sensitiveHeaders "\r\n")
      (minLength_namedValue_pos codeUnits _ _)
      (fun _ _ _ h => length_replaceValue_le areWords_sensitiveHeaders h) [] shown
  have hhides₁ : Hides _ _ _ [] [] shown
      (replaceAll (headerValue codeUnits) (replaceValue codeUnits) shown) :=
    hides_named areWords_sensitiveHeaders (by decide) [] [] none shown
  have hkeys₁ := hhides₁.totalWeight_le (steady_keys _) (.inl rfl)
  have hurl₁ := hhides₁.totalWeight_le (steady_url _) (.inl rfl)
  have hbearer₁ := hhides₁.totalWeight_le steady_bearer (.inl rfl)
  generalize replaceAll (headerValue codeUnits) (replaceValue codeUnits) shown = shown₁ at *
  have hlength₂ : (replaceAll (keyValue codeUnits) (replaceValue codeUnits) shown₁).length ≤ _ :=
    length_replaceFrom_le (w := namedShortfall sensitiveKeys "\r\n,;&")
      (minLength_namedValue_pos codeUnits _ _)
      (fun _ _ _ h => length_replaceValue_le areWords_sensitiveKeys h) [] shown₁
  have hhides₂ : Hides _ _ _ [] [] shown₁
      (replaceAll (keyValue codeUnits) (replaceValue codeUnits) shown₁) :=
    hides_named areWords_sensitiveKeys (by decide) [] [] none shown₁
  have hurl₂ := hhides₂.totalWeight_le (steady_url _) (.inl rfl)
  have hbearer₂ := hhides₂.totalWeight_le steady_bearer (.inl rfl)
  generalize replaceAll (keyValue codeUnits) (replaceValue codeUnits) shown₁ = shown₂ at *
  have hlength₃ : (replaceAll (urlUserinfo codeUnits) (urlRule codeUnits).replacement
      shown₂).length ≤ _ :=
    length_replaceFrom_le (w := urlShortfall) (minLength_urlUserinfo_pos codeUnits)
      (fun _ _ _ h => length_urlRule_le h) [] shown₂
  have hhides₃ : Hides _ _ _ [] [] shown₂
      (replaceAll (urlUserinfo codeUnits) (urlRule codeUnits).replacement shown₂) :=
    hides_url [] [] none shown₂
  have hbearer₃ := hhides₃.totalWeight_le steady_bearer (.inl rfl)
  generalize replaceAll (urlUserinfo codeUnits) (urlRule codeUnits).replacement shown₂ =
    shown₃ at *
  have hlength₄ : (replaceAll (bearer codeUnits)
      (fun _ => written codeUnits "Bearer " ++ redacted codeUnits) shown₃).length ≤ _ :=
    length_replaceFrom_le (w := bearerShortfall) (minLength_bearer_pos codeUnits)
      (fun _ _ _ h => length_bearer_le h) [] shown₃
  have hlength₅ := length_applyRules_le minLength_tokens (replaceAll (bearer codeUnits)
    (fun _ => written codeUnits "Bearer " ++ redacted codeUnits) shown₃)
  omega

end QeReport.Sdk.Redactor

import QeReport.Postgres.Archive
import QeReport.Validator.Independence
import QeReport.Validator.Lifecycle

/-! # Archive and replay

A replay feeds the stored lines session by session, so it sees the same lines as the ingestion
in another order.  Sorting keeps a duplicate behind its original and the sequences of a session
in order, so each session keeps its log (`Restores`).  The replay of a valid and complete run is
valid, and agrees with the record, exactly when attempts stay in their sessions and run.finished
is last in its own (`replay_agrees_iff`). -/

namespace QeReport

open GuardedLog

/-! ### Readings -/

def Reading.eventId (r : Reading) : Text := r.event.envelope.eventId

def Reading.session (r : Reading) : Text := r.event.session

/-- The events of the fresh readings. -/
def readingsLog (rs : List Reading) : Log := (fresh Reading.eventId rs).map (fun r => r.event)

theorem logOf_eq_readingsLog (ls : List Line) :
    logOf ls = readingsLog (ls.map (fun x => x.toReading)) := by
  have h : (fresh Line.eventId ls).map (fun x => x.toReading) =
      fresh Reading.eventId (ls.map (fun x => x.toReading)) := map_fresh (by intro x; rfl) ls
  rw [readingsLog, ← h, List.map_map]
  rfl

/-- The readings of the lines of a file. -/
theorem linesOf_readings {rt : Runtime} {limit : ℕ} {raws : List Text}
    (h : ∀ raw ∈ raws, blank raw = false) (file : Text) (n : ℕ) :
    (linesOf rt limit file n raws).map (fun x => x.toReading) = raws.filterMap (reading rt limit) := by
  induction raws generalizing n with
  | nil => rfl
  | cons raw raws ih =>
      have htail := ih (fun r hr => h r (List.mem_cons_of_mem _ hr)) (n + 1)
      rw [linesOf, if_neg (by simp [h raw List.mem_cons_self])]
      cases hr : reading rt limit raw with
      | none => rw [List.filterMap_cons_none hr, ← htail]
      | some r => rw [List.filterMap_cons_some hr, ← htail, List.map_cons]

/-! ### Source lines -/

section source
variable (rt : Runtime)

/-- A source line of a reading. -/
structure Describes (t : ValidatedSourceLine) (r : Reading) : Prop where
  rawLine : t.rawLine = r.raw
  sessionId : t.sessionId = r.event.session
  sequence : t.sequence = r.event.sequence
  eventId : t.eventId = r.eventId

theorem sourceAfter_describes (done ls : List Line) :
    List.Forall₂ (fun t x => Describes t x.toReading) (sourceAfter rt done ls) ls := by
  induction ls generalizing done with
  | nil => exact List.Forall₂.nil
  | cons x ls ih => exact List.Forall₂.cons ⟨rfl, rfl, rfl, rfl⟩ (ih _)

/-- The digests that the fingerprint is made of are those of the fresh lines. -/
theorem sourceAfter_digests (done ls : List Line) :
    ((sourceAfter rt done ls).filter (fun t => t.disposition ≠ .duplicate)).map
        (fun t => t.canonicalSha256) =
      (freshAfter Line.eventId done ls).map (fun x => rt.sha256 (utf8 x.key)) := by
  induction ls generalizing done with
  | nil => rfl
  | cons x ls ih =>
      rw [sourceAfter, freshAfter]
      split_ifs with h
      · rw [List.filter_cons_of_neg (by simp [sourceLine]), ih]
      · have hfresh : freshDisposition x ≠ .duplicate := by
          unfold freshDisposition
          split_ifs <;> decide
        rw [List.filter_cons_of_pos (by simp [sourceLine, hfresh]), List.map_cons,
          List.map_cons, ih]
        rfl

end source

/-! ### Storage order -/

instance : Std.TransCmp compareLines :=
  inferInstanceAs (Std.TransCmp
    (compareLex (compareOn (fun a : ValidatedSourceLine × ℕ => a.1.sessionId))
      (compareLex (compareOn (fun a => a.1.sequence))
        (compareLex (compareOn (fun a => a.1.eventId)) (compareOn (fun a => a.2))))))

/-- The lines in storage order, without their ordinals. -/
def storedLines (src : List ValidatedSourceLine) : List ValidatedSourceLine :=
  (sortBy compareLines src.zipIdx).map Prod.fst

theorem orderLines_lines (src : List ValidatedSourceLine) :
    (orderLines src).map (fun t => t.toValidatedSourceLine) = storedLines src := by
  rw [orderLines, ← storedLines]
  refine List.ext_getElem (by simp) (fun n h1 h2 => ?_)
  simp

theorem storedLines_perm (src : List ValidatedSourceLine) : (storedLines src).Perm src := by
  have h : (sortBy compareLines src.zipIdx).Perm src.zipIdx := sortBy_perm _
  have h' := h.map Prod.fst
  rwa [List.zipIdx_map_fst] at h'

/-- Occurrences of one event keep their order. -/
theorem storedLines_of_event {src : List ValidatedSourceLine}
    (h : ∀ a ∈ src, ∀ b ∈ src, a.eventId = b.eventId →
      a.sessionId = b.sessionId ∧ a.sequence = b.sequence) (i : Text) :
    (storedLines src).filter (fun t => t.eventId = i) = src.filter (fun t => t.eventId = i) := by
  have hidx : src.zipIdx.Pairwise (fun a b => a.2 < b.2) := by
    have hlt : (src.zipIdx.map Prod.snd).Pairwise (· < ·) := by
      rw [List.zipIdx_map_snd]
      exact List.pairwise_lt_range' 1
    exact List.pairwise_map.mp hlt
  have hpw : (src.zipIdx.filter (fun a => a.1.eventId = i)).Pairwise
      (fun a b => compareLines a b ≠ .gt) := by
    rw [List.pairwise_filter]
    refine hidx.imp_of_mem (fun {a b} ha hb hab hai hbi => ?_)
    have hid : a.1.eventId = b.1.eventId := by simp_all
    obtain ⟨hs, hq⟩ := h a.1 (List.fst_mem_of_mem_zipIdx ha) b.1 (List.fst_mem_of_mem_zipIdx hb) hid
    rw [compareLines, hs, hq, hid, Nat.compare_eq_lt.mpr hab]
    simp
  have hfilter : ∀ m : List (ValidatedSourceLine × ℕ),
      (m.map Prod.fst).filter (fun t => t.eventId = i) =
        (m.filter (fun a => a.1.eventId = i)).map Prod.fst := by
    intro m
    rw [List.filter_map]
    rfl
  rw [storedLines, hfilter, filter_sortBy hpw, ← hfilter, List.zipIdx_map_fst]

/-- A session is stored in the order of its sequences. -/
theorem storedLines_sorted (src : List ValidatedSourceLine) :
    (storedLines src).Pairwise (fun a b => a.sessionId = b.sessionId → a.sequence ≤ b.sequence) := by
  rw [storedLines, List.pairwise_map]
  refine (sortBy_pairwise src.zipIdx).imp (fun {a b} hab hs => ?_)
  by_contra hlt
  refine hab ?_
  rw [compareLines, hs, Nat.compare_eq_gt.mpr (not_le.mp hlt)]
  simp

/-! ### The stored lines read back -/

section stored
variable {rt : Runtime} {limit : ℕ} {ls : List Line}

/-- Lines that were read from files. -/
def WereRead (rt : Runtime) (limit : ℕ) (ls : List Line) : Prop :=
  ∀ x ∈ ls, blank x.raw = false ∧ reading rt limit x.raw = some x.toReading

/-- The reading of a stored line. -/
def storedReading (rt : Runtime) (limit : ℕ) (t : ValidatedSourceLine) : Option Reading :=
  reading rt limit t.rawLine

/-- The readings of the stored lines, in storage order. -/
def storedReadings (rt : Runtime) (limit : ℕ) (ls : List Line) : List Reading :=
  (storedLines (sourceAfter rt [] ls)).filterMap (storedReading rt limit)

theorem exists_line {t : ValidatedSourceLine} (ht : t ∈ sourceAfter rt [] ls) :
    ∃ x ∈ ls, Describes t x.toReading :=
  exists_of_forall₂ (sourceAfter_describes rt [] ls) ht

/-- A stored line reads back as the reading it describes. -/
theorem reading_of_stored (hread : WereRead rt limit ls) {t : ValidatedSourceLine}
    (ht : t ∈ sourceAfter rt [] ls) : blank t.rawLine = false ∧
      ∃ x ∈ ls, storedReading rt limit t = some x.toReading ∧ Describes t x.toReading := by
  obtain ⟨x, hx, hd⟩ := exists_line ht
  obtain ⟨hb, hr⟩ := hread x hx
  rw [storedReading, hd.rawLine]
  exact ⟨hb, x, hx, hr, hd⟩

theorem source_readings (hread : WereRead rt limit ls) :
    (sourceAfter rt [] ls).filterMap (storedReading rt limit) =
      ls.map (fun x => x.toReading) := by
  have h := sourceAfter_describes rt [] ls
  generalize sourceAfter rt [] ls = src at h
  induction h with
  | nil => rfl
  | @cons t x src ls hd _ ih =>
      have hx := (hread x List.mem_cons_self).2
      rw [← hd.rawLine, ← storedReading] at hx
      rw [List.filterMap_cons_some hx, ih (fun y hy => hread y (List.mem_cons_of_mem _ hy)),
        List.map_cons]

theorem storedReadings_perm (hread : WereRead rt limit ls) :
    (storedReadings rt limit ls).Perm (ls.map (fun x => x.toReading)) := by
  have h := (storedLines_perm (sourceAfter rt [] ls)).filterMap (storedReading rt limit)
  rwa [source_readings hread] at h

/-- Selecting stored lines by what they say of their reading. -/
theorem filter_readings (hread : WereRead rt limit ls) {p : ValidatedSourceLine → Bool}
    {q : Reading → Bool} (hpq : ∀ t r, Describes t r → q r = p t) {ts : List ValidatedSourceLine}
    (hts : ∀ t ∈ ts, t ∈ sourceAfter rt [] ls) :
    (ts.filterMap (storedReading rt limit)).filter q =
      (ts.filter p).filterMap (storedReading rt limit) := by
  induction ts with
  | nil => rfl
  | cons t ts ih =>
      obtain ⟨-, x, -, hr, hd⟩ := reading_of_stored hread (hts t List.mem_cons_self)
      have htail := ih (fun u hu => hts u (List.mem_cons_of_mem _ hu))
      rw [List.filterMap_cons_some hr]
      by_cases hp : p t = true
      · rw [List.filter_cons_of_pos hp, List.filterMap_cons_some hr,
          List.filter_cons_of_pos ((hpq t _ hd).trans hp), htail]
      · rw [List.filter_cons_of_neg hp, List.filter_cons_of_neg (by rwa [hpq t _ hd]), htail]

theorem describes_consistent (hread : WereRead rt limit ls) (hcons : Consistent ls)
    {t u : ValidatedSourceLine} (ht : t ∈ sourceAfter rt [] ls) (hu : u ∈ sourceAfter rt [] ls)
    (h : t.eventId = u.eventId) : t.sessionId = u.sessionId ∧ t.sequence = u.sequence := by
  obtain ⟨x, hx, hdx⟩ := exists_line ht
  obtain ⟨y, hy, hdy⟩ := exists_line hu
  rw [hdx.eventId, hdy.eventId] at h
  have hkey := hcons x hx y hy h
  rw [hdx.sessionId, hdy.sessionId, hdx.sequence, hdy.sequence]
  have hsame := session_of_key (hread x hx).2 (hread y hy).2 hkey
  exact ⟨hsame.1, hsame.2.1⟩

/-- The occurrences of an event are stored in the order in which they were read. -/
theorem storedReadings_of_event (hread : WereRead rt limit ls) (hcons : Consistent ls) (i : Text) :
    ofClass Reading.eventId i (storedReadings rt limit ls) =
      ofClass Reading.eventId i (ls.map (fun x => x.toReading)) := by
  have hid : ∀ t r, Describes t r → decide (r.eventId = i) = decide (t.eventId = i) :=
    fun t r hd => by rw [hd.eventId]
  rw [ofClass, storedReadings, filter_readings hread hid (fun t ht =>
      (storedLines_perm _).mem_iff.mp ht),
    storedLines_of_event (fun t ht u hu => describes_consistent hread hcons ht hu),
    ← filter_readings hread hid (fun t ht => ht), source_readings hread]
  rfl

/-- The readings of a session in storage order, sorted by sequence. -/
theorem storedReadings_sorted (hread : WereRead rt limit ls) :
    (storedReadings rt limit ls).Pairwise
      (fun a b => a.session = b.session → a.event.sequence ≤ b.event.sequence) := by
  rw [storedReadings, List.pairwise_filterMap]
  refine (storedLines_sorted _).imp_of_mem (fun {t u} ht hu htu r hr r' hr' hs => ?_)
  obtain ⟨-, x, -, hx, hdx⟩ := reading_of_stored hread ((storedLines_perm _).mem_iff.mp ht)
  obtain ⟨-, y, -, hy, hdy⟩ := reading_of_stored hread ((storedLines_perm _).mem_iff.mp hu)
  rw [hx] at hr
  rw [hy] at hr'
  obtain rfl := Option.some.inj hr
  obtain rfl := Option.some.inj hr'
  have := htu (hdx.sessionId.trans (hs.trans hdy.sessionId.symm))
  rwa [hdx.sequence, hdy.sequence] at this

/-- The readings of a session. -/
def sessionReadings (s : Text) (rs : List Reading) : List Reading :=
  ofClass Reading.session s rs

theorem readings_consistent (hread : WereRead rt limit ls) (hcons : Consistent ls) {r q : Reading}
    (hr : r ∈ ls.map (fun x => x.toReading)) (hq : q ∈ ls.map (fun x => x.toReading))
    (h : r.eventId = q.eventId) : r.key = q.key ∧ r.session = q.session := by
  obtain ⟨x, hx, rfl⟩ := List.mem_map.mp hr
  obtain ⟨y, hy, rfl⟩ := List.mem_map.mp hq
  have hkey := hcons x hx y hy h
  exact ⟨hkey, (session_of_key (hread x hx).2 (hread y hy).2 hkey).1⟩

/-- The log of a session is made of the readings of the session. -/
theorem ofSession_logOf (hread : WereRead rt limit ls) (hcons : Consistent ls) (s : Text) :
    (logOf ls).ofSession s = readingsLog (sessionReadings s (ls.map (fun x => x.toReading))) := by
  have hfresh : sessionReadings s (fresh Reading.eventId (ls.map (fun x => x.toReading))) =
      fresh Reading.eventId (sessionReadings s (ls.map (fun x => x.toReading))) := by
    refine filter_fresh (fun r hr q hq h => ?_)
    rw [(readings_consistent hread hcons hr hq h).2]
  rw [logOf_eq_readingsLog, readingsLog, readingsLog, ← hfresh, Log.ofSession, ofClass,
    List.filter_map]
  rfl

/-- A session is stored with the log it was read with. -/
theorem readingsLog_stored (hread : WereRead rt limit ls) (hcons : Consistent ls)
    (hlife : Lifecycle (logOf ls)) (s : Text) :
    readingsLog (sessionReadings s (storedReadings rt limit ls)) = (logOf ls).ofSession s := by
  rw [ofSession_logOf hread hcons s, readingsLog, readingsLog]
  congr 1
  have hlog := ofSession_logOf hread hcons s
  have hmem : ∀ r ∈ fresh Reading.eventId (sessionReadings s (ls.map (fun x => x.toReading))),
      r.event ∈ logOf ls ∧ r.event.session = s := by
    intro r hr
    have : r.event ∈ (logOf ls).ofSession s := by
      rw [hlog]
      exact List.mem_map_of_mem hr
    exact mem_ofClass.mp this
  refine fresh_eq_of_classes (r := fun a b => a.event.sequence ≤ b.event.sequence) ?_ ?_ ?_ ?_
  · intro i
    have hcomm : ∀ rs : List Reading, ofClass Reading.eventId i (sessionReadings s rs) =
        sessionReadings s (ofClass Reading.eventId i rs) := by
      intro rs
      simp only [ofClass, sessionReadings, List.filter_filter, Bool.and_comm]
    rw [hcomm, hcomm, storedReadings_of_event hread hcons]
  · have hseq := sequence_ofSession hlife s
    rw [hlog, readingsLog, List.map_map] at hseq
    have hsorted := List.pairwise_lt_range' (s := 1)
      (n := (List.map (fun r => r.event) (fresh Reading.eventId
        (sessionReadings s (ls.map (fun x => x.toReading))))).length) 1
    rw [← hseq, List.pairwise_map] at hsorted
    exact hsorted.imp (fun h => Nat.le_of_lt h)
  · have hsub : (fresh Reading.eventId (sessionReadings s (storedReadings rt limit ls))).Sublist
        (sessionReadings s (storedReadings rt limit ls)) := fresh_sublist _
    refine (List.Pairwise.sublist hsub ?_)
    rw [sessionReadings, ofClass, List.pairwise_filter]
    refine (storedReadings_sorted hread).imp (fun {a b} hab ha hb => hab ?_)
    simp_all
  · intro a ha b hb hab hba
    obtain ⟨ha1, ha2⟩ := hmem a ha
    obtain ⟨hb1, hb2⟩ := hmem b hb
    have hevent : a.event = b.event :=
      eq_of_sequence hlife ha1 hb1 (ha2.trans hb2.symm) (le_antisymm hab hba)
    have hids : ((fresh Reading.eventId (sessionReadings s (ls.map (fun x => x.toReading)))).map
        Reading.eventId).Nodup := fresh_nodup _
    refine List.inj_on_of_nodup_map hids ha hb ?_
    rw [Reading.eventId, Reading.eventId, hevent]

end stored

/-! ### The calls of a replay -/

section calls
variable {rt : Runtime} {ls : List Line} {stored : StoredRun}
  (hread : WereRead rt (eventLimit retainOptions) ls)
  (hsrc : stored.sourceLines = orderLines (sourceAfter rt [] ls))

include hsrc in
/-- The lines of a session, in storage order. -/
theorem bySession_get (s : Text) :
    (bySession stored.sourceLines).get? s =
      if s ∈ (storedLines (sourceAfter rt [] ls)).map (fun t => t.sessionId) then
        some (((storedLines (sourceAfter rt [] ls)).filter (fun t => t.sessionId = s)).map
          (fun t => t.rawLine))
      else none := by
  rw [bySession, JsMap.get?_groupBy, hsrc, ← orderLines_lines, List.filter_map, List.map_map,
    List.map_map]
  congr

include hread hsrc

theorem sessionCall_readings {e : Text × List Text}
    (he : e ∈ (bySession stored.sourceLines).entries) :
    (∀ raw ∈ e.2, blank raw = false ∧ (reading rt (eventLimit retainOptions) raw).isSome = true) ∧
    (callLines rt retainOptions (sessionCall stored e)).map (fun x => x.toReading) =
      sessionReadings e.1 (storedReadings rt (eventLimit retainOptions) ls) := by
  have hget := JsMap.mem_entries.mp he
  rw [bySession_get hsrc] at hget
  split_ifs at hget with hs
  obtain hraws := Option.some.inj hget
  have hall : ∀ raw ∈ e.2,
      blank raw = false ∧ (reading rt (eventLimit retainOptions) raw).isSome = true := by
    intro raw hraw
    rw [← hraws] at hraw
    obtain ⟨t, ht, rfl⟩ := List.mem_map.mp hraw
    have htsrc := (storedLines_perm _).mem_iff.mp (List.mem_of_mem_filter ht)
    obtain ⟨hb, x, -, hx, -⟩ := reading_of_stored hread htsrc
    rw [storedReading] at hx
    exact ⟨hb, by rw [hx]; rfl⟩
  refine ⟨hall, ?_⟩
  have hcall : callLines rt retainOptions (sessionCall stored e) =
      linesOf rt (eventLimit retainOptions) (sessionCall stored e).file 0 e.2 := rfl
  have hsess : ∀ t r, Describes t r → decide (r.session = e.1) = decide (t.sessionId = e.1) :=
    fun t r hd => by rw [hd.sessionId, Reading.session]
  rw [hcall, linesOf_readings (fun raw hraw => (hall raw hraw).1), sessionReadings, ofClass,
    storedReadings, filter_readings hread hsess (fun t ht => (storedLines_perm _).mem_iff.mp ht),
    ← hraws, List.filterMap_map]
  rfl

theorem sessionCall_session {e : Text × List Text}
    (he : e ∈ (bySession stored.sourceLines).entries) {x : Line}
    (hx : x ∈ callLines rt retainOptions (sessionCall stored e)) :
    x.toReading ∈ ls.map (fun y => y.toReading) ∧ x.event.session = e.1 := by
  have hmem : x.toReading ∈
      sessionReadings e.1 (storedReadings rt (eventLimit retainOptions) ls) := by
    rw [← (sessionCall_readings hread hsrc he).2]
    exact List.mem_map_of_mem hx
  obtain ⟨h1, h2⟩ := mem_ofClass.mp hmem
  exact ⟨(storedReadings_perm hread).mem_iff.mp h1, h2⟩

theorem replayCalls_apart :
    (replayCalls stored).Pairwise (SessionsApart rt retainOptions) := by
  rw [replayCalls, List.pairwise_map]
  have hkeys := List.pairwise_map.mp (bySession stored.sourceLines).nodup
  refine hkeys.imp_of_mem (fun {e f} he hf hne x hx y hy hxy => hne ?_)
  rw [← (sessionCall_session hread hsrc he hx).2, ← (sessionCall_session hread hsrc hf hy).2, hxy]

theorem replayCalls_consistent (hcons : Consistent ls) :
    Consistent (allLines rt retainOptions (replayCalls stored)) := by
  have hmem : ∀ x ∈ allLines rt retainOptions (replayCalls stored),
      x.toReading ∈ ls.map (fun y => y.toReading) := by
    intro x hx
    obtain ⟨c, hc, hxc⟩ := mem_allLines.mp hx
    obtain ⟨e, he, rfl⟩ := List.mem_map.mp hc
    exact (sessionCall_session hread hsrc he hxc).1
  exact fun x hx y hy h => (readings_consistent hread hcons (hmem x hx) (hmem y hy) h).1

theorem replayCalls_read : ∀ c ∈ replayCalls stored,
    AllRead rt (eventLimit retainOptions) c.lines := by
  intro c hc raw hraw
  obtain ⟨e, he, rfl⟩ := List.mem_map.mp hc
  exact Or.inr ((sessionCall_readings hread hsrc he).1 raw hraw).2

/-- Every session has its call. -/
theorem exists_sessionCall {r : Reading} (hr : r ∈ ls.map (fun x => x.toReading)) :
    ∃ e ∈ (bySession stored.sourceLines).entries, e.1 = r.session := by
  have hmem : r ∈ storedReadings rt (eventLimit retainOptions) ls :=
    (storedReadings_perm hread).mem_iff.mpr hr
  obtain ⟨t, ht, htr⟩ := List.mem_filterMap.mp hmem
  obtain ⟨-, x, -, hx, hd⟩ := reading_of_stored hread ((storedLines_perm _).mem_iff.mp ht)
  rw [hx] at htr
  obtain rfl := Option.some.inj htr
  have hget := bySession_get hsrc x.toReading.session
  have hs : x.toReading.session ∈
      (storedLines (sourceAfter rt [] ls)).map (fun t => t.sessionId) :=
    List.mem_map.mpr ⟨t, ht, hd.sessionId⟩
  rw [if_pos hs] at hget
  exact ⟨_, JsMap.mem_entries.mpr hget, rfl⟩

/-- A replay reads the lines of the ingestion. -/
theorem replayCalls_readings :
    ((allLines rt retainOptions (replayCalls stored)).map (fun x => x.toReading)).Perm
      (ls.map (fun x => x.toReading)) := by
  have hblocks : (allLines rt retainOptions (replayCalls stored)).map (fun x => x.toReading) =
      (bySession stored.sourceLines).entries.flatMap (fun e =>
        sessionReadings e.1 (storedReadings rt (eventLimit retainOptions) ls)) := by
    rw [allLines, replayCalls, List.flatMap_map, List.map_flatMap]
    exact List.flatMap_congr (fun e he => (sessionCall_readings hread hsrc he).2)
  have hclasses : ∀ s, sessionReadings s
      ((allLines rt retainOptions (replayCalls stored)).map (fun x => x.toReading)) =
      sessionReadings s (storedReadings rt (eventLimit retainOptions) ls) := by
    intro s
    rw [hblocks]
    refine ofClass_flatMap_ofClass (bySession stored.sourceLines).nodup (fun r hr => ?_) s
    exact exists_sessionCall hread hsrc ((storedReadings_perm hread).mem_iff.mp hr)
  exact (perm_of_classes hclasses).trans (storedReadings_perm hread)

theorem logOf_sessionCall (hcons : Consistent ls) (hlife : Lifecycle (logOf ls))
    {e : Text × List Text} (he : e ∈ (bySession stored.sourceLines).entries) :
    logOf (callLines rt retainOptions (sessionCall stored e)) = (logOf ls).ofSession e.1 := by
  rw [logOf_eq_readingsLog, (sessionCall_readings hread hsrc he).2]
  exact readingsLog_stored hread hcons hlife e.1

/-- A replay is the log of the ingestion, session by session. -/
theorem runLog_replay (hcons : Consistent ls) (hlife : Lifecycle (logOf ls)) :
    runLog rt retainOptions (replayCalls stored) =
      (bySession stored.sourceLines).entries.flatMap (fun e => (logOf ls).ofSession e.1) := by
  rw [runLog_of_apart (replayCalls_apart hread hsrc) (replayCalls_consistent hread hsrc hcons),
    replayCalls, List.flatMap_map]
  exact List.flatMap_congr (fun e he => logOf_sessionCall hread hsrc hcons hlife he)

theorem ofSession_replay (hcons : Consistent ls) (hlife : Lifecycle (logOf ls)) (s : Text) :
    (runLog rt retainOptions (replayCalls stored)).ofSession s = (logOf ls).ofSession s := by
  rw [runLog_replay hread hsrc hcons hlife]
  refine ofClass_flatMap_ofClass (bySession stored.sourceLines).nodup (fun x hx => ?_) s
  obtain ⟨y, hy, rfl⟩ := logOf_subset hx
  exact exists_sessionCall hread hsrc (List.mem_map_of_mem hy)

end calls

/-! ### When a replay is valid -/

/-- No event of its session has a higher sequence than run.finished. -/
def RunFinishedLast (l : Log) : Prop :=
  ∀ x ∈ l, x.isRunFinished = true → ∀ y ∈ l, y.session = x.session → y.sequence ≤ x.sequence

instance (l : Log) : Decidable (RunFinishedLast l) :=
  inferInstanceAs (Decidable (∀ x ∈ l, x.isRunFinished = true → ∀ y ∈ l,
    y.session = x.session → y.sequence ≤ x.sequence))

/-- Feeding whole sessions one after the other, all of them finished, leaves no room for an
attempt to be continued in another session. -/
theorem attemptsLocal_of_sessions {B : Type} {key : B → Text} {bs : List B}
    (hnodup : (bs.map key).Nodup) {l l' : Log} (hl' : l' = bs.flatMap (fun b => l.ofSession (key b)))
    (h : Lifecycle l') (hfinished : ∀ s ∈ l'.sessions, s ∈ l'.finishedSessions) :
    AttemptsLocal l' := by
  intro x hx y hy a hxa hya
  have hall : y ∈ bs.flatMap (fun b => l.ofSession (key b)) := hl' ▸ hy
  obtain ⟨b, hb, hyb⟩ := List.mem_flatMap.mp hall
  obtain ⟨cs, ds, rfl⟩ := List.append_of_mem hb
  obtain ⟨u, v, huv⟩ := List.append_of_mem hyb
  have hsplit : l' = (cs.flatMap (fun b => l.ofSession (key b)) ++ u) ++
      y :: (v ++ ds.flatMap (fun b => l.ofSession (key b))) := by
    rw [hl', List.flatMap_append, List.flatMap_cons, huv]
    simp
  have hy : y.session = key b := (mem_ofClass.mp hyb).2
  have hg := h _ y _ hsplit
  have hp : Admissible (Guard l'.runnerName) (cs.flatMap (fun b => l.ofSession (key b)) ++ u) :=
    Admissible.initial h (hsplit ▸ List.prefix_append _ _)
  -- the event that started the attempt stands before `y`
  obtain ⟨w, hw, hwa⟩ := List.mem_filterMap.mp (attempt_of_names hp hg hya)
  obtain rfl : x = w := attempt_unique h hx (hsplit ▸ List.mem_append_left _ hw) hxa hwa
  rcases List.mem_append.mp hw with hc | hu
  · exfalso
    obtain ⟨c, hc, hxc⟩ := List.mem_flatMap.mp hc
    have hxs : x.session = key c := (mem_ofClass.mp hxc).2
    have hkeys : ∀ d ∈ b :: ds, key d ≠ key c := by
      intro d hd heq
      rw [List.map_append] at hnodup
      exact (List.nodup_append.mp hnodup).2.2 _ (List.mem_map_of_mem hc) _
        (List.mem_map_of_mem hd) heq.symm
    have hdone : x.session ∈
        Log.finishedSessions (cs.flatMap (fun b => l.ofSession (key b)) ++ u) := by
      obtain ⟨f, hf, hfs⟩ := List.mem_filterMap.mp (hfinished _ (Log.session_mem hx))
      have hfk : f.session = key c := ((AnyEvent.endsSession_eq_some.mp hfs).2).trans hxs
      rw [hl', List.flatMap_append, List.mem_append] at hf
      rcases hf with hf | hf
      · exact List.mem_filterMap.mpr ⟨f, List.mem_append_left _ hf, hfs⟩
      · obtain ⟨d, hd, hfd⟩ := List.mem_flatMap.mp hf
        exact absurd ((mem_ofClass.mp hfd).2.symm.trans hfk) (hkeys d hd)
    exact not_finished_of_names h hsplit hya (session_closed hp x hw a hxa hdone)
  · have hxm : x ∈ l.ofSession (key b) := huv ▸ List.mem_append_left _ hu
    rw [hy, (mem_ofClass.mp hxm).2]

/-- A session can be fed as one file exactly when run.finished is last in it. -/
theorem fileGuard_session_iff {l : Log} (h : Lifecycle l) (s : Text) :
    Admissible (FileGuard true) (l.ofSession s) ↔
      ∀ x ∈ l.ofSession s, x.isRunFinished = true → ∀ y ∈ l.ofSession s,
        y.sequence ≤ x.sequence := by
  have hsorted : (l.ofSession s).Pairwise (fun x y => x.sequence < y.sequence) := by
    have hlt := List.pairwise_lt_range' (s := 1) (n := (l.ofSession s).length) 1
    rw [← sequence_ofSession h, List.pairwise_map] at hlt
    exact hlt
  constructor
  · intro hadm x hx hrun y hy
    by_contra hlt
    obtain ⟨p, r, hpr⟩ := List.append_of_mem hx
    rw [hpr] at hy hsorted
    obtain ⟨-, hxr, hpx⟩ := List.pairwise_append.mp hsorted
    rcases List.mem_append.mp hy with hyp | hyr
    · exact hlt (hpx y hyp x (by simp)).le
    · rcases List.mem_cons.mp hyr with rfl | hyr
      · exact hlt le_rfl
      · obtain ⟨t, u, rfl⟩ := List.append_of_mem hyr
        have hclosed := (hadm (p ++ x :: t) y u (by simp [hpr])).closed x (by simp)
        rw [hrun] at hclosed
        cases hclosed
  · intro hlast p e r hpr
    have hmem : ∀ x ∈ p ++ e :: r, x.session = s := fun x hx => (mem_ofClass.mp (hpr ▸ hx)).2
    refine ⟨fun _ x hx => ?_, fun x hx => ?_⟩
    · rw [hmem x (List.mem_append_left _ hx), hmem e (by simp)]
    · by_contra hrun
      have hle := hlast x (hpr ▸ List.mem_append_left _ hx) (by simpa using hrun) e (hpr ▸ by simp)
      rw [hpr] at hsorted
      have hlt := (List.pairwise_append.mp hsorted).2.2 x hx e (by simp)
      omega

section validity
variable {rt : Runtime} {fs : FileSystem} {ls : List Line} {stored : StoredRun}
  (hread : WereRead rt (eventLimit retainOptions) ls)
  (hsrc : stored.sourceLines = orderLines (sourceAfter rt [] ls)) (hcons : Consistent ls)
  (hlife : Lifecycle (logOf ls)) (hcomplete : Complete (logOf ls))
include hread hsrc hcons hlife

theorem runLog_replay_perm :
    (runLog rt retainOptions (replayCalls stored)).Perm (logOf ls) :=
  perm_of_classes (ofSession_replay hread hsrc hcons hlife)

theorem replay_filesAdmit_iff :
    FilesAdmit rt retainOptions (replayCalls stored) ↔ RunFinishedLast (logOf ls) := by
  rw [filesAdmit_of_apart (replayCalls_apart hread hsrc) (replayCalls_consistent hread hsrc hcons)]
  constructor
  · intro hfiles x hx hrun y hy hs
    obtain ⟨z, hz, hzx⟩ := logOf_subset hx
    obtain ⟨e, he, hes⟩ := exists_sessionCall hread hsrc (List.mem_map_of_mem hz)
    have hkey : e.1 = x.session := hes.trans (congrArg AnyEvent.session hzx)
    have hfile := hfiles _ (List.mem_map_of_mem he)
    rw [logOf_sessionCall hread hsrc hcons hlife he, hkey] at hfile
    exact (fileGuard_session_iff hlife _).mp hfile x (mem_ofClass.mpr ⟨hx, rfl⟩) hrun y
      (mem_ofClass.mpr ⟨hy, hs⟩)
  · intro hlast c hc
    obtain ⟨e, he, rfl⟩ := List.mem_map.mp hc
    rw [logOf_sessionCall hread hsrc hcons hlife he]
    refine (fileGuard_session_iff hlife _).mpr (fun x hx hrun y hy => ?_)
    obtain ⟨hx, hxs⟩ := mem_ofClass.mp hx
    obtain ⟨hy, hys⟩ := mem_ofClass.mp hy
    exact hlast x hx hrun y hy (hys.trans hxs.symm)

include hcomplete

/-- A replay is valid exactly when attempts stay in their sessions and run.finished is last. -/
theorem replay_valid_iff :
    ValidRun rt fs retainOptions (replayCalls stored) ↔
      AttemptsLocal (logOf ls) ∧ RunFinishedLast (logOf ls) := by
  have hp := runLog_replay_perm hread hsrc hcons hlife
  have hsess := ofSession_replay hread hsrc hcons hlife
  have hfinished : ∀ s ∈ (runLog rt retainOptions (replayCalls stored)).sessions,
      s ∈ (runLog rt retainOptions (replayCalls stored)).finishedSessions := by
    intro s hs
    exact (hp.filterMap _).mem_iff.mpr (hcomplete.sessions s ((hp.map _).mem_iff.mp hs))
  constructor
  · intro hv
    refine ⟨?_, (replay_filesAdmit_iff hread hsrc hcons hlife).mp hv.files⟩
    have hlocal := attemptsLocal_of_sessions (bySession stored.sourceLines).nodup
      (runLog_replay hread hsrc hcons hlife) hv.lifecycle hfinished
    exact fun x hx y hy => hlocal x (hp.mem_iff.mpr hx) y (hp.mem_iff.mpr hy)
  · rintro ⟨hlocal, hlast⟩
    constructor
    · exact replayCalls_read hread hsrc
    · exact replayCalls_consistent hread hsrc hcons
    · exact lifecycle_perm hlife hlocal hp.symm (fun s => (hsess s).symm)
    · exact (replay_filesAdmit_iff hread hsrc hcons hlife).mpr hlast
    · exact fun _ => hfinished
    · intro dir hdir
      cases hdir
    · intro hreq
      cases hreq

end validity

/-! ### Agreement -/

theorem distinctSorted_congr {ts us : List Text} (h : ∀ t, t ∈ ts ↔ t ∈ us) :
    distinctSorted ts = distinctSorted us := by
  have hnodup : ∀ xs : List Text, (fresh id xs).Nodup := by
    intro xs
    have hids : ((fresh id xs).map id).Nodup := fresh_nodup xs
    rwa [List.map_id] at hids
  have hmem : ∀ xs : List Text, ∀ t, t ∈ fresh id xs ↔ t ∈ xs := by
    intro xs t
    refine ⟨fun ht => (fresh_sublist xs).subset ht, fun ht => ?_⟩
    obtain ⟨y, hy, rfl⟩ : ∃ y ∈ fresh id xs, y = t := exists_fresh ht
    exact hy
  refine sortBy_eq_of_perm ?_ (fun a _ b _ hab => Std.LawfulEqCmp.eq_of_compare hab)
  rw [List.perm_ext_iff_of_nodup (hnodup ts) (hnodup us)]
  intro t
  rw [hmem, hmem, h t]

/-- The digests of the fresh lines are those of all lines. -/
theorem mem_digests {rt : Runtime} {ls : List Line} (hcons : Consistent ls) {d : Text} :
    d ∈ ((sourceAfter rt [] ls).filter (fun t => t.disposition ≠ .duplicate)).map
        (fun t => t.canonicalSha256) ↔
      ∃ r ∈ ls.map (fun x => x.toReading), rt.sha256 (utf8 r.key) = d := by
  rw [sourceAfter_digests]
  simp only [List.mem_map]
  constructor
  · rintro ⟨x, hx, rfl⟩
    exact ⟨x.toReading, ⟨x, (fresh_sublist ls).subset hx, rfl⟩, rfl⟩
  · rintro ⟨-, ⟨x, hx, rfl⟩, rfl⟩
    obtain ⟨y, hy, hyx⟩ : ∃ y ∈ fresh Line.eventId ls, y.eventId = x.eventId := exists_fresh hx
    exact ⟨y, hy, by rw [hcons y ((fresh_sublist ls).subset hy) x hx hyx]⟩

theorem contentFingerprint_congr {rt : Runtime} {ls ls' : List Line} (hcons : Consistent ls)
    (hcons' : Consistent ls')
    (hp : (ls'.map (fun x => x.toReading)).Perm (ls.map (fun x => x.toReading))) :
    contentFingerprint rt (sourceAfter rt [] ls') = contentFingerprint rt (sourceAfter rt [] ls) := by
  unfold contentFingerprint
  dsimp only
  rw [distinctSorted_congr (fun d => ?_)]
  rw [mem_digests hcons, mem_digests hcons']
  simp only [hp.mem_iff]

/-! ### The archive of a valid run -/

/-- The attachments among events. -/
def DeclareSizes (events : List Event) (sizes : JsMap Text ℤ) : Prop :=
  ∀ h n, sizes.get? h = some n →
    ∃ e ∈ events, ∃ p, e.payload = .attachmentAdded p ∧ p.sha256 = h ∧ p.sizeBytes = n

/-- One hash, one size: the blobs a run requires can be listed. -/
theorem requireBlob_ok {events : List Event}
    (h : ∀ e ∈ events, ∀ f ∈ events, ∀ p q, e.payload = .attachmentAdded p →
      f.payload = .attachmentAdded q → p.sha256 = q.sha256 → p.sizeBytes = q.sizeBytes) :
    ∃ sizes, events.foldlM requireBlob .empty = .ok sizes ∧ DeclareSizes events sizes := by
  induction events using List.reverseRecOn with
  | nil => exact ⟨.empty, rfl, by simp [DeclareSizes]⟩
  | append_singleton events e ih =>
      obtain ⟨sizes, hok, hdecl⟩ := ih (fun e he f hf => h e (List.mem_append_left _ he) f
        (List.mem_append_left _ hf))
      have hkeep : DeclareSizes (events ++ [e]) sizes := by
        intro k n hk
        obtain ⟨f, hf, hp⟩ := hdecl k n hk
        exact ⟨f, List.mem_append_left _ hf, hp⟩
      have hset : ∀ p, e.payload = .attachmentAdded p →
          DeclareSizes (events ++ [e]) (sizes.set p.sha256 p.sizeBytes) := by
        intro p hp k n hk
        rw [JsMap.get?_set] at hk
        split_ifs at hk with hkp
        · exact ⟨e, by simp, p, hp, hkp.symm, Option.some.inj hk⟩
        · exact hkeep k n hk
      rw [List.foldlM_append, hok]
      simp only [List.foldlM_cons, List.foldlM_nil, bind_pure]
      change ∃ s, requireBlob sizes e = .ok s ∧ DeclareSizes (events ++ [e]) s
      unfold requireBlob
      cases hp : e.payload with
      | attachmentAdded p =>
          cases hk : sizes.get? p.sha256 with
          | none => exact ⟨_, by simp [hk], hset p hp⟩
          | some known =>
              obtain ⟨f, hf, q, hq, hqs, hqn⟩ := hdecl _ _ hk
              have hsame : known = p.sizeBytes := by
                rw [← hqn]
                exact h f (List.mem_append_left _ hf) e (by simp) q p hq hp hqs
              exact ⟨_, by simp [hk, hsame], hset p hp⟩
      | _ => exact ⟨sizes, rfl, hkeep⟩

section ingestion
variable {rt : Runtime} {fs : FileSystem} {options : ValidateOptions} {calls : List FeedCall}

theorem sizes_agree (hv : ValidRun rt fs options calls) {dir : Text}
    (hdir : options.attachmentsDir = some dir) {e f : Event}
    (he : .known e ∈ runLog rt options calls) (hf : .known f ∈ runLog rt options calls)
    {p q : AttachmentAddedPayload} (hp : e.payload = .attachmentAdded p)
    (hq : f.payload = .attachmentAdded q) (hpq : p.sha256 = q.sha256) :
    p.sizeBytes = q.sizeBytes := by
  have hbytes : ∀ {k : Event} {a : AttachmentAddedPayload}, .known k ∈ runLog rt options calls →
      k.payload = .attachmentAdded a → HoldsBytes fs dir (a.sha256, a.sizeBytes) := by
    intro k a hk ha
    refine (hv.attachments dir hdir _ (List.mem_filterMap.mpr ⟨_, hk, ?_⟩)).2
    simp [AnyEvent.attachment, AnyEvent.payload?, ha]
  obtain ⟨-, o, ho, hos, -⟩ := hbytes he hp
  obtain ⟨-, o', ho', hos', -⟩ := hbytes hf hq
  dsimp only at ho ho' hos hos'
  rw [hpq, ho'] at ho
  obtain rfl := Except.ok.inj ho
  rw [← hos, ← hos']

/-- A valid run with an event, validated against its attachments, can be archived. -/
theorem buildArchive_ok (hv : ValidRun rt fs options calls) {dir : Text}
    (hdir : options.attachmentsDir = some dir) (hevents : options.retainEvents = true)
    (hlines : options.retainSourceLines = true) (hne : runLog rt options calls ≠ []) :
    ∃ archive, buildArchive rt (snapshotOf rt fs options calls) = .ok archive ∧
      archive.lines = orderLines (sourceAfter rt [] (allLines rt options calls)) ∧
      archive.contentFingerprint =
        contentFingerprint rt (sourceAfter rt [] (allLines rt options calls)) ∧
      archive.fingerprintVersion = fingerprintVersion ∧
      archive.summary = (reportOf rt fs options calls).summary := by
  have hsource : (snapshotOf rt fs options calls).sourceLines =
      sourceAfter rt [] (allLines rt options calls) := by
    have h := hv.ends.clean.source
    rwa [if_pos hlines] at h
  have haccepted : (snapshotOf rt fs options calls).events =
      (runLog rt options calls).filterMap AnyEvent.known? := by
    have h := hv.ends.follows.accepted
    rwa [if_pos hevents] at h
  have hknown : ∀ e ∈ (snapshotOf rt fs options calls).events,
      .known e ∈ runLog rt options calls := by
    intro e he
    rw [haccepted, ← acceptedEvents_eq hv] at he
    exact (mem_acceptedEvents hv).mp he
  obtain ⟨sizes, hsizes, -⟩ := requireBlob_ok (fun e he f hf p q hp hq =>
    sizes_agree hv hdir (hknown e he) (hknown f hf) hp hq)
  have hblobs : ∃ blobs, requiredBlobs (snapshotOf rt fs options calls) = .ok blobs := by
    rw [requiredBlobs, hsizes]
    exact ⟨_, rfl⟩
  obtain ⟨blobs, hblobs⟩ := hblobs
  have hfirst : orderLines (sourceAfter rt [] (allLines rt options calls)) ≠ [] := by
    intro hnil
    have hperm := storedLines_perm (sourceAfter rt [] (allLines rt options calls))
    rw [← orderLines_lines, hnil, List.map_nil] at hperm
    have hempty := sourceAfter_describes rt [] (allLines rt options calls)
    rw [List.nil_perm.mp hperm, List.forall₂_nil_left_iff] at hempty
    apply hne
    rw [runLog, hempty]
    rfl
  have hnotEmpty : ¬ ((snapshotOf rt fs options calls).report.summary.attachments > 0 ∧
      (snapshotOf rt fs options calls).events = []) := by
    rintro ⟨hpos, hnil⟩
    have hcount : (snapshotOf rt fs options calls).report.summary.attachments =
        ((runLog rt options calls).filterMap AnyEvent.attachment).length := by
      rw [← hv.ends.follows.tracks.counts.attachments, List.length_map]
      rfl
    rw [hcount, gt_iff_lt, List.length_pos_iff_exists_mem] at hpos
    obtain ⟨a, ha⟩ := hpos
    obtain ⟨x, hx, hxa⟩ := List.mem_filterMap.mp ha
    cases x with
    | known e =>
        have he : e ∈ (snapshotOf rt fs options calls).events := by
          rw [haccepted]
          exact List.mem_filterMap.mpr ⟨_, hx, rfl⟩
        rw [hnil] at he
        cases he
    | unknown u => cases hxa
  rw [← hsource] at hfirst ⊢
  unfold buildArchive
  dsimp only
  split
  · exact absurd ‹_› hfirst
  · rw [if_neg hnotEmpty, hblobs]
    exact ⟨_, rfl, rfl, rfl, rfl, rfl⟩

end ingestion

/-! ### Archive and replay agree -/

/-- The replay does not throw: it is valid, every compared field is as it was recorded, and so is
the fingerprint. -/
def ReplayAgrees (rt : Runtime) (fs : FileSystem) (projectId : Text) (archive : RunArchive) : Prop :=
  ∃ replayed, replayStored rt fs (storedRun projectId archive) = .ok replayed ∧
    replayed.report.valid = true ∧
    (∀ key ∈ compared, key.2 replayed.report.summary = key.2 archive.summary) ∧
    contentFingerprint rt replayed.sourceLines = archive.contentFingerprint

/-- The events of a run directory, each event id once. -/
def directoryLog (rt : Runtime) (fs : FileSystem) (dir : Text) : Log :=
  runLog rt retainOptions (directoryCalls fs dir)

/-- The file count is not compared. -/
theorem compared_files (s : Summary) (n : ℕ) :
    ∀ key ∈ compared, key.2 { s with files := n } = key.2 s := by
  simp [compared]

/-- Nothing differs when the replay is valid and has the recorded facts. -/
theorem replayStored_ok {rt : Runtime} {fs : FileSystem} {stored : StoredRun} {v : ValidatedRun}
    (hv : snapshotOf rt fs retainOptions (replayCalls stored) = v) (hvalid : v.report.valid = true)
    (hfields : ∀ key ∈ compared, key.2 v.report.summary = key.2 stored.validationSummary)
    (hcount : stored.sourceLines.length = stored.sourceLineCount)
    (hfinger : contentFingerprint rt v.sourceLines = stored.contentFingerprint) :
    replayStored rt fs stored = .ok v := by
  have hdiff : replayDifferences rt stored v = [] := by
    rw [replayDifferences, List.filterMap_eq_nil_iff.mpr]
    · simp [hvalid, hcount, hfinger]
    · intro key hkey
      simp [hfields key hkey]
  rw [replayStored, hv, hdiff]

theorem replayStored_eq_ok {rt : Runtime} {fs : FileSystem} {stored : StoredRun} {v : ValidatedRun}
    (h : replayStored rt fs stored = .ok v) :
    v = snapshotOf rt fs retainOptions (replayCalls stored) ∧ v.report.valid = true := by
  unfold replayStored at h
  dsimp only at h
  split at h
  · rename_i hnil
    obtain rfl := Except.ok.inj h
    refine ⟨rfl, ?_⟩
    by_contra hno
    rw [replayDifferences, if_neg hno] at hnil
    simp at hnil
  · cases h

section agreement
variable {rt : Runtime} {fs : FileSystem} {options : ValidateOptions} {calls : List FeedCall}

/-- A valid replay of a valid run finds the recorded facts. -/
theorem replay_agrees (hv : ValidRun rt fs options calls)
    (hread : WereRead rt (eventLimit retainOptions) (allLines rt options calls)) {archive : RunArchive}
    (hlines : archive.lines = orderLines (sourceAfter rt [] (allLines rt options calls)))
    (hfinger : archive.contentFingerprint =
      contentFingerprint rt (sourceAfter rt [] (allLines rt options calls)))
    (hsummary : archive.summary = (reportOf rt fs options calls).summary) {projectId : Text}
    (hreplay : ValidRun rt fs retainOptions (replayCalls (storedRun projectId archive))) :
    ReplayAgrees rt fs projectId archive := by
  have hsrc : (storedRun projectId archive).sourceLines =
      orderLines (sourceAfter rt [] (allLines rt options calls)) := hlines
  have hp := runLog_replay_perm hread hsrc hv.consistent hv.lifecycle
  have hreadings := replayCalls_readings hread hsrc
  have hlength := hreadings.length_eq
  rw [List.length_map, List.length_map] at hlength
  have hdup := hv.ends.duplicates
  have hdup' := hreplay.ends.duplicates
  rw [hlength, hp.length_eq] at hdup'
  have hfacts := summaryOf_perm hv.ends.follows hreplay.ends.follows (logOf_nodup _) hp.symm
    (by rw [runLog] at hdup; omega)
  have hfields : ∀ key ∈ compared,
      key.2 (snapshotOf rt fs retainOptions
        (replayCalls (storedRun projectId archive))).report.summary = key.2 archive.summary := by
    intro key hkey
    rw [hsummary]
    exact (congrArg key.2 hfacts).trans (compared_files _ _ key hkey)
  have hsource : contentFingerprint rt (snapshotOf rt fs retainOptions
      (replayCalls (storedRun projectId archive))).sourceLines = archive.contentFingerprint := by
    have h := hreplay.ends.clean.source
    rw [hfinger, ← contentFingerprint_congr hv.consistent hreplay.consistent hreadings]
    exact congrArg _ h
  have hvalid := (valid_iff rt fs retainOptions _).mpr hreplay
  exact ⟨_, replayStored_ok rfl hvalid hfields rfl hsource, hvalid, hfields, hsource⟩

end agreement

/-- The replay of an archived run agrees with its ingestion exactly when every step, attachment
and attempt.finished event is in the session of its attempt and run.finished is the last event
of its session. -/
theorem replay_agrees_iff (rt : Runtime) (fs : FileSystem) (dir projectId : Text)
    (run : ValidatedRun) (hrun : validateRunDirectorySnapshot rt fs dir retainOptions = some run)
    (hvalid : run.report.valid = true) (hcomplete : run.report.summary.complete = true)
    (hevents : 0 < run.report.summary.events) :
    ∃ archive, buildArchive rt run = .ok archive ∧
      (ReplayAgrees rt fs projectId archive ↔
        AttemptsLocal (directoryLog rt fs dir) ∧ RunFinishedLast (directoryLog rt fs dir)) := by
  obtain rfl := snapshot_of_directory hrun hvalid
  have hv := (valid_iff rt fs (directoryOptions fs dir retainOptions) (directoryCalls fs dir)).mp
    hvalid
  have hread : WereRead rt (eventLimit retainOptions)
      (allLines rt (directoryOptions fs dir retainOptions) (directoryCalls fs dir)) := by
    intro x hx
    obtain ⟨c, -, hxc⟩ := mem_allLines.mp hx
    exact (mem_linesOf hxc).2
  have hne : runLog rt (directoryOptions fs dir retainOptions) (directoryCalls fs dir) ≠ [] := by
    intro hnil
    have hcount := hv.ends.follows.events
    rw [hnil] at hcount
    exact absurd hevents (by simp [snapshotOf, finish, summaryOf, hcount])
  obtain ⟨archive, harchive, hlines, hfinger, -, hsummary⟩ := buildArchive_ok hv rfl rfl rfl hne
  refine ⟨archive, harchive, ?_⟩
  have hiff : ValidRun rt fs retainOptions (replayCalls (storedRun projectId archive)) ↔
      AttemptsLocal (directoryLog rt fs dir) ∧ RunFinishedLast (directoryLog rt fs dir) :=
    replay_valid_iff hread hlines hv.consistent hv.lifecycle
      ((isComplete_iff hv.ends.follows).mp hcomplete)
  refine Iff.trans ⟨?_, ?_⟩ hiff
  · rintro ⟨replayed, hok, -⟩
    obtain ⟨rfl, hreplayed⟩ := replayStored_eq_ok hok
    exact (valid_iff rt fs retainOptions _).mp hreplayed
  · exact replay_agrees hv hread hlines hfinger hsummary

namespace Sample

/-- The text of an event file. -/
def fileText (events : List AnyEvent) : Text :=
  events.flatMap (fun e => stringifyEvent e ++ txt "\n")

/-- A run directory `run` with event files and no attachment. -/
def directory (files : List (String × List AnyEvent)) : FileSystem where
  entryKind path :=
    if path = txt "run/events" then .directory
    else if files.any (fun f => txt "run/events/" ++ txt f.1 = path) then .file
    else .missing
  openRegular path :=
    match files.find? (fun f => txt "run/events/" ++ txt f.1 = path) with
    | some f => .ok ⟨fileText f.2, byteLength (fileText f.2), Sha256.digest (utf8 (fileText f.2))⟩
    | none => .error .missing
  realpath path := some path
  readdir path := if path = txt "run/events" then files.map (fun f => txt f.1) else []

/-- Two sessions side by side, with a duplicate line. -/
def forkedDirectory : FileSystem :=
  directory
    [("1.ndjson", sessionFrom "b" 1 [sessionStarted, attemptStarted "t1" "t" 1]),
      ("2.ndjson", sessionFrom "a" 1 [sessionStarted, sessionFinished]),
      ("3.ndjson", sessionFrom "b" 2
        [attemptStarted "t1" "t" 1, attemptFinished "t1" .failed, sessionFinished, .runFinished])]

/-- An attempt that session `z` starts and session `a` finishes. -/
def crossedDirectory : FileSystem :=
  directory
    [("1.ndjson", sessionFrom "z" 1 [sessionStarted, attemptStarted "t1" "t" 1]),
      ("2.ndjson", sessionFrom "a" 1
        [sessionStarted, attemptFinished "t1" .passed, sessionFinished]),
      ("3.ndjson", sessionFrom "z" 3 [sessionFinished])]

/-- Whether a run directory is archived and replayed without a mismatch. -/
def replays (fs : FileSystem) : Option Bool := do
  let run ← validateRunDirectorySnapshot runtime fs (txt "run") retainOptions
  let archive ← (buildArchive runtime run).toOption
  return (replayStored runtime fs (storedRun (txt "project") archive)).isOk

/-- What the report of a run directory says of validity, completeness and events. -/
def accepted (fs : FileSystem) : Option (Bool × Bool × ℕ) :=
  (validateRunDirectorySnapshot runtime fs (txt "run") retainOptions).map
    (fun run => (run.report.valid, run.report.summary.complete, run.report.summary.events))

end Sample

theorem replay_agrees_forked : ∃ run archive,
    validateRunDirectorySnapshot Sample.runtime Sample.forkedDirectory (txt "run") retainOptions =
      some run ∧ buildArchive Sample.runtime run = .ok archive ∧
    ReplayAgrees Sample.runtime Sample.forkedDirectory (txt "project") archive := by
  obtain ⟨haccepted, hlocal, hlast⟩ :
      Sample.accepted Sample.forkedDirectory = some (true, true, 7) ∧
        AttemptsLocal (directoryLog Sample.runtime Sample.forkedDirectory (txt "run")) ∧
        RunFinishedLast (directoryLog Sample.runtime Sample.forkedDirectory (txt "run")) := by
    decide +kernel
  obtain ⟨run, hrun, hfacts⟩ := Option.map_eq_some_iff.mp haccepted
  simp only [Prod.mk.injEq] at hfacts
  obtain ⟨hvalid, hcomplete, hevents⟩ := hfacts
  obtain ⟨archive, harchive, hiff⟩ := replay_agrees_iff Sample.runtime Sample.forkedDirectory
    (txt "run") (txt "project") run hrun hvalid hcomplete (by rw [hevents]; decide)
  exact ⟨run, archive, hrun, harchive, hiff.mpr ⟨hlocal, hlast⟩⟩

theorem replay_disagrees_crossed :
    ¬ ∀ (rt : Runtime) (fs : FileSystem) (dir projectId : Text) (run : ValidatedRun),
      validateRunDirectorySnapshot rt fs dir retainOptions = some run →
      run.report.valid = true → run.report.summary.complete = true →
      0 < run.report.summary.events →
      ∃ archive, buildArchive rt run = .ok archive ∧ ReplayAgrees rt fs projectId archive := by
  intro h
  obtain ⟨haccepted, hreplays⟩ :
      Sample.accepted Sample.crossedDirectory = some (true, true, 6) ∧
        Sample.replays Sample.crossedDirectory = some false := by
    decide +kernel
  obtain ⟨run, hrun, hfacts⟩ := Option.map_eq_some_iff.mp haccepted
  simp only [Prod.mk.injEq] at hfacts
  obtain ⟨hvalid, hcomplete, hevents⟩ := hfacts
  obtain ⟨archive, harchive, replayed, hok, -⟩ := h Sample.runtime Sample.crossedDirectory
    (txt "run") (txt "project") run hrun hvalid hcomplete (by rw [hevents]; decide)
  rw [Sample.replays, hrun] at hreplays
  simp [harchive, hok, Except.toOption, Except.isOk, Except.toBool] at hreplays

end QeReport

import QeReport.Lib.Fresh
import QeReport.Validator.Refinement

/-! # Feeding whole files

The lines of a file that were read, each with its place (`linesOf`), and the fresh ones among
all lines fed: the log of a run is the list of their events (`logOf`).  `feedLines_spec` says
when the loop over the lines of a file adds no error: every line that is not blank could be
read, equal event ids carry equal canonical texts, and both guards admit the fresh events. -/

namespace QeReport

open GuardedLog

/-- A line that was read, with its place. -/
structure Line extends Reading where
  file : Text
  line : ℕ

def Line.eventId (x : Line) : Text := x.event.envelope.eventId

/-- The reading of a line, wherever it stands. -/
def reading (rt : Runtime) (limit : ℕ) (raw : Text) : Option Reading :=
  (readLine rt limit [] 0 raw).toOption

theorem readLine_eq_ok {rt : Runtime} {limit line : ℕ} {file raw : Text} {r : Reading} :
    readLine rt limit file line raw = .ok r ↔ reading rt limit raw = some r := by
  unfold reading readLine
  split_ifs
  · simp [Except.toOption]
  · cases rt.parse raw with
    | error m => simp [Except.toOption]
    | ok v =>
        cases hv : eventFromObject v with
        | error err => simp [hv, Except.toOption]
        | ok e =>
            cases hval : rt.validate e.knownType v with
            | some errors => simp [hv, hval, Except.toOption]
            | none => simp [hv, hval, Except.toOption]

theorem readLine_error_severity {rt : Runtime} {limit line : ℕ} {file raw : Text} {d : Diagnostic}
    (h : readLine rt limit file line raw = .error d) : d.severity = .error := by
  unfold readLine at h
  split_ifs at h
  · cases h
    rfl
  · cases hp : rt.parse raw with
    | error m =>
        rw [hp] at h
        cases h
        rfl
    | ok v =>
        rw [hp] at h
        cases hv : eventFromObject v with
        | error err =>
            simp only [hv] at h
            cases h
            rfl
        | ok e =>
            cases hval : rt.validate e.knownType v with
            | some errors =>
                simp only [hv, hval] at h
                cases h
                rfl
            | none =>
                simp only [hv, hval] at h
                cases h

section lines
variable (rt : Runtime) (limit : ℕ) (file : Text)

/-- The lines that were read, from line `n + 1` of a file on. -/
def linesOf (n : ℕ) : List Text → List Line
  | [] => []
  | raw :: rest =>
      if blank raw then linesOf (n + 1) rest
      else
        match reading rt limit raw with
        | none => linesOf (n + 1) rest
        | some r => ⟨r, file, n + 1⟩ :: linesOf (n + 1) rest

/-- Every line that is not blank could be read. -/
def AllRead (lines : List Text) : Prop :=
  ∀ raw ∈ lines, blank raw = true ∨ (reading rt limit raw).isSome = true

end lines

theorem reading_eq_some {rt : Runtime} {limit : ℕ} {raw : Text} {r : Reading}
    (h : reading rt limit raw = some r) : r.raw = raw ∧
      ∃ v, rt.parse raw = .ok v ∧ eventFromObject v = .ok r.event ∧ r.key = canonText v := by
  have h := (@readLine_eq_ok rt limit 0 [] raw r).mpr h
  unfold readLine at h
  split_ifs at h
  cases hp : rt.parse raw with
  | error m =>
      rw [hp] at h
      cases h
  | ok v =>
      rw [hp] at h
      cases hv : eventFromObject v with
      | error err =>
          simp only [hv] at h
          cases h
      | ok e =>
          cases hval : rt.validate e.knownType v with
          | some errors =>
              simp only [hv, hval] at h
              cases h
          | none =>
              simp only [hv, hval, Except.ok.injEq] at h
              subst h
              exact ⟨rfl, v, rfl, hv, canonical_eq v⟩

theorem mem_linesOf {rt : Runtime} {limit : ℕ} {file : Text} {n : ℕ} {lines : List Text} {x : Line}
    (h : x ∈ linesOf rt limit file n lines) :
    x.raw ∈ lines ∧ blank x.raw = false ∧ reading rt limit x.raw = some x.toReading := by
  induction lines generalizing n with
  | nil => cases h
  | cons raw rest ih =>
      have hrest : x ∈ linesOf rt limit file (n + 1) rest →
          x.raw ∈ raw :: rest ∧ blank x.raw = false ∧ reading rt limit x.raw = some x.toReading :=
        fun hx => ⟨List.mem_cons_of_mem _ (ih hx).1, (ih hx).2⟩
      rw [linesOf] at h
      split_ifs at h with hb
      · exact hrest h
      · cases hr : reading rt limit raw with
        | none =>
            rw [hr] at h
            exact hrest h
        | some r =>
            rw [hr] at h
            rcases List.mem_cons.mp h with rfl | hx
            · have hraw : r.raw = raw := (reading_eq_some hr).1
              dsimp only
              rw [hraw]
              exact ⟨List.mem_cons_self, by simpa using hb, hr⟩
            · exact hrest hx

/-- Lines with one canonical text are in one session, at one sequence. -/
theorem session_of_key {rt : Runtime} {limit : ℕ} {a b : Text} {r q : Reading}
    (hr : reading rt limit a = some r) (hq : reading rt limit b = some q) (h : r.key = q.key) :
    r.event.session = q.event.session ∧ r.event.sequence = q.event.sequence ∧
      r.event.envelope.runId = q.event.envelope.runId := by
  obtain ⟨-, v, -, hv, hvk⟩ := reading_eq_some hr
  obtain ⟨-, w, -, hw, hwk⟩ := reading_eq_some hq
  exact envelope_of_canonText hv hw (by rw [← hvk, ← hwk, h])

/-- The fresh lines. -/
def freshLines (ls : List Line) : List Line := fresh Line.eventId ls

/-- The events of the fresh lines after `done`. -/
def eventsAfter (done ls : List Line) : Log :=
  (freshAfter Line.eventId done ls).map (fun x => x.event)

/-- The log of a run: the events of its fresh lines. -/
def logOf (ls : List Line) : Log := (freshLines ls).map (fun x => x.event)

/-- One event id, one canonical text. -/
def Consistent (ls : List Line) : Prop :=
  ∀ x ∈ ls, ∀ y ∈ ls, x.eventId = y.eventId → x.key = y.key

theorem logOf_append (a b : List Line) : logOf (a ++ b) = logOf a ++ eventsAfter a b := by
  rw [logOf, freshLines, fresh_append, List.map_append]
  rfl

/-- An event id occurs once in a log. -/
theorem logOf_nodup (ls : List Line) : (logOf ls).Nodup := by
  refine List.Nodup.of_map (fun e : AnyEvent => e.envelope.eventId) ?_
  rw [logOf, List.map_map]
  exact fresh_nodup ls

theorem Consistent.initial {a b : List Line} (h : Consistent (a ++ b)) : Consistent a :=
  fun x hx y hy => h x (List.mem_append_left _ hx) y (List.mem_append_left _ hy)

theorem consistent_concat {a : List Line} {x : Line} :
    Consistent (a ++ [x]) ↔ Consistent a ∧ ∀ y ∈ a, y.eventId = x.eventId → y.key = x.key := by
  constructor
  · exact fun h => ⟨h.initial, fun y hy => h y (List.mem_append_left _ hy) x (by simp)⟩
  · rintro ⟨ha, hx⟩ y hy z hz hyz
    rcases List.mem_append.mp hy with hy | hy <;> rcases List.mem_append.mp hz with hz | hz
    · exact ha y hy z hz hyz
    · rw [List.mem_singleton.mp hz] at hyz ⊢
      exact hx y hy hyz
    · rw [List.mem_singleton.mp hy] at hyz ⊢
      exact (hx z hz hyz.symm).symm
    · rw [List.mem_singleton.mp hy, List.mem_singleton.mp hz]

/-- What a fresh line is. -/
def freshDisposition (x : Line) : Disposition :=
  if x.event.known?.isNone then .ignored else .accepted

/-- The source lines of lines that were read after `done`. -/
def sourceAfter (rt : Runtime) (done : List Line) : List Line → List ValidatedSourceLine
  | [] => []
  | x :: ls =>
      sourceLine rt x.file x.toReading x.line
        (if ∃ y ∈ done, y.eventId = x.eventId then .duplicate else freshDisposition x) ::
      sourceAfter rt (done ++ [x]) ls

theorem sourceAfter_append (rt : Runtime) (done a b : List Line) :
    sourceAfter rt done (a ++ b) = sourceAfter rt done a ++ sourceAfter rt (done ++ a) b := by
  induction a generalizing done with
  | nil => simp [sourceAfter]
  | cons x a ih => simp [sourceAfter, ih]

/-! ### The state after the lines `done` -/

/-- The state of a validator that has read `done` without an error. -/
structure Clean (rt : Runtime) (options : ValidateOptions) (b : Books) (done : List Line) : Prop where
  follows : Follows options b (logOf done)
  consistent : Consistent done
  seen : ∀ i, b.seen.get? i = (done.find? (fun x => x.eventId = i)).map (fun x => x.key)
  duplicates : b.duplicates + (freshLines done).length = done.length
  source : b.source = if options.retainSourceLines then sourceAfter rt [] done else []

theorem Lifecycle.initial {l r : Log} (h : Lifecycle (l ++ r)) : Lifecycle l := by
  induction r using List.reverseRecOn with
  | nil => simpa using h
  | append_singleton r e ih =>
      apply ih
      rw [← List.append_assoc] at h
      obtain ⟨hlr, hg⟩ := admissible_concat.mp h
      exact admissible_congr hlr (fun s hs => Log.runnerName_concat hs hg.opens.mp)

theorem lifecycle_concat {l : Log} {e : AnyEvent} (h : Lifecycle l) :
    Lifecycle (l ++ [e]) ↔ Guard (Log.runnerName (l ++ [e])) l e := by
  refine admissible_concat.trans ⟨fun h' => h'.2, fun hg => ⟨?_, hg⟩⟩
  exact admissible_congr h (fun s hs => (Log.runnerName_concat hs hg.opens.mp).symm)

theorem archive_seen {rt : Runtime} {options : ValidateOptions} {file : Text} {r : Reading}
    {line : ℕ} {d : Disposition} {b : Books} :
    (archive rt options file r line d b).seen = b.seen := by
  unfold archive
  split_ifs <;> rfl

theorem archive_duplicates {rt : Runtime} {options : ValidateOptions} {file : Text} {r : Reading}
    {line : ℕ} {d : Disposition} {b : Books} :
    (archive rt options file r line d b).duplicates = b.duplicates := by
  unfold archive
  split_ifs <;> rfl

/-- A duplicate leaves the facts alone. -/
theorem Follows.duplicate {rt : Runtime} {options : ValidateOptions} {file : Text} {r : Reading}
    {line : ℕ} {b : Books} {l : Log} (h : Follows options b l) :
    Follows options
      (archive rt options file r line .duplicate { b with duplicates := b.duplicates + 1 }) l := by
  have hb : SameFacts b { b with duplicates := b.duplicates + 1 } :=
    ⟨rfl, rfl, rfl, rfl, rfl, rfl, rfl, rfl, rfl, rfl⟩
  have ht := (h.tracks.congr hb).congr (archive_sameFacts rt options file r line .duplicate _)
  unfold archive at ht ⊢
  split_ifs at ht ⊢ <;> exact ⟨h.lifecycle, ht, h.sessions, h.runId, h.events, h.ignored, h.accepted⟩

section reading
variable {rt : Runtime} {options : ValidateOptions} {file : Text} {singleSession : Bool}
  {b : Books} {here : Here} {done : List Line} {q : Log}

theorem logOf_concat_dup {x : Line} (h : ∃ y ∈ done, y.eventId = x.eventId) :
    freshLines (done ++ [x]) = freshLines done ∧ eventsAfter done [x] = [] := by
  rw [freshLines, fresh_append, eventsAfter, freshAfter_singleton, if_pos h]
  simp [freshLines]

theorem logOf_concat_fresh {x : Line} (h : ¬ ∃ y ∈ done, y.eventId = x.eventId) :
    freshLines (done ++ [x]) = freshLines done ++ [x] ∧ eventsAfter done [x] = [x.event] := by
  rw [freshLines, fresh_append, eventsAfter, freshAfter_singleton, if_neg h]
  exact ⟨rfl, rfl⟩

theorem Clean.seen_concat {x : Line} (h : Clean rt options b done) (i : Text) :
    ((done ++ [x]).find? (fun y => y.eventId = i)).map (fun y => y.key) =
      (b.seen.get? i).or (if x.eventId = i then some x.key else none) := by
  rw [h.seen, List.find?_append]
  cases done.find? (fun y => decide (y.eventId = i)) with
  | none => by_cases hi : x.eventId = i <;> simp [hi]
  | some y => simp

/-- A line that was read is taken without an error exactly when its event id is consistent and
its event, if fresh, is admitted. -/
theorem feedReading_spec (r : Reading) (h : Clean rt options b done)
    (hq : HereFollows singleSession here q) {x : Line} (hx : x = ⟨r, file, here.line⟩) :
    (ErrorFree (feedReading rt options file singleSession r b here).diagnostics ↔
      Consistent (done ++ [x]) ∧ Lifecycle (logOf (done ++ [x])) ∧
      ∀ e ∈ eventsAfter done [x], FileGuard singleSession q e) ∧
    (ErrorFree (feedReading rt options file singleSession r b here).diagnostics →
      Clean rt options (feedReading rt options file singleSession r b here).books (done ++ [x]) ∧
      HereFollows singleSession (feedReading rt options file singleSession r b here).here
        (q ++ eventsAfter done [x]) ∧
      (feedReading rt options file singleSession r b here).here.line = here.line ∧
      (feedReading rt options file singleSession r b here).books.files = b.files) := by
  have hid : x.eventId = r.event.envelope.eventId := by rw [hx]; rfl
  have hkey : x.key = r.key := by rw [hx]
  have hev : x.event = r.event := by rw [hx]
  have hseen := h.seen r.event.envelope.eventId
  cases hfind : done.find? (fun y => decide (y.eventId = r.event.envelope.eventId)) with
  | some y =>
      have hy := List.mem_of_find?_eq_some hfind
      have hyid : y.eventId = x.eventId := by
        rw [hid]
        simpa using List.find?_some hfind
      rw [hfind, Option.map_some] at hseen
      obtain ⟨hlines, hevents⟩ := logOf_concat_dup ⟨y, hy, hyid⟩
      have hlog : logOf (done ++ [x]) = logOf done := by rw [logOf, hlines, logOf]
      have hcons : Consistent (done ++ [x]) ↔ y.key = r.key := by
        rw [consistent_concat, hkey]
        refine ⟨fun hc => hc.2 y hy hyid, fun hk => ⟨h.consistent, fun z hz hzx => ?_⟩⟩
        rw [h.consistent z hz y hy (hzx.trans hyid.symm), hk]
      rw [hcons, hlog, hevents, List.append_nil]
      by_cases hk : y.key = r.key
      · have hout : feedReading rt options file singleSession r b here =
            ⟨[lineInfo ⟨file, here.line, r.event.envelope.eventId⟩ .duplicateEvent
                (txt "identical duplicate ignored")],
              archive rt options file r here.line .duplicate
                { b with duplicates := b.duplicates + 1 }, here⟩ := by
          unfold feedReading
          dsimp only
          rw [hseen]
          exact if_pos hk
        have hfree : ErrorFree [lineInfo ⟨file, here.line, r.event.envelope.eventId⟩ .duplicateEvent
            (txt "identical duplicate ignored")] := by simp [ErrorFree, lineInfo]
        rw [hout]
        refine ⟨iff_of_true hfree ⟨hk, h.follows.lifecycle, by simp⟩, fun _ => ⟨?_, hq, rfl, ?_⟩⟩
        · refine ⟨hlog ▸ h.follows.duplicate, hcons.mpr hk, fun i => ?_, ?_, ?_⟩
          · rw [archive_seen, h.seen_concat]
            by_cases hi : x.eventId = i
            · rw [← hi, hid, hseen, Option.some_or]
            · simp [hi]
          · rw [hlines, archive_duplicates, List.length_append, List.length_singleton]
            have := h.duplicates
            dsimp only
            omega
          · have hdup : ∃ z ∈ [] ++ done, z.eventId = x.eventId := ⟨y, by simpa using hy, hyid⟩
            rw [sourceAfter_append, sourceAfter, if_pos hdup, sourceAfter, archive]
            have hs := h.source
            by_cases hr : options.retainSourceLines = true
            · simp only [hr, if_true] at hs ⊢
              rw [hs, hx]
            · simp only [hr] at hs ⊢
              exact hs
        · unfold archive
          split_ifs <;> rfl
      · have hout : (feedReading rt options file singleSession r b here).diagnostics =
            [lifecycle ⟨file, here.line, r.event.envelope.eventId⟩ .duplicateEventId
              (txt "eventId " ++ r.event.envelope.eventId ++
                txt " reused with different content")] := by
          unfold feedReading
          dsimp only
          rw [hseen]
          exact congrArg Outcome.diagnostics (if_neg hk)
        rw [hout]
        exact ⟨iff_of_false not_errorFree_lifecycle (fun h' => hk h'.1),
          fun h' => absurd h' not_errorFree_lifecycle⟩
  | none =>
      have hnew : ∀ y ∈ done, y.eventId ≠ x.eventId := by
        intro y hy
        rw [hid]
        simpa using List.find?_eq_none.mp hfind y hy
      rw [hfind, Option.map_none] at hseen
      have hno : ¬ ∃ y ∈ done, y.eventId = x.eventId := by
        rintro ⟨y, hy, hyx⟩
        exact hnew y hy hyx
      obtain ⟨hlines, hevents⟩ := logOf_concat_fresh hno
      have hlog : logOf (done ++ [x]) = logOf done ++ [r.event] := by
        rw [logOf, hlines, List.map_append, logOf, List.map_singleton, hev]
      have hout : feedReading rt options file singleSession r b here =
          freshEvent rt options file singleSession r b here := by
        unfold feedReading
        dsimp only
        rw [hseen]
      obtain ⟨herr, htaken⟩ := freshEvent_spec rt file r h.follows hq
      have hcons : Consistent (done ++ [x]) :=
        consistent_concat.mpr ⟨h.consistent, fun y hy hyx => absurd hyx (hnew y hy)⟩
      rw [hout, hlog, hevents, lifecycle_concat h.follows.lifecycle, hev]
      refine ⟨herr.trans ?_, fun hfree => ?_⟩
      · simp [hcons]
      · obtain ⟨t1, t2, t3, t4, t5, t6, t7⟩ := htaken hfree
        refine ⟨⟨hlog ▸ t1, hcons, fun i => ?_, ?_, ?_⟩, t2, t3, t5⟩
        · rw [t4, h.seen_concat, JsMap.get?_set, hid, hkey]
          by_cases hi : i = r.event.envelope.eventId
          · simp [hi, hseen]
          · simp [hi, Ne.symm hi]
        · rw [t6, hlines, List.length_append, List.length_append, List.length_singleton]
          have := h.duplicates
          omega
        · have hdup : ¬ ∃ z ∈ [] ++ done, z.eventId = x.eventId := by simpa using hno
          rw [t7, sourceAfter_append, sourceAfter, if_neg hdup, sourceAfter, freshDisposition, hev,
            h.source]
          by_cases hr : options.retainSourceLines = true
          · simp only [hr, if_true, hx]
          · simp [hr]

end reading

/-! ### The loop over the lines -/

/-- The lines `ls`, read after `done` in a file whose fresh events so far are `q`, keep the
rules. -/
structure Admits (singleSession : Bool) (done : List Line) (q : Log) (ls : List Line) : Prop where
  consistent : Consistent (done ++ ls)
  lifecycle : Lifecycle (logOf (done ++ ls))
  file : Admissible (fun p => FileGuard singleSession (q ++ p)) (eventsAfter done ls)

theorem eventsAfter_append (done a b : List Line) :
    eventsAfter done (a ++ b) = eventsAfter done a ++ eventsAfter (done ++ a) b := by
  rw [eventsAfter, freshAfter_append, List.map_append]
  rfl

theorem admits_nil {rt : Runtime} {options : ValidateOptions} {b : Books} {singleSession : Bool}
    {done : List Line} {q : Log} (h : Clean rt options b done) : Admits singleSession done q [] :=
  ⟨by simpa using h.consistent, by simpa using h.follows.lifecycle, admissible_nil⟩

/-- One line and the rest. -/
theorem admits_cons {singleSession : Bool} {done : List Line} {q : Log} {x : Line}
    {ls : List Line} :
    Admits singleSession done q (x :: ls) ↔
      (Consistent (done ++ [x]) ∧ Lifecycle (logOf (done ++ [x])) ∧
        ∀ e ∈ eventsAfter done [x], FileGuard singleSession q e) ∧
      Admits singleSession (done ++ [x]) (q ++ eventsAfter done [x]) ls := by
  have hone : ∀ e, e ∈ eventsAfter done [x] → eventsAfter done [x] = [e] := by
    intro e he
    rw [eventsAfter, freshAfter_singleton] at he ⊢
    split_ifs at he ⊢
    · simp at he
    · simp only [List.map_cons, List.map_nil, List.mem_singleton] at he ⊢
      rw [he]
  have hsplit : eventsAfter done (x :: ls) = eventsAfter done [x] ++ eventsAfter (done ++ [x]) ls :=
    eventsAfter_append done [x] ls
  constructor
  · rintro ⟨h1, h2, h3⟩
    rw [← List.singleton_append, ← List.append_assoc] at h1 h2
    rw [hsplit, admissible_append] at h3
    refine ⟨⟨h1.initial, ?_, fun e he => ?_⟩, ⟨h1, h2, ?_⟩⟩
    · rw [logOf_append] at h2
      exact h2.initial
    · have := h3.1 [] e [] (hone e he)
      simpa using this
    · simpa [List.append_assoc] using h3.2
  · rintro ⟨⟨-, -, h3⟩, ⟨g1, g2, g3⟩⟩
    rw [List.append_assoc, List.singleton_append] at g1 g2
    refine ⟨g1, g2, ?_⟩
    rw [hsplit, admissible_append]
    refine ⟨fun p e s hp => ?_, by simpa [List.append_assoc] using g3⟩
    have he : e ∈ eventsAfter done [x] := by simp [hp]
    have hlen := congrArg List.length ((hone e he).symm.trans hp)
    have hp0 : p = [] := List.length_eq_zero_iff.mp (by simp at hlen; omega)
    simpa [hp0] using h3 e he

theorem feedLines_spec (rt : Runtime) (options : ValidateOptions) (file : Text)
    (singleSession : Bool) (raws : List Text) {b : Books} {here : Here} {done : List Line} {q : Log}
    (h : Clean rt options b done) (hq : HereFollows singleSession here q) :
    (ErrorFree (feedLines rt options file singleSession raws b here).diagnostics ↔
      AllRead rt (eventLimit options) raws ∧
      Admits singleSession done q (linesOf rt (eventLimit options) file here.line raws)) ∧
    (ErrorFree (feedLines rt options file singleSession raws b here).diagnostics →
      Clean rt options (feedLines rt options file singleSession raws b here).books
        (done ++ linesOf rt (eventLimit options) file here.line raws) ∧
      (feedLines rt options file singleSession raws b here).books.files = b.files) := by
  induction raws generalizing b here done q with
  | nil =>
      simp only [feedLines, linesOf, List.append_nil]
      exact ⟨iff_of_true errorFree_nil ⟨fun _ h' => absurd h' (by simp), admits_nil h⟩,
        fun _ => ⟨h, trivial⟩⟩
  | cons raw rest ih =>
      have hnot : here.abandoned = false := hq.abandoned
      have hq' : HereFollows singleSession { here with line := here.line + 1 } q :=
        ⟨hq.closed, hq.fileSession, hq.abandoned, hq.one⟩
      have hall : AllRead rt (eventLimit options) (raw :: rest) ↔
          (blank raw = true ∨ (reading rt (eventLimit options) raw).isSome = true) ∧
          AllRead rt (eventLimit options) rest := by
        simp [AllRead]
      by_cases hblank : blank raw = true
      · have hline : feedLine rt options file singleSession raw b here =
            ⟨[], b, { here with line := here.line + 1 }⟩ := by
          simp [feedLine, hblank]
        obtain ⟨ih1, ih2⟩ := ih h hq'
        simp only [feedLines, hline, linesOf, hblank, if_true, List.nil_append, hall, true_or,
          true_and]
        exact ⟨ih1, ih2⟩
      · cases hread : reading rt (eventLimit options) raw with
        | none =>
            obtain ⟨d, hd⟩ : ∃ d, readLine rt (eventLimit options) file (here.line + 1) raw =
                .error d := by
              cases hl : readLine rt (eventLimit options) file (here.line + 1) raw with
              | error d => exact ⟨d, rfl⟩
              | ok r =>
                  rw [readLine_eq_ok.mp hl] at hread
                  cases hread
            have hline : (feedLine rt options file singleSession raw b here).diagnostics = [d] := by
              simp [feedLine, hnot, hblank, hd]
            have hbad : ¬ ErrorFree
                (feedLines rt options file singleSession (raw :: rest) b here).diagnostics := by
              simp only [feedLines, hline]
              exact fun hfree => hfree d (by simp) (readLine_error_severity hd)
            refine ⟨iff_of_false hbad (fun hc => ?_), fun hfree => absurd hfree hbad⟩
            have := (hall.mp hc.1).1
            simp [hblank, hread] at this
        | some r =>
            have hline : feedLine rt options file singleSession raw b here =
                feedReading rt options file singleSession r b
                  { here with line := here.line + 1 } := by
              simp [feedLine, hnot, hblank, readLine_eq_ok.mpr hread]
            obtain ⟨hr1, hr2⟩ := feedReading_spec r h hq' (x := ⟨r, file, here.line + 1⟩) rfl
            simp only [feedLines, hline, linesOf, hblank, Bool.false_eq_true, if_false, hread,
              errorFree_append, hall, Option.isSome_some, or_true, true_and, admits_cons]
            by_cases hfree : ErrorFree (feedReading rt options file singleSession r b
                { here with line := here.line + 1 }).diagnostics
            · obtain ⟨hc, hh, hl, hf⟩ := hr2 hfree
              obtain ⟨ih1, ih2⟩ := ih hc hh
              rw [hl] at ih1 ih2
              refine ⟨?_, fun hboth => ?_⟩
              · rw [ih1]
                have := hr1.mp hfree
                tauto
              · obtain ⟨c1, c2⟩ := ih2 hboth.2
                exact ⟨by simpa using c1, c2.trans hf⟩
            · refine ⟨iff_of_false (fun h' => hfree h'.1) (fun h' => hfree (hr1.mpr h'.2.1)),
                fun h' => absurd h'.1 hfree⟩

end QeReport

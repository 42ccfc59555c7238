import QeReport.Lib.JsonAlike
import QeReport.Validator.Canonical
import QeReport.Validator.Finish
import QeReport.Validator.Lines

/-! # Duplicates

The loop of `canonical` ends with the canonical text, which is the same for two values exactly
when they are equal up to the order of members; so of two lines with one event id the second is an
identical duplicate exactly when its value is that of the first up to the order of members
(`canonical_faithful`).  An event id that was seen stays seen under its first text. -/

namespace QeReport

/-! ### What a line does to the event ids -/

/-- The switch leaves the event ids alone, and the end of the run unless it is one. -/
theorem handle_frame (at_ : Place) (e : Event) (session : SessionState) (b : Books) :
    (handle at_ e session b).2.seen = b.seen ∧
    (e.payload ≠ .runFinished → (handle at_ e session b).2.runFinished = b.runFinished) := by
  unfold handle
  split
  · exact ⟨rfl, fun _ => rfl⟩
  · exact ⟨rfl, fun _ => rfl⟩
  · rename_i hp
    refine ⟨?_, fun h => absurd hp h⟩
    unfold runFinished
    split
    · rfl
    · rfl
  · unfold attemptStarted checkExecution
    dsimp only
    repeat' split
    all_goals exact ⟨rfl, fun _ => rfl⟩
  · unfold attemptFinished
    repeat' split
    all_goals exact ⟨rfl, fun _ => rfl⟩
  · unfold stepStarted
    dsimp only
    repeat' split
    all_goals exact ⟨rfl, fun _ => rfl⟩
  · unfold stepFinished
    dsimp only
    repeat' split
    all_goals exact ⟨rfl, fun _ => rfl⟩
  · exact ⟨rfl, fun _ => rfl⟩
  · exact ⟨rfl, fun _ => rfl⟩

section seen
variable {rt : Runtime} {options : ValidateOptions} {file : Text} {singleSession : Bool}
  {b : Books} {here : Here} {r : Reading}

theorem acceptEvent_seen (session : SessionState) :
    (acceptEvent rt options file r session b here).books.seen = b.seen := by
  unfold acceptEvent
  split
  · exact archive_seen
  · dsimp only
    rw [(handle_frame _ _ session _).1, archive_seen]
    split <;> rfl

theorem inSession_seen (session : SessionState) :
    (inSession rt options file r session b here).books.seen = b.seen := by
  unfold inSession
  dsimp only
  split
  · rfl
  · exact acceptEvent_seen _

theorem withSession_seen :
    (withSession rt options file singleSession r b here).books.seen = b.seen := by
  unfold withSession
  dsimp only
  split
  · split
    · rfl
    · exact inSession_seen _
  · split
    · exact inSession_seen _
    · exact inSession_seen _

theorem noteRunId_seen (at_ : Place) (e : Envelope) : (noteRunId at_ e b).2.seen = b.seen := by
  unfold noteRunId
  split <;> rfl

/-- A fresh event is seen under its text. -/
theorem freshEvent_seen : (freshEvent rt options file singleSession r b here).books.seen =
    b.seen.set r.event.envelope.eventId r.key := by
  unfold freshEvent
  dsimp only
  split
  · exact noteRunId_seen _ _
  · exact withSession_seen.trans (noteRunId_seen _ _)

/-- What was seen stays seen. -/
theorem feedReading_seen {id key : Text} (h : b.seen.get? id = some key) :
    (feedReading rt options file singleSession r b here).books.seen.get? id = some key := by
  unfold feedReading
  dsimp only
  split
  · split
    · rw [archive_seen]
      exact h
    · exact h
  · rename_i hnone
    rw [freshEvent_seen, JsMap.get?_set, if_neg, h]
    rintro rfl
    rw [hnone] at h
    cases h

theorem feedLine_seen {id key raw : Text} (h : b.seen.get? id = some key) :
    (feedLine rt options file singleSession raw b here).books.seen.get? id = some key := by
  unfold feedLine
  dsimp only
  split
  · exact h
  · split
    · exact h
    · exact feedReading_seen h

theorem feedLines_seen {id key : Text} {raws : List Text} (h : b.seen.get? id = some key) :
    (feedLines rt options file singleSession raws b here).books.seen.get? id = some key := by
  induction raws generalizing b here with
  | nil => exact h
  | cons raw raws ih =>
      rw [feedLines]
      exact ih (feedLine_seen h)

/-- What a validator has seen it has seen after any further calls. -/
theorem feed_seen {v : RunValidator} {id key : Text} {calls : List FeedCall}
    (h : v.books.seen.get? id = some key) :
    (calls.foldl (feed rt options) v).books.seen.get? id = some key := by
  induction calls generalizing v with
  | nil => exact h
  | cons call calls ih =>
      rw [List.foldl_cons]
      exact ih (feedLines_seen h)

end seen

/-! ### The canonical text -/

/-- The loop ends: from enough passes on, the stack is empty and the canonical text written. -/
theorem canonicalLoop_ends (v : Json) {n : ℕ} (hn : canonicalSteps v ≤ n) :
    canonicalLoop n (openValue v [] []) = (canonText v, []) := by
  have hrest : ∀ m out, canonicalLoop m (out, []) = (out, []) := by
    intro m
    induction m with
    | zero => exact fun _ => rfl
    | succ m ih => exact fun out => ih out
  obtain ⟨m, rfl⟩ := Nat.exists_eq_add_of_le hn
  rw [(canonicalLoop_spec (canonicalSteps v)).1 v [] [] m le_rfl, List.nil_append, hrest]

/-- `canonical` ends with the recursive canonical text, which two values share exactly when they
are equal up to the order of members.  A line whose event id was seen is an identical duplicate
when its value is that of the first line with the id, up to the order of members, and a reused id
otherwise. -/
theorem canonical_faithful :
    (∀ v : Json, ∃ n, ∀ m, n ≤ m → canonicalLoop m (openValue v [] []) = (canonText v, [])) ∧
    (∀ v : Json, canonical v = canonText v) ∧
    (∀ u v : Json, u.KeysDistinct → v.KeysDistinct → (canonical u = canonical v ↔ Alike u v)) ∧
    ∀ (rt : Runtime) (options : ValidateOptions) (file file' file'' : Text) (single single' : Bool)
      (first second : Text) (u v : Json) (line line' : ℕ) (r q : Reading) (b : Books)
      (here here' : Here) (mid : List Text) (diagnostics : List Diagnostic)
      (calls : List FeedCall),
      rt.parse first = .ok u → rt.parse second = .ok v → u.KeysDistinct → v.KeysDistinct →
      readLine rt (eventLimit options) file line first = .ok r →
      readLine rt (eventLimit options) file' line' second = .ok q →
      r.event.envelope.eventId = q.event.envelope.eventId →
      b.seen.get? r.event.envelope.eventId = none →
      let fed := feedReading rt options file single r b here
      let rest := feedLines rt options file single mid fed.books fed.here
      let later := (calls.foldl (feed rt options) ⟨rest.books, diagnostics⟩).books
      let at_ : Place := ⟨file'', here'.line, q.event.envelope.eventId⟩
      (Alike u v → feedReading rt options file'' single' q later here' =
        ⟨[lineInfo at_ .duplicateEvent (txt "identical duplicate ignored")],
          archive rt options file'' q here'.line .duplicate
            { later with duplicates := later.duplicates + 1 }, here'⟩) ∧
      (¬ Alike u v → feedReading rt options file'' single' q later here' =
        ⟨[lifecycle at_ .duplicateEventId (txt "eventId " ++ q.event.envelope.eventId ++
          txt " reused with different content")], later, here'⟩) := by
  have hcanonical : ∀ u v : Json, u.KeysDistinct → (canonical u = canonical v ↔ Alike u v) := by
    intro u v hu
    rw [canonical_eq, canonical_eq]
    exact canonText_eq_iff hu
  refine ⟨fun v => ⟨_, fun m hm => canonicalLoop_ends v hm⟩, canonical_eq,
    fun u v hu _ => hcanonical u v hu, ?_⟩
  intro rt options file file' file'' single single' first second u v line line' r q b here here' mid
    diagnostics calls hu hv hdu _ hr hq hid hnone fed rest later at_
  obtain ⟨-, u', hu', -, hkey⟩ := reading_eq_some (readLine_eq_ok.mp hr)
  obtain ⟨-, v', hv', -, hkey'⟩ := reading_eq_some (readLine_eq_ok.mp hq)
  obtain rfl : u = u' := Except.ok.inj (hu.symm.trans hu')
  obtain rfl : v = v' := Except.ok.inj (hv.symm.trans hv')
  have hfed : fed.books.seen.get? r.event.envelope.eventId = some r.key := by
    change (feedReading rt options file single r b here).books.seen.get? _ = _
    unfold feedReading
    simp only [hnone]
    rw [freshEvent_seen, JsMap.get?_set_self]
  have hlater : later.seen.get? q.event.envelope.eventId = some r.key := by
    rw [← hid]
    exact feed_seen (feedLines_seen hfed)
  have hiff : r.key = q.key ↔ Alike u v := by
    rw [hkey, hkey']
    exact canonText_eq_iff hdu
  constructor
  · intro h
    unfold feedReading
    simp only [hlater, if_pos (hiff.mpr h)]
    rfl
  · intro h
    unfold feedReading
    simp only [hlater, if_neg (fun he => h (hiff.mp he))]
    rfl

namespace Sample

/-- The members of a `run.finished` event. -/
def finishedMembers : List (Text × Json) :=
  [(txt "protocolVersion", .str (txt "0.3.0")), (txt "eventId", .str (txt "a1")),
    (txt "eventType", .str (txt "run.finished")), (txt "runId", .str (txt "run")),
    (txt "sessionId", .str (txt "a")), (txt "sequence", .num (.ofInt 1)),
    (txt "occurredAt", .str (txt "2026-01-01T00:00:00Z")), (txt "payload", .obj [])]

/-- Event id and key of a line. -/
def lineKey (raw : Text) : Option (Text × Text) :=
  (readLine runtime (eventLimit options) (txt "file") 1 raw).toOption.map
    (fun r => (r.event.envelope.eventId, r.key))

theorem parse_written (v : Json) : runtime.parse (jsonText v) = .ok v := by
  have h : runtime.parse (jsonText v) = ((parseJson (jsonText v)).map Except.ok).getD (.error []) :=
    rfl
  rw [h, parseJson_jsonText]
  rfl

end Sample

theorem canonical_faithful_reordered : ∃ r q,
    readLine Sample.runtime (eventLimit Sample.options) (txt "file") 1
      (jsonText (.obj Sample.finishedMembers)) = .ok r ∧
    readLine Sample.runtime (eventLimit Sample.options) (txt "file") 1
      (jsonText (.obj Sample.finishedMembers.reverse)) = .ok q ∧
    (feedReading Sample.runtime Sample.options (txt "other") true q
      (feedReading Sample.runtime Sample.options (txt "file") true r Books.start Here.start).books
      Here.start).diagnostics =
      [lineInfo ⟨txt "other", Here.start.line, q.event.envelope.eventId⟩ .duplicateEvent
        (txt "identical duplicate ignored")] := by
  have hdistinct : (Json.obj Sample.finishedMembers).KeysDistinct ∧
      (Json.obj Sample.finishedMembers.reverse).KeysDistinct := by
    constructor
    · refine ⟨by decide, ?_⟩
      simp [Sample.finishedMembers, membersDistinct, Json.KeysDistinct]
    · refine ⟨by decide, ?_⟩
      simp [Sample.finishedMembers, membersDistinct, Json.KeysDistinct]
  have halike : Alike (.obj Sample.finishedMembers) (.obj Sample.finishedMembers.reverse) :=
    (canonText_eq_iff hdistinct.1).mp (by decide +kernel)
  have hfirst : (Sample.lineKey (jsonText (.obj Sample.finishedMembers))).map Prod.fst =
      some (txt "a1") := by
    decide +kernel
  have hsecond : (Sample.lineKey (jsonText (.obj Sample.finishedMembers.reverse))).map Prod.fst =
      some (txt "a1") := by
    decide +kernel
  rw [Sample.lineKey] at hfirst hsecond
  cases hr : readLine Sample.runtime (eventLimit Sample.options) (txt "file") 1
      (jsonText (.obj Sample.finishedMembers)) with
  | error d =>
      rw [hr] at hfirst
      cases hfirst
  | ok r =>
      cases hq : readLine Sample.runtime (eventLimit Sample.options) (txt "file") 1
          (jsonText (.obj Sample.finishedMembers.reverse)) with
      | error d =>
          rw [hq] at hsecond
          cases hsecond
      | ok q =>
          rw [hr] at hfirst
          rw [hq] at hsecond
          have hid : r.event.envelope.eventId = q.event.envelope.eventId :=
            (Option.some.inj hfirst).trans (Option.some.inj hsecond).symm
          refine ⟨r, q, rfl, rfl, ?_⟩
          have h := canonical_faithful.2.2.2 Sample.runtime Sample.options (txt "file") (txt "file")
            (txt "other") true true _ _ _ _ 1 1 r q Books.start Here.start Here.start [] [] []
            (Sample.parse_written _) (Sample.parse_written _) hdistinct.1 hdistinct.2 hr hq hid rfl
          exact congrArg Outcome.diagnostics (h.1 halike)

end QeReport

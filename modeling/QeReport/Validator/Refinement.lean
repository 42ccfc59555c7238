import QeReport.Validator.Handlers

/-! # A fresh event refines the guard

`freshEvent` adds an error exactly when `Guard` or `FileGuard` refuses the event, and otherwise
leaves bookkeeping that follows the longer log (`freshEvent_spec`). -/

namespace QeReport

open GuardedLog

/-! ### Sessions -/

section sessions
variable {m m' : JsMap Text SessionState} {l : Log} {e : AnyEvent}

theorem Log.runnerName_of_not_mem {s : Text} (hs : s ∉ l.sessions) : l.runnerName s = none := by
  have : l.find? (fun x => x.isSessionStarted && decide (x.session = s)) = none := by
    rw [List.find?_eq_none]
    intro x hx hxs
    simp only [Bool.and_eq_true, decide_eq_true_eq] at hxs
    exact hs (hxs.2 ▸ Log.session_mem hx)
  simp [Log.runnerName, this]

theorem Log.runnerName_opened (hopen : e.isSessionStarted = true) (hs : e.session ∉ l.sessions) :
    Log.runnerName (l ++ [e]) e.session = runnerNameOf e := by
  have : l.find? (fun x => x.isSessionStarted && decide (x.session = e.session)) = none := by
    rw [List.find?_eq_none]
    intro x hx hxs
    simp only [Bool.and_eq_true, decide_eq_true_eq] at hxs
    exact hs (hxs.2 ▸ Log.session_mem hx)
  simp [Log.runnerName, List.find?_append, this, hopen]

/-- The map of sessions after an event of one of them. -/
theorem TracksSessions.concat (h : TracksSessions m l)
    (hopen : e.isSessionStarted = true ↔ e.session ∉ l.sessions) {st : SessionState}
    (hst : st = ⟨decide (e.session ∈ Log.finishedSessions (l ++ [e])),
      (l.ofSession e.session).length + 1, Log.runnerName (l ++ [e]) e.session, false⟩)
    (hget : ∀ s, m'.get? s = if s = e.session then some st else m.get? s)
    (hsize : m'.size = m.size + if e.isSessionStarted then 1 else 0) :
    TracksSessions m' (l ++ [e]) where
  get := by
    intro s
    rw [hget]
    by_cases hs : s = e.session
    · subst hs
      simp [hst, Log.ofSession_concat]
    · have hs' : ¬ e.session = s := fun h' => hs h'.symm
      have hend : e.endsSession ≠ some s := fun h' => hs' (AnyEvent.endsSession_eq_some.mp h').2
      rw [if_neg hs, h.get]
      by_cases hmem : s ∈ l.sessions
      · simp [hmem, Log.ofSession_concat, hs', hend,
          Log.runnerName_concat hmem (fun h' => hopen.mp h')]
      · simp [hmem, hs']
  size := by
    rw [hsize, h.size, List.filter_append, List.length_append]
    by_cases he : e.isSessionStarted = true <;> simp [he]

end sessions

/-! ### The end of the loop body -/

/-- What taking a reading does to the fields the rules do not look at. -/
structure Enters (rt : Runtime) (options : ValidateOptions) (file : Text) (r : Reading) (line : ℕ)
    (b b' : Books) : Prop where
  seen : b'.seen = b.seen
  runId : b'.runId = b.runId
  files : b'.files = b.files
  events : b'.events = b.events
  duplicates : b'.duplicates = b.duplicates
  ignored : b'.ignored = b.ignored + if r.event.known?.isNone then 1 else 0
  accepted : b'.accepted =
    b.accepted ++ if options.retainEvents then r.event.known?.toList else []
  source : b'.source = b.source ++
    if options.retainSourceLines then
      [sourceLine rt file r line (if r.event.known?.isNone then .ignored else .accepted)]
    else []

/-- The parts of the bookkeeping the handlers read are the same. -/
structure SameFacts (b b' : Books) : Prop where
  attempts : b'.attempts = b.attempts
  executions : b'.executions = b.executions
  attachments : b'.attachments = b.attachments
  runFinished : b'.runFinished = b.runFinished
  steps : b'.steps = b.steps
  scopeFailures : b'.scopeFailures = b.scopeFailures
  failedAttempts : b'.failedAttempts = b.failedAttempts
  failedSessions : b'.failedSessions = b.failedSessions
  inconclusiveSessions : b'.inconclusiveSessions = b.inconclusiveSessions
  sessionFailures : b'.sessionFailures = b.sessionFailures

theorem Tracks.congr {rn : Text → Option Text} {b b' : Books} {l : Log} (h : Tracks rn b l)
    (hs : SameFacts b b') : Tracks rn b' l := by
  obtain ⟨h1, h2, h3, h4, h5, h6, h7, h8, h9, h10⟩ := hs
  obtain ⟨c1, c2, c3, c4, c5, c6, c7, c8⟩ := h.counts
  refine ⟨h1 ▸ h.attempts, h2 ▸ h.executions, ⟨h5 ▸ c1, h6 ▸ c2, h7 ▸ c3, h8 ▸ c4, h9 ▸ c5,
    h10 ▸ c6, ?_, ?_⟩⟩
  · rw [h3, c7]
  · rw [h4, c8]

/-- The reading was taken: the bookkeeping follows, and the state of its session is `st`. -/
structure Taken (rt : Runtime) (options : ValidateOptions) (file : Text) (rn : Text → Option Text)
    (l : Log) (r : Reading) (st : SessionState) (b : Books) (here : Here) (out : Outcome) :
    Prop where
  tracks : Tracks rn out.books (l ++ [r.event])
  session : ∀ s, out.books.sessions.get? s =
    if s = r.event.session then some st else b.sessions.get? s
  size : out.books.sessions.size = (b.sessions.set r.event.session st).size
  enters : Enters rt options file r here.line b out.books
  here : out.here = { here with closedHere := here.closedHere || r.event.isRunFinished }

section accept
variable {rt : Runtime} {options : ValidateOptions} {file : Text} {rn : Text → Option Text}
  {l : Log} {b : Books} {here : Here} {r : Reading} {session : SessionState}

theorem putSession_sameFacts (b : Books) (id : Text) (session : SessionState) :
    SameFacts b (b.putSession id session) := ⟨rfl, rfl, rfl, rfl, rfl, rfl, rfl, rfl, rfl, rfl⟩

theorem archive_sameFacts (rt : Runtime) (options : ValidateOptions) (file : Text) (r : Reading)
    (line : ℕ) (d : Disposition) (b : Books) : SameFacts b (archive rt options file r line d b) := by
  unfold archive
  split_ifs <;> exact ⟨rfl, rfl, rfl, rfl, rfl, rfl, rfl, rfl, rfl, rfl⟩

theorem archive_sessions (line : ℕ) (d : Disposition) :
    (archive rt options file r line d b).sessions = b.sessions := by
  unfold archive
  split_ifs <;> rfl

theorem handle_sessions_same {at_ : Place} {e : Event}
    (he : (AnyEvent.known e).endsSession = none) : (handle at_ e session b).2.sessions = b.sessions := by
  unfold handle
  split
  · rfl
  · rename_i p hp
    simp [AnyEvent.endsSession, AnyEvent.payload?, hp] at he
  · unfold runFinished
    split <;> rfl
  · unfold attemptStarted checkExecution
    dsimp only
    repeat' split
    all_goals rfl
  · unfold attemptFinished
    repeat' split
    all_goals rfl
  · unfold stepStarted
    dsimp only
    repeat' split
    all_goals rfl
  · unfold stepFinished
    dsimp only
    repeat' split
    all_goals rfl
  · rfl
  · rfl

/-- Only session.finished changes the map of sessions. -/
theorem handle_sessions (at_ : Place) {e : Event} (hget : b.sessions.get? e.sessionId = some session) :
    (∀ s, (handle at_ e session b).2.sessions.get? s =
      if s = e.sessionId then
        some { session with
          finished := session.finished || (AnyEvent.known e).endsSession.isSome }
      else b.sessions.get? s) ∧
    (handle at_ e session b).2.sessions.size = b.sessions.size := by
  cases he : (AnyEvent.known e).endsSession with
  | none =>
      rw [handle_sessions_same he]
      refine ⟨fun s => ?_, rfl⟩
      split_ifs with hs
      · simp [hs, hget]
      · rfl
  | some t =>
      obtain ⟨⟨p, hp⟩, -⟩ := AnyEvent.endsSession_eq_some.mp he
      have hp' : e.payload = .sessionFinished p := by simpa [AnyEvent.payload?] using hp
      have hb : (handle at_ e session b).2.sessions =
          b.sessions.set e.sessionId { session with finished := true } := by
        rw [handle, hp']
        rfl
      rw [hb]
      refine ⟨fun s => ?_, JsMap.size_set_of_some _ hget⟩
      rw [JsMap.get?_set]
      simp

theorem Enters.ledger {line : ℕ} {b₁ b₂ : Books} (h : Enters rt options file r line b b₁)
    (hl : SameLedger b₁ b₂) : Enters rt options file r line b b₂ := by
  obtain ⟨h1, h2, h3, h4, h5, h6, h7, h8⟩ := hl
  constructor
  · rw [h1, h.seen]
  · rw [h4, h.runId]
  · rw [h5, h.files]
  · rw [h6, h.events]
  · rw [h8, h.duplicates]
  · rw [h7, h.ignored]
  · rw [h2, h.accepted]
  · rw [h3, h.source]

theorem enters_known (e : Event) (key raw : Text) (line : ℕ) :
    Enters rt options file ⟨.known e, key, raw⟩ line b
      (archive rt options file ⟨.known e, key, raw⟩ line .accepted
        (if options.retainEvents then { b with accepted := b.accepted ++ [e] } else b)) := by
  by_cases h1 : options.retainSourceLines = true <;> by_cases h2 : options.retainEvents = true <;>
    constructor <;> simp [archive, h1, h2, AnyEvent.known?]

variable (rt options file here)

/-- The end of the loop body against the rules of the event switch. -/
theorem acceptEvent_spec (h : Tracks rn b l) (hl : Admissible (Guard rn) l)
    (hget : b.sessions.get? r.event.session = some session)
    (hrun : session.runnerName = rn r.event.session) (hsyn : session.synthesized = false) :
    (ErrorFree (acceptEvent rt options file r session b here).diagnostics ↔
      PayloadGuard rn l r.event) ∧
    (PayloadGuard rn l r.event →
      Taken rt options file rn l r
        { session with finished := session.finished || r.event.endsSession.isSome } b here
        (acceptEvent rt options file r session b here)) := by
  obtain ⟨event, key, raw⟩ := r
  cases event with
  | unknown u =>
      obtain ⟨hg, ht⟩ := unknown_tracks h u
      refine ⟨iff_of_true (by simp [acceptEvent, ErrorFree, lineInfo]) hg, fun _ => ?_⟩
      have hi : SameFacts b { b with ignored := b.ignored + 1 } :=
        ⟨rfl, rfl, rfl, rfl, rfl, rfl, rfl, rfl, rfl, rfl⟩
      refine ⟨(ht.congr hi).congr (archive_sameFacts _ _ _ _ _ _ _), fun s => ?_, ?_, ?_, ?_⟩
      · simp only [acceptEvent, archive_sessions]
        split_ifs with hs
        · simp [hs, hget, AnyEvent.endsSession, AnyEvent.payload?]
        · rfl
      · simp only [acceptEvent, archive_sessions]
        exact (JsMap.size_set_of_some _ hget).symm
      · simp only [acceptEvent, archive]
        constructor <;> split_ifs <;> simp_all [AnyEvent.known?]
      · simp [acceptEvent, AnyEvent.isRunFinished, AnyEvent.payload?]
  | known e =>
      let b₁ := if options.retainEvents then { b with accepted := b.accepted ++ [e] } else b
      let b₂ := archive rt options file ⟨.known e, key, raw⟩ here.line .accepted b₁
      let at_ : Place := ⟨file, here.line, e.eventId⟩
      have hb₁ : SameFacts b b₁ := by
        unfold b₁
        split_ifs <;> exact ⟨rfl, rfl, rfl, rfl, rfl, rfl, rfl, rfl, rfl, rfl⟩
      have hs₂ : b₂.sessions = b.sessions := by
        unfold b₂ b₁
        rw [archive_sessions]
        split_ifs <;> rfl
      have hget₂ : b₂.sessions.get? e.sessionId = some session := by
        rw [hs₂]
        exact hget
      have ht : Tracks rn b₂ l := (h.congr hb₁).congr (archive_sameFacts _ _ _ _ _ _ _)
      obtain ⟨herr, htr, hled⟩ := handle_handles at_ ht hl hrun hsyn
      obtain ⟨hg, hsize⟩ := handle_sessions at_ hget₂
      rw [hs₂] at hg hsize
      refine ⟨herr, fun hpg => ⟨htr hpg, hg, ?_, (enters_known e key raw here.line).ledger hled, ?_⟩⟩
      · exact hsize.trans (JsMap.size_set_of_some _ hget).symm
      · simp only [acceptEvent, AnyEvent.isRunFinished, AnyEvent.payload?]
        cases e.payload <;> rfl

theorem knownType_runFinished {e : AnyEvent} :
    e.knownType = some .runFinished ↔ e.isRunFinished = true := by
  rw [AnyEvent.isRunFinished_iff]
  cases e with
  | unknown u => simp [AnyEvent.knownType, AnyEvent.payload?]
  | known e =>
      simp only [AnyEvent.knownType, AnyEvent.payload?, Option.some.injEq]
      cases e.payload <;> simp [Payload.eventType]

theorem knownType_sessionStarted {e : AnyEvent} :
    e.knownType = some .sessionStarted ↔ e.isSessionStarted = true := by
  rw [AnyEvent.isSessionStarted_iff]
  cases e with
  | unknown u => simp [AnyEvent.knownType, AnyEvent.payload?]
  | known e =>
      simp only [AnyEvent.knownType, AnyEvent.payload?, Option.some.injEq]
      cases e.payload <;> simp [Payload.eventType]

/-- From the sequence check on, against the rules about an event of a known session. -/
theorem inSession_spec (session : SessionState) (h : Tracks rn b l) (hl : Admissible (Guard rn) l)
    (hseq : session.lastSequence = (l.ofSession r.event.session).length)
    (hfin : session.finished = decide (r.event.session ∈ l.finishedSessions))
    (hrun : session.runnerName = rn r.event.session) (hsyn : session.synthesized = false) :
    (ErrorFree (inSession rt options file r session b here).diagnostics ↔
      r.event.sequence = (l.ofSession r.event.session).length + 1 ∧
      (r.event.session ∈ l.finishedSessions → r.event.isRunFinished = true) ∧
      PayloadGuard rn l r.event) ∧
    (ErrorFree (inSession rt options file r session b here).diagnostics →
      Taken rt options file rn l r
        ⟨session.finished || r.event.endsSession.isSome, r.event.sequence, session.runnerName,
          session.synthesized⟩ b here (inSession rt options file r session b here)) := by
  have hb := putSession_sameFacts b r.event.envelope.sessionId
    (session.advance r.event.envelope.sequence)
  obtain ⟨herr, htaken⟩ := acceptEvent_spec rt options file here (h.congr hb) hl
    (JsMap.get?_set_self _ _ _) hrun hsyn
  have hrf := knownType_runFinished (e := r.event)
  have hstop : (session.finished && decide (r.event.knownType ≠ some .runFinished)) = true ↔
      ¬ (r.event.session ∈ l.finishedSessions → r.event.isRunFinished = true) := by
    rw [Bool.and_eq_true, hfin, decide_eq_true_eq, decide_eq_true_eq, ne_eq, hrf]
    tauto
  unfold inSession
  dsimp only
  split_ifs with hc
  · have hno := hstop.mp hc
    have hbad : ∀ (ds : List Diagnostic) (d : Diagnostic), d.severity = .error →
        ¬ ErrorFree (ds ++ [d]) := by
      intro ds d hd hfree
      exact hfree d (by simp) hd
    exact ⟨iff_of_false (hbad _ _ rfl) (fun h' => hno h'.2.1),
      fun hfree => absurd hfree (hbad _ _ rfl)⟩
  · have hyes : r.event.session ∈ l.finishedSessions → r.event.isRunFinished = true := by
      by_contra hno
      exact hc (hstop.mpr hno)
    rw [errorFree_append, errorFree_check_lifecycle, herr, hseq]
    have hgap : decide (r.event.envelope.sequence ≠ (l.ofSession r.event.session).length + 1) =
        false ↔ r.event.sequence = (l.ofSession r.event.session).length + 1 := by
      simp [AnyEvent.sequence]
    rw [hgap]
    refine ⟨⟨fun h' => ⟨h'.1, hyes, h'.2⟩, fun h' => ⟨h'.1, h'.2.2⟩⟩, fun h' => ?_⟩
    obtain ⟨t1, t2, t3, t4, t5⟩ := htaken h'.2
    refine ⟨t1, fun s => ?_, ?_, ?_, t5⟩
    · rw [t2 s]
      split_ifs with hs
      · rfl
      · exact JsMap.get?_set_ne _ _ hs
    · rw [t3]
      simp only [Books.putSession, JsMap.size_set, JsMap.has, AnyEvent.session,
        JsMap.get?_set_self, Option.isSome_some, if_true, Nat.add_zero]
    · exact ⟨t4.1, t4.2, t4.3, t4.4, t4.5, t4.6, t4.7, t4.8⟩

end accept

/-! ### A fresh event -/

/-- The bookkeeping follows a log that kept the rules. -/
structure Follows (options : ValidateOptions) (b : Books) (l : Log) : Prop where
  lifecycle : Lifecycle l
  tracks : Tracks l.runnerName b l
  sessions : TracksSessions b.sessions l
  runId : b.runId = l.head?.map (fun e => e.envelope.runId)
  events : b.events = l.length
  ignored : b.ignored = l.countP (fun e => e.known?.isNone)
  accepted : b.accepted = if options.retainEvents then l.filterMap AnyEvent.known? else []

theorem finishedSessions_subset {l : Log} : l.finishedSessions ⊆ l.sessions := by
  intro s hs
  obtain ⟨e, he, hes⟩ := List.mem_filterMap.mp hs
  rw [← (AnyEvent.endsSession_eq_some.mp hes).2]
  exact Log.session_mem he

theorem ofSession_of_not_mem {l : Log} {s : Text} (hs : s ∉ l.sessions) : l.ofSession s = [] := by
  rw [List.eq_nil_iff_forall_not_mem]
  intro e he
  obtain ⟨hel, hes⟩ := mem_ofClass.mp he
  exact hs (hes ▸ Log.session_mem hel)

theorem finished_concat {l : Log} {e : AnyEvent} :
    decide (e.session ∈ Log.finishedSessions (l ++ [e])) =
      (decide (e.session ∈ l.finishedSessions) || e.endsSession.isSome) := by
  have : e.endsSession = some e.session ↔ e.endsSession.isSome = true := by
    rw [Option.isSome_iff_exists]
    refine ⟨fun h => ⟨_, h⟩, ?_⟩
    rintro ⟨s, hs⟩
    rw [hs, (AnyEvent.endsSession_eq_some.mp hs).2]
  rw [Bool.eq_iff_iff]
  simp [this]

section fresh
variable {rt : Runtime} {options : ValidateOptions} {file : Text} {singleSession : Bool}
  {l : Log} {b : Books} {here : Here} {r : Reading}

/-- From the look-up of the session on, against the rules about sessions and payloads. -/
theorem withSession_spec (rt : Runtime) (options : ValidateOptions) (file : Text)
    (singleSession : Bool) (r : Reading) (here : Here) (hlife : Lifecycle l) (ht : Tracks l.runnerName b l)
    (hs : TracksSessions b.sessions l) :
    (ErrorFree (withSession rt options file singleSession r b here).diagnostics ↔
      (r.event.isSessionStarted = true ↔ r.event.session ∉ l.sessions) ∧
      r.event.sequence = (l.ofSession r.event.session).length + 1 ∧
      (r.event.session ∈ l.finishedSessions → r.event.isRunFinished = true) ∧
      PayloadGuard (Log.runnerName (l ++ [r.event])) l r.event) ∧
    (ErrorFree (withSession rt options file singleSession r b here).diagnostics →
      Tracks (Log.runnerName (l ++ [r.event]))
        (withSession rt options file singleSession r b here).books (l ++ [r.event]) ∧
      TracksSessions (withSession rt options file singleSession r b here).books.sessions
        (l ++ [r.event]) ∧
      Enters rt options file r here.line b
        (withSession rt options file singleSession r b here).books ∧
      (withSession rt options file singleSession r b here).here =
        { here with closedHere := here.closedHere || r.event.isRunFinished }) := by
  have hrn : (r.event.isSessionStarted = true → r.event.session ∉ l.sessions) →
      ∀ s ∈ l.sessions, l.runnerName s = Log.runnerName (l ++ [r.event]) s :=
    fun hop s hsl => (Log.runnerName_concat hsl hop).symm
  have hget := hs.get r.event.session
  by_cases hmem : r.event.session ∈ l.sessions
  · rw [if_pos hmem] at hget
    by_cases hst : r.event.isSessionStarted = true
    · have hout : withSession rt options file singleSession r b here =
          ⟨[lifecycle ⟨file, here.line, r.event.envelope.eventId⟩ .sessionAlreadyStarted
            (txt "session " ++ r.event.envelope.sessionId ++ txt " started twice")], b,
            if singleSession then { here with abandoned := true } else here⟩ := by
        unfold withSession
        dsimp only
        rw [show b.sessions.get? r.event.envelope.sessionId = _ from hget]
        exact if_pos (knownType_sessionStarted.mpr hst)
      rw [hout]
      refine ⟨iff_of_false not_errorFree_lifecycle ?_, fun h => absurd h not_errorFree_lifecycle⟩
      exact fun h => h.1.mp hst hmem
    · have hout : withSession rt options file singleSession r b here =
          inSession rt options file r ⟨decide (r.event.session ∈ l.finishedSessions),
            (l.ofSession r.event.session).length, l.runnerName r.event.session, false⟩ b here := by
        unfold withSession
        dsimp only
        rw [show b.sessions.get? r.event.envelope.sessionId = _ from hget]
        exact if_neg (fun h => hst (knownType_sessionStarted.mp h))
      have hrn' := hrn (fun h => absurd h hst)
      have ht' : Tracks (Log.runnerName (l ++ [r.event])) b l :=
        ⟨ht.attempts, ht.executions.congr hrn', ht.counts⟩
      have hopen : r.event.isSessionStarted = true ↔ r.event.session ∉ l.sessions :=
        iff_of_false hst (not_not_intro hmem)
      obtain ⟨herr, htaken⟩ := inSession_spec rt options file here
        ⟨decide (r.event.session ∈ l.finishedSessions), (l.ofSession r.event.session).length,
          l.runnerName r.event.session, false⟩ ht' (admissible_congr hlife hrn') rfl rfl
        (hrn' _ hmem) rfl
      rw [hout]
      refine ⟨herr.trans ⟨fun h => ⟨hopen, h⟩, fun h => h.2⟩, fun hfree => ?_⟩
      obtain ⟨t1, t2, t3, t4, t5⟩ := htaken hfree
      refine ⟨t1, hs.concat hopen ?_ t2 ?_, t4, t5⟩
      · rw [finished_concat, ← (herr.mp hfree).1, Log.runnerName_concat hmem (fun h => absurd h hst)]
      · rw [t3, JsMap.size_set_of_some _ hget]
        simp [hst]
  · rw [if_neg hmem] at hget
    by_cases hst : r.event.isSessionStarted = true
    · let session : SessionState := ⟨false, 0, runnerNameOf r.event, false⟩
      have hout : withSession rt options file singleSession r b here =
          inSession rt options file r session (b.putSession r.event.session session) here := by
        unfold withSession
        dsimp only
        rw [show b.sessions.get? r.event.envelope.sessionId = _ from hget]
        exact if_pos (knownType_sessionStarted.mpr hst)
      have hrn' := hrn (fun _ => hmem)
      have hput := putSession_sameFacts b r.event.session session
      have ht' : Tracks (Log.runnerName (l ++ [r.event])) (b.putSession r.event.session session) l :=
        Tracks.congr ⟨ht.attempts, ht.executions.congr hrn', ht.counts⟩ hput
      have hopen : r.event.isSessionStarted = true ↔ r.event.session ∉ l.sessions :=
        iff_of_true hst hmem
      have hlen : (l.ofSession r.event.session).length = 0 := by
        rw [ofSession_of_not_mem hmem, List.length_nil]
      have hfin : r.event.session ∉ l.finishedSessions := fun h => hmem (finishedSessions_subset h)
      obtain ⟨herr, htaken⟩ := inSession_spec rt options file here session ht'
        (admissible_congr hlife hrn') hlen.symm (by simp [session, hfin])
        (Log.runnerName_opened hst hmem).symm rfl
      rw [hout]
      refine ⟨herr.trans ⟨fun h => ⟨hopen, h⟩, fun h => h.2⟩, fun hfree => ?_⟩
      obtain ⟨t1, t2, t3, t4, t5⟩ := htaken hfree
      have t2' : ∀ s, (inSession rt options file r session
          (b.putSession r.event.session session) here).books.sessions.get? s =
          if s = r.event.session then
            some ⟨false || r.event.endsSession.isSome, r.event.sequence, runnerNameOf r.event, false⟩
          else b.sessions.get? s := by
        intro s
        rw [t2]
        split_ifs with hse
        · rfl
        · exact JsMap.get?_set_ne _ _ hse
      refine ⟨t1, hs.concat hopen ?_ t2' ?_, ?_, t5⟩
      · rw [finished_concat, ← (herr.mp hfree).1, Log.runnerName_opened hst hmem]
        simp [hfin]
      · rw [t3]
        simp [Books.putSession, JsMap.size_set, JsMap.has, hget, hst]
      · exact ⟨t4.1, t4.2, t4.3, t4.4, t4.5, t4.6, t4.7, t4.8⟩
    · have hbad : ¬ ErrorFree (withSession rt options file singleSession r b here).diagnostics := by
        unfold withSession
        dsimp only
        rw [show b.sessions.get? r.event.envelope.sessionId = _ from hget]
        rw [if_neg (fun h => hst (knownType_sessionStarted.mp h))]
        exact fun hfree => hfree _ List.mem_cons_self rfl
      exact ⟨iff_of_false hbad (fun h => hst (h.1.mpr hmem)), fun h => absurd h hbad⟩

/-- The local variables of a `feed` after the fresh events `q` of its file. -/
structure HereFollows (singleSession : Bool) (here : Here) (q : Log) : Prop where
  closed : here.closedHere = q.any AnyEvent.isRunFinished
  fileSession : here.fileSession =
    if singleSession then q.head?.map AnyEvent.session else none
  abandoned : here.abandoned = false
  one : singleSession = true → ∀ x ∈ q, ∀ y ∈ q, x.session = y.session

/-- What taking a fresh reading leaves behind. -/
structure TakenFresh (rt : Runtime) (options : ValidateOptions) (file : Text)
    (singleSession : Bool) (l q : Log) (r : Reading) (b : Books) (here : Here) (out : Outcome) :
    Prop where
  follows : Follows options out.books (l ++ [r.event])
  hereFollows : HereFollows singleSession out.here (q ++ [r.event])
  line : out.here.line = here.line
  seen : out.books.seen = b.seen.set r.event.envelope.eventId r.key
  files : out.books.files = b.files
  duplicates : out.books.duplicates = b.duplicates
  source : out.books.source = b.source ++
    if options.retainSourceLines then
      [sourceLine rt file r here.line (if r.event.known?.isNone then .ignored else .accepted)]
    else []

/-- The run id rule, and what it leaves. -/
theorem noteRunId_spec (at_ : Place) (e : AnyEvent) {b : Books}
    (hrun : b.runId = l.head?.map (fun x => x.envelope.runId))
    (hall : ∀ x ∈ l, ∀ y ∈ l, x.envelope.runId = y.envelope.runId) :
    (ErrorFree (noteRunId at_ e.envelope b).1 ↔ ∀ x ∈ l, x.envelope.runId = e.envelope.runId) ∧
    (ErrorFree (noteRunId at_ e.envelope b).1 → (noteRunId at_ e.envelope b).2 =
      { b with runId := (l ++ [e]).head?.map (fun x => x.envelope.runId) }) := by
  unfold noteRunId
  cases l with
  | nil =>
      rw [List.head?_nil, Option.map_none] at hrun
      simp [hrun, errorFree_nil]
  | cons x l =>
      rw [List.head?_cons, Option.map_some] at hrun
      simp only [hrun, errorFree_check_lifecycle]
      refine ⟨⟨fun h y hy => ?_, fun h => ?_⟩, fun _ => ?_⟩
      · rw [hall y hy x List.mem_cons_self]
        simpa using h
      · simpa using h x List.mem_cons_self
      · rw [List.cons_append, List.head?_cons, Option.map_some, ← hrun]

theorem mixedWith_eq_none {q : Log} (e : AnyEvent) (hq : HereFollows singleSession here q) :
    mixedWith singleSession e.envelope here = none ↔
      (singleSession = true → ∀ x ∈ q, x.session = e.session) := by
  unfold mixedWith
  cases singleSession with
  | false => simp
  | true =>
      have hf := hq.fileSession
      simp only [if_true] at hf
      cases q with
      | nil =>
          rw [List.head?_nil, Option.map_none] at hf
          simp [hf]
      | cons x q =>
          rw [List.head?_cons, Option.map_some] at hf
          have hone := hq.one rfl
          simp only [if_true, hf, Option.filter_some, forall_const]
          constructor
          · intro h y hy
            rw [hone y hy x List.mem_cons_self]
            by_contra hne
            have hd : decide (x.session ≠ e.envelope.sessionId) = true := decide_eq_true hne
            rw [if_pos hd] at h
            cases h
          · intro h
            have hd : ¬ decide (x.session ≠ e.envelope.sessionId) = true := by
              rw [decide_eq_true_eq, not_not]
              exact h x List.mem_cons_self
            rw [if_neg hd]

theorem enterFile_follows {q : Log} {e : AnyEvent} (hq : HereFollows singleSession here q)
    (hone : singleSession = true → ∀ x ∈ q, x.session = e.session) :
    HereFollows singleSession
      { enterFile singleSession e.envelope here with
        closedHere := (enterFile singleSession e.envelope here).closedHere || e.isRunFinished }
      (q ++ [e]) := by
  have hclosed : (enterFile singleSession e.envelope here).closedHere = here.closedHere := by
    unfold enterFile
    split_ifs <;> rfl
  refine ⟨?_, ?_, ?_, fun hs x hx y hy => ?_⟩
  · simp [hclosed, hq.closed]
  · have hf := hq.fileSession
    cases singleSession with
    | false => simpa [enterFile] using hf
    | true =>
        simp only [if_true] at hf ⊢
        cases q with
        | nil =>
            rw [List.head?_nil, Option.map_none] at hf
            simp [enterFile, hf, AnyEvent.session]
        | cons x q =>
            rw [List.head?_cons, Option.map_some] at hf
            simp [enterFile, hf]
  · unfold enterFile
    split_ifs <;> exact hq.abandoned
  · have hall : ∀ z ∈ q ++ [e], z.session = e.session := by
      intro z hz
      rcases List.mem_append.mp hz with hz | hz
      · exact hone hs z hz
      · rw [List.mem_singleton.mp hz]
    rw [hall x hx, hall y hy]

/-- A fresh event is taken without an error exactly when both guards admit it. -/
theorem freshEvent_spec (rt : Runtime) (file : Text) (r : Reading) {q : Log} (h : Follows options b l) (hq : HereFollows singleSession here q) :
    (ErrorFree (freshEvent rt options file singleSession r b here).diagnostics ↔
      Guard (Log.runnerName (l ++ [r.event])) l r.event ∧ FileGuard singleSession q r.event) ∧
    (ErrorFree (freshEvent rt options file singleSession r b here).diagnostics →
      TakenFresh rt options file singleSession l q r b here
        (freshEvent rt options file singleSession r b here)) := by
  obtain ⟨hrid, hrid'⟩ := noteRunId_spec ⟨file, here.line, r.event.envelope.eventId⟩ r.event
    (show (noteEvent r b).runId = _ from h.runId) (fun x hx y hy => runIds_agree h.lifecycle hx hy)
  have hmix := mixedWith_eq_none r.event hq
  unfold freshEvent
  dsimp only
  generalize noteRunId ⟨file, here.line, r.event.envelope.eventId⟩ r.event.envelope
    (noteEvent r b) = note at hrid hrid' ⊢
  obtain ⟨mismatch, b₁⟩ := note
  dsimp only at hrid hrid'
  cases hm : mixedWith singleSession r.event.envelope here with
  | some s =>
      have hbad : ∀ (ds : List Diagnostic) (d : Diagnostic), d.severity = .error →
          ¬ ErrorFree (ds ++ [d]) := fun ds d hd hfree => hfree d (by simp) hd
      refine ⟨iff_of_false (hbad _ _ rfl) (fun hg => ?_), fun hfree => absurd hfree (hbad _ _ rfl)⟩
      rw [hmix.mpr hg.2.session] at hm
      cases hm
  | none =>
      have hone := hmix.mp hm
      dsimp only
      by_cases hid : ErrorFree mismatch
      · have hb := hrid' hid
        have hfacts : SameFacts b b₁ := by
          rw [hb]
          exact ⟨rfl, rfl, rfl, rfl, rfl, rfl, rfl, rfl, rfl, rfl⟩
        have hsess : TracksSessions b₁.sessions l := by
          rw [hb]
          exact h.sessions
        obtain ⟨herr, htaken⟩ := withSession_spec rt options file singleSession r
          (enterFile singleSession r.event.envelope here) h.lifecycle (h.tracks.congr hfacts) hsess
        have hclosed : here.closedHere = false ↔ ∀ x ∈ q, x.isRunFinished = false := by
          rw [hq.closed]
          simp
        rw [errorFree_append, errorFree_append, errorFree_check_lifecycle, hrid, hclosed]
        refine ⟨?_, fun hfree => ?_⟩
        · rw [herr]
          constructor
          · rintro ⟨⟨h1, h2⟩, h3, h4, h5, h6⟩
            exact ⟨⟨h1, h3, h4, h5, h6⟩, ⟨hone, h2⟩⟩
          · rintro ⟨⟨h1, h3, h4, h5, h6⟩, ⟨-, h2⟩⟩
            exact ⟨⟨h1, h2⟩, h3, h4, h5, h6⟩
        · obtain ⟨⟨h1, h2⟩, hfree'⟩ := hfree
          obtain ⟨t1, t2, t3, t4⟩ := htaken hfree'
          obtain ⟨g1, g2, g3, g4⟩ := herr.mp hfree'
          have hrn : ∀ s ∈ l.sessions, l.runnerName s = Log.runnerName (l ++ [r.event]) s :=
            fun s hs => (Log.runnerName_concat hs g1.mp).symm
          have hlife : Lifecycle (l ++ [r.event]) := admissible_concat.mpr
            ⟨admissible_congr h.lifecycle hrn, h1, g1, g2, g3, g4⟩
          have hline : (enterFile singleSession r.event.envelope here).line = here.line := by
            unfold enterFile
            split_ifs <;> rfl
          rw [hline] at t3
          have hfiles : b₁.files = b.files := by rw [hb]; rfl
          have hdup : b₁.duplicates = b.duplicates := by rw [hb]; rfl
          have hsource : b₁.source = b.source := by rw [hb]; rfl
          refine ⟨⟨hlife, t1, t2, t3.runId.trans (congrArg Books.runId hb), ?_, ?_, ?_⟩, ?_, ?_,
            t3.seen.trans (congrArg Books.seen hb), t3.files.trans hfiles, t3.duplicates.trans hdup,
            hsource ▸ t3.source⟩
          · rw [t3.events, congrArg Books.events hb, List.length_append]
            exact congrArg (· + 1) h.events
          · rw [t3.ignored, congrArg Books.ignored hb, List.countP_append, List.countP_singleton]
            exact congrArg (· + _) h.ignored
          · rw [t3.accepted, congrArg Books.accepted hb, List.filterMap_append]
            change b.accepted ++ _ = _
            rw [h.accepted]
            split_ifs
            · cases hk : r.event.known? <;> simp [hk]
            · rfl
          · rw [t4]
            exact enterFile_follows hq hone
          · rw [t4]
            exact hline
      · refine ⟨iff_of_false ?_ ?_, ?_⟩
        · rw [errorFree_append, errorFree_append]
          exact fun hfree => hid hfree.1.1
        · exact fun hg => hid (hrid.mpr hg.1.runId)
        · rw [errorFree_append, errorFree_append]
          exact fun hfree => absurd hfree.1.1 hid

end fresh

end QeReport

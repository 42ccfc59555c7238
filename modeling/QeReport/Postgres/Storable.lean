import QeReport.Postgres.QueryIndex
import QeReport.Postgres.Replay

/-! # Texts that a database column can hold

A PostgreSQL text value cannot hold U+0000, and a statement that binds one throws.  What the codec
reads by a pattern never holds it, nor does a line that the parser accepts.  The names a producer
chooses freely may: the archive of a valid run, its projection and its index can always be built,
and all their texts can be bound exactly when the names under which its histories are kept hold no
U+0000 (`texts_storable_iff`). -/

namespace QeReport

/-! ### Bound values -/

/-- A text without U+0000. -/
def Storable (t : Text) : Prop := (0 : CodeUnit) ∉ t

instance : DecidablePred Storable := fun t => inferInstanceAs (Decidable ((0 : CodeUnit) ∉ t))

def Disposition.text : Disposition → Text
  | .accepted => txt "accepted"
  | .ignored => txt "ignored"
  | .duplicate => txt "duplicate"

/-- The texts among the values that `insertLines` binds for one line. -/
def lineTexts (projectId runId : Text) (line : ArchivedLine) : List Text :=
  [projectId, runId, line.eventId, line.sessionId, line.eventType, line.protocolVersion,
    line.canonicalSha256, line.disposition.text, line.rawLine, line.sourceFile]

/-- The texts that `insertLines` binds. -/
def insertLinesTexts (projectId runId : Text) (lines : List ArchivedLine) : List Text :=
  lines.flatMap (lineTexts projectId runId)

/-- The texts among the values that `replaceQueryIndex` binds for one occurrence. -/
def occurrenceTexts (projectId runId : Text) (row : OccurrenceIndexRow) : List Text :=
  let o := row.occurrence
  [projectId, runId, o.executionId, o.runnerName, o.historicalId, o.historicalIdStability.text,
    o.occurredAt] ++ o.sessionIds ++ (o.finalStatus.map Status.text).toList ++
    (o.expectedStatus.map ExpectedStatus.text).toList ++ [o.runVerdict.text] ++
    (o.sessionStatus.map SessionStatus.text).toList

/-- The texts that `replaceQueryIndex` binds. -/
def replaceQueryIndexTexts (projectId runId : Text) (derived : DerivedQueryIndex)
    (sourceFingerprint : Text) : List Text :=
  [projectId, runId, sourceFingerprint, derived.run.verdict.text] ++
    derived.occurrences.flatMap (occurrenceTexts projectId runId)

/-! ### Patterns -/

theorem storable_of_all {p : CodeUnit → Bool} {t : Text} (hzero : p 0 = false)
    (h : t.all p = true) : Storable t := by
  intro hmem
  have htrue := List.all_eq_true.mp h 0 hmem
  rw [hzero] at htrue
  cases htrue

theorem storable_append {a b : Text} : Storable (a ++ b) ↔ Storable a ∧ Storable b := by
  simp [Storable]

theorem storable_cons {u : CodeUnit} {t : Text} : Storable (u :: t) ↔ u ≠ 0 ∧ Storable t := by
  rw [Storable, Storable, List.mem_cons, not_or, eq_comm]

theorem storable_identifier {t : Text} (h : isIdentifier t = true) : Storable t := by
  rw [isIdentifier, Bool.and_eq_true] at h
  exact storable_of_all (by decide) h.2

theorem storable_digits {t : Text} (h : isDigits t = true) : Storable t := by
  rw [isDigits, Bool.and_eq_true] at h
  exact storable_of_all (by decide) h.2

theorem storable_word {t : Text} (h : isWord t = true) : Storable t := by
  cases t with
  | nil => cases h
  | cons u t =>
      rw [isWord, Bool.and_eq_true] at h
      refine storable_of_all (p := isAlphaNumeric) (by decide) ?_
      rw [List.all_cons, h.2, isAlphaNumeric, h.1]
      rfl

/-- A text is storable when its dotted parts are. -/
theorem storable_of_parts {t : Text} (h : ∀ part ∈ t.splitOn (unit '.'), Storable part) :
    Storable t := by
  have hjoin : ∀ parts : List Text, (∀ part ∈ parts, Storable part) →
      Storable ([unit '.'].intercalate parts) := by
    intro parts
    induction parts with
    | nil => exact fun _ => List.not_mem_nil
    | cons a parts ih =>
        intro hparts
        obtain ⟨ha, hrest⟩ := List.forall_mem_cons.mp hparts
        cases parts with
        | nil => simpa [List.intercalate] using ha
        | cons b parts =>
            rw [List.intercalate_cons_cons, storable_append, storable_append]
            exact ⟨⟨ha, by decide⟩, ih hrest⟩
  have hsplit : [unit '.'].intercalate (t.splitOn (unit '.')) = t := List.intercalate_splitOn _
  rw [← hsplit]
  exact hjoin _ h

theorem storable_eventType {t : Text} (h : isEventTypeName t = true) : Storable t := by
  rw [isEventTypeName, Bool.and_eq_true, List.all_eq_true] at h
  exact storable_of_parts (fun part hpart => storable_word (h.2 part hpart))

theorem storable_version {t : Text} (h : readVersion t = .ok ()) : Storable t := by
  have hnumber : ∀ part, isVersionNumber part = true → Storable part := by
    intro part hpart
    rw [isVersionNumber, Bool.and_eq_true] at hpart
    exact storable_digits hpart.1
  unfold readVersion at h
  split at h
  · cases h
  · rename_i v hv
    unfold parseProtocolVersion at hv
    split at hv
    · rename_i major minor patch hparts
      split_ifs at hv with hnumbers
      simp only [Bool.and_eq_true] at hnumbers
      refine storable_of_parts (fun part hpart => ?_)
      rw [hparts] at hpart
      simp only [List.mem_cons, List.not_mem_nil, or_false] at hpart
      rcases hpart with rfl | rfl | rfl
      · exact hnumber _ hnumbers.1.1
      · exact hnumber _ hnumbers.1.2
      · exact hnumber _ hnumbers.2
    · cases hv

/-- A reader takes storable texts off the front. -/
def EatsStorable (f : Text → Option Text) : Prop :=
  ∀ t rest, f t = some rest → Storable rest → Storable t

theorem eatsStorable_digits (n : ℕ) : EatsStorable (eatDigits n) := by
  induction n with
  | zero =>
      intro t rest h hrest
      cases h
      exact hrest
  | succ n ih =>
      intro t rest h hrest
      cases t with
      | nil => cases h
      | cons u t =>
          rw [eatDigits] at h
          split_ifs at h with hu
          have ht := ih t rest h hrest
          refine storable_cons.mpr ⟨?_, ht⟩
          rintro rfl
          exact absurd hu (by decide)

theorem eatsStorable_char {c : Char} (hc : unit c ≠ 0) : EatsStorable (eatChar c) := by
  intro t rest h hrest
  cases t with
  | nil => cases h
  | cons u t =>
      rw [eatChar] at h
      split_ifs at h with hu
      cases h
      refine storable_cons.mpr ⟨?_, hrest⟩
      rw [beq_iff_eq.mp hu]
      exact hc

theorem EatsStorable.bind {f g : Text → Option Text} (hf : EatsStorable f) (hg : EatsStorable g) :
    EatsStorable (fun t => f t >>= g) := by
  intro t rest h hrest
  obtain ⟨s, hs, hgs⟩ := Option.bind_eq_some_iff.mp h
  exact hf t s hs (hg s rest hgs hrest)

theorem eatsStorable_fraction : EatsStorable eatFraction := by
  intro t rest h hrest
  unfold eatFraction at h
  split at h
  · cases h
    exact hrest
  · rename_i s hs
    dsimp only at h
    split_ifs at h
    cases h
    refine eatsStorable_char (by decide) t s hs ?_
    rw [← List.take_append_drop (s.takeWhile isDigit).length s, storable_append,
      ← List.prefix_iff_eq_take.mp (List.takeWhile_prefix isDigit)]
    refine ⟨storable_of_all (p := isDigit) (by decide) ?_, hrest⟩
    exact List.all_eq_true.mpr (fun u hu => List.mem_takeWhile_imp hu)

theorem eatsStorable_zone : EatsStorable eatZone := by
  intro t rest h hrest
  unfold eatZone at h
  split at h
  · rename_i s hs
    cases h
    exact eatsStorable_char (by decide) t _ hs hrest
  · obtain ⟨s, hs, h⟩ := Option.bind_eq_some_iff.mp h
    have htail : EatsStorable (fun t => eatDigits 2 t >>= fun t => eatChar ':' t >>= eatDigits 2) :=
      (eatsStorable_digits 2).bind ((eatsStorable_char (by decide)).bind (eatsStorable_digits 2))
    have hsok := htail s rest h hrest
    rcases Option.or_eq_some_iff.mp hs with hs | ⟨-, hs⟩
    · exact eatsStorable_char (by decide) t s hs hsok
    · exact eatsStorable_char (by decide) t s hs hsok

theorem storable_timestamp {t : Text} (h : isTimestamp t = true) : Storable t := by
  have heats : EatsStorable (fun t => do
      let t ← eatChar '-' (← eatDigits 4 t)
      let t ← eatChar '-' (← eatDigits 2 t)
      let t ← eatChar 'T' (← eatDigits 2 t)
      let t ← eatChar ':' (← eatDigits 2 t)
      let t ← eatChar ':' (← eatDigits 2 t)
      let t ← eatFraction (← eatDigits 2 t)
      eatZone t) := by
    have hchar : ∀ c : Char, unit c ≠ 0 → ∀ n, ∀ f, EatsStorable f → EatsStorable (fun t =>
        eatDigits n t >>= fun t => eatChar c t >>= f) :=
      fun c hc n f hf => (eatsStorable_digits n).bind ((eatsStorable_char hc).bind hf)
    exact hchar '-' (by decide) 4 _ (hchar '-' (by decide) 2 _ (hchar 'T' (by decide) 2 _
      (hchar ':' (by decide) 2 _ (hchar ':' (by decide) 2 _
        ((eatsStorable_digits 2).bind (eatsStorable_fraction.bind eatsStorable_zone))))))
  exact heats t [] (of_decide_eq_true h) List.not_mem_nil

/-! ### What the codec read -/

/-- The texts of an event that a pattern of the codec constrains. -/
structure EnvelopeStorable (e : AnyEvent) : Prop where
  protocolVersion : Storable e.envelope.protocolVersion
  eventType : Storable e.eventType
  eventId : Storable e.envelope.eventId
  runId : Storable e.envelope.runId
  sessionId : Storable e.envelope.sessionId
  occurredAt : Storable e.envelope.occurredAt
  executionId : ∀ p, e.payload? = some (.attemptStarted p) → Storable p.test.executionId

theorem readAttemptStarted_storable {o : Obj} {at_ : Text} {p : AttemptStartedPayload}
    (h : readAttemptStarted o at_ = .ok p) : Storable p.test.executionId := by
  obtain ⟨n, -, h⟩ := bind_eq_ok.mp h
  split_ifs at h
  · cases h
  · obtain ⟨raw, -, h⟩ := bind_eq_ok.mp h
    obtain ⟨raw, -, h⟩ := bind_eq_ok.mp h
    obtain ⟨attemptId, -, h⟩ := bind_eq_ok.mp h
    obtain ⟨test, htest, h⟩ := bind_eq_ok.mp h
    cases h
    obtain ⟨word, -, htest⟩ := bind_eq_ok.mp htest
    obtain ⟨stability, -, htest⟩ := bind_eq_ok.mp htest
    obtain ⟨historicalId, -, htest⟩ := bind_eq_ok.mp htest
    split_ifs at htest
    · cases htest
    · cases htest
    · obtain ⟨rawPath, -, htest⟩ := bind_eq_ok.mp htest
      obtain ⟨path, -, htest⟩ := bind_eq_ok.mp htest
      obtain ⟨executionId, hid, htest⟩ := bind_eq_ok.mp htest
      obtain ⟨displayName, -, htest⟩ := bind_eq_ok.mp htest
      obtain ⟨location, -, htest⟩ := bind_eq_ok.mp htest
      obtain ⟨tags, -, htest⟩ := bind_eq_ok.mp htest
      obtain ⟨labels, -, htest⟩ := bind_eq_ok.mp htest
      cases htest
      exact storable_identifier (identifier_eq_ok hid).2

/-- The checks of the envelope. -/
theorem readEnvelope_storable {root : Obj} {envelope : Envelope} {t : Text}
    (h : readEnvelope root = .ok (envelope, t)) :
    Storable envelope.protocolVersion ∧ Storable t ∧ Storable envelope.eventId ∧
      Storable envelope.runId ∧ Storable envelope.sessionId ∧ Storable envelope.occurredAt := by
  obtain ⟨version, -, h⟩ := bind_eq_ok.mp h
  obtain ⟨⟨⟩, hversion, h⟩ := bind_eq_ok.mp h
  obtain ⟨eventType, htype, h⟩ := bind_eq_ok.mp h
  obtain ⟨eventId, hid, h⟩ := bind_eq_ok.mp h
  obtain ⟨runId, hrun, h⟩ := bind_eq_ok.mp h
  obtain ⟨sessionId, hsession, h⟩ := bind_eq_ok.mp h
  obtain ⟨sequence, -, h⟩ := bind_eq_ok.mp h
  obtain ⟨occurredAt, htime, h⟩ := bind_eq_ok.mp h
  obtain ⟨ignorable, -, h⟩ := bind_eq_ok.mp h
  cases h
  refine ⟨storable_version hversion, ?_, storable_identifier (identifier_eq_ok hid).2,
    storable_identifier (identifier_eq_ok hrun).2,
    storable_identifier (identifier_eq_ok hsession).2, ?_⟩
  · obtain ⟨raw, -, htype⟩ := bind_eq_ok.mp htype
    split_ifs at htype with hname
    · cases htype
      exact storable_eventType hname
    · cases htype
  · obtain ⟨raw, -, htime⟩ := bind_eq_ok.mp htime
    split_ifs at htime with hstamp
    · cases htime
      exact storable_timestamp hstamp
    · cases htime

theorem readPayload_attemptStarted {t : EventType} {o : Obj} {p : AttemptStartedPayload}
    (h : readPayload t o = .ok (.attemptStarted p)) : Storable p.test.executionId := by
  cases t with
  | attemptStarted =>
      obtain ⟨q, hq, hqp⟩ := map_eq_ok.mp h
      cases hqp
      exact readAttemptStarted_storable hq
  | runFinished => cases h
  | _ =>
      obtain ⟨q, -, hqp⟩ := map_eq_ok.mp h
      cases hqp

theorem eventFromObject_storable {v : Json} {e : AnyEvent} (h : eventFromObject v = .ok e) :
    EnvelopeStorable e := by
  cases v with
  | obj root =>
      obtain ⟨⟨envelope, t⟩, henv, h⟩ := bind_eq_ok.mp h
      obtain ⟨hversion, htype, hid, hrun, hsession, htime⟩ := readEnvelope_storable henv
      simp only at h
      split at h
      · split at h
        · rename_i payload _ _ type _
          cases hp : readPayload type payload with
          | error err =>
              rw [hp] at h
              cases h
          | ok p =>
              rw [hp] at h
              cases h
              refine ⟨hversion, ?_, hid, hrun, hsession, htime, ?_⟩
              · change Storable p.eventType.text
                generalize p.eventType = type
                cases type <;> decide
              · intro q hq
                cases Option.some.inj hq
                exact readPayload_attemptStarted hp
        · split_ifs at h
          · cases h
            exact ⟨hversion, htype, hid, hrun, hsession, htime, fun p hp => nomatch hp⟩
      · cases h
  | null => cases h
  | bool b => cases h
  | num n => cases h
  | str s => cases h
  | arr items => cases h

/-! ### Source lines -/

section lines
variable {rt : Runtime} {fs : FileSystem}

theorem mem_sourceAfter {done ls : List Line} {t : ValidatedSourceLine}
    (h : t ∈ sourceAfter rt done ls) :
    ∃ x ∈ ls, ∃ d, t = sourceLine rt x.file x.toReading x.line d := by
  induction ls generalizing done with
  | nil => cases h
  | cons x ls ih =>
      rcases List.mem_cons.mp h with rfl | h
      · exact ⟨x, List.mem_cons_self, _, rfl⟩
      · obtain ⟨y, hy, hd⟩ := ih h
        exact ⟨y, List.mem_cons_of_mem _ hy, hd⟩

theorem linesOf_file {limit : ℕ} {file : Text} {n : ℕ} {raws : List Text} {x : Line}
    (h : x ∈ linesOf rt limit file n raws) : x.file = file := by
  induction raws generalizing n with
  | nil => cases h
  | cons raw raws ih =>
      rw [linesOf] at h
      split_ifs at h
      · exact ih h
      · split at h
        · exact ih h
        · rcases List.mem_cons.mp h with rfl | h
          · rfl
          · exact ih h

/-- The file of a call of a run directory could be opened. -/
theorem directoryCalls_opened {dir : Text} {c : FeedCall} (h : c ∈ directoryCalls fs dir) :
    ∃ opened, fs.openRegular c.file = .ok opened := by
  obtain ⟨f, -, hf⟩ := List.mem_filterMap.mp h
  cases hread : readEventFile fs f with
  | fed call =>
      rw [hread] at hf
      cases hf
      unfold readEventFile at hread
      split at hread
      · cases hread
      · cases hread
      · cases hread
      · cases hread
      · split at hread
        · cases hread
        · cases hread
        · rename_i opened hopened
          cases hread
          exact ⟨opened, hopened⟩
  | refused d =>
      rw [hread] at hf
      cases hf
  | gone =>
      rw [hread] at hf
      cases hf

/-- What a database relies on: the parser refuses a line with a raw U+0000, no file has one in its
path, and digests are written in hexadecimal. -/
structure SystemTexts (rt : Runtime) (fs : FileSystem) : Prop where
  parse : ∀ raw v, rt.parse raw = .ok v → Storable raw
  path : ∀ path opened, fs.openRegular path = .ok opened → Storable path
  sha256 : ∀ bytes, Storable (rt.sha256 bytes)

variable (hsystem : SystemTexts rt fs) {options : ValidateOptions} {dir : Text}
include hsystem

/-- A line of a run directory was read from a storable line of a file with a storable path. -/
theorem storable_line {x : Line} (hx : x ∈ allLines rt options (directoryCalls fs dir)) :
    Storable x.raw ∧ Storable x.file ∧ EnvelopeStorable x.event := by
  obtain ⟨c, hc, hxc⟩ := mem_allLines.mp hx
  obtain ⟨-, v, hparse, hevent, -⟩ := reading_eq_some (mem_callLines hxc)
  obtain ⟨opened, hopened⟩ := directoryCalls_opened hc
  refine ⟨hsystem.parse _ v hparse, ?_, eventFromObject_storable hevent⟩
  rw [linesOf_file hxc]
  exact hsystem.path _ opened hopened

/-- Every text that `insertLines` binds can be stored. -/
theorem storable_insertLines {projectId runId : Text} (hproject : Storable projectId)
    (hrun : Storable runId) {t : Text}
    (ht : t ∈ insertLinesTexts projectId runId
      (orderLines (sourceAfter rt [] (allLines rt options (directoryCalls fs dir))))) :
    Storable t := by
  obtain ⟨line, hline, ht⟩ := List.mem_flatMap.mp ht
  have hstored := List.mem_map_of_mem (f := fun t : ArchivedLine => t.toValidatedSourceLine) hline
  rw [orderLines_lines, (storedLines_perm _).mem_iff] at hstored
  obtain ⟨x, hx, d, heq⟩ := mem_sourceAfter hstored
  obtain ⟨hraw, hfile, henvelope⟩ := storable_line hsystem hx
  have htexts : lineTexts projectId runId line =
      [projectId, runId, x.event.envelope.eventId, x.event.envelope.sessionId, x.event.eventType,
        x.event.envelope.protocolVersion, rt.sha256 (utf8 x.key), d.text, x.raw, x.file] := by
    rw [lineTexts, heq]
    rfl
  rw [htexts] at ht
  simp only [List.mem_cons, List.not_mem_nil, or_false] at ht
  rcases ht with rfl | rfl | rfl | rfl | rfl | rfl | rfl | rfl | rfl | rfl
  · exact hproject
  · exact hrun
  · exact henvelope.eventId
  · exact henvelope.sessionId
  · exact henvelope.eventType
  · exact henvelope.protocolVersion
  · exact hsystem.sha256 _
  · cases d <;> decide
  · exact hraw
  · exact hfile

end lines

/-! ### The index -/

/-- The payload of an attempt.started event. -/
def AnyEvent.attemptStarted? : AnyEvent → Option AttemptStartedPayload
  | .known ⟨_, .attemptStarted p⟩ => some p
  | _ => none

theorem AnyEvent.attemptStarted?_eq_some {x : AnyEvent} {p : AttemptStartedPayload} :
    x.attemptStarted? = some p ↔ ∃ e : Event, x = .known e ∧ e.payload = .attemptStarted p := by
  constructor
  · intro h
    unfold AnyEvent.attemptStarted? at h
    split at h
    · cases h
      exact ⟨_, rfl, rfl⟩
    · cases h
  · rintro ⟨⟨envelope, payload⟩, rfl, rfl⟩
    rfl

/-- The names under which the histories of a run are kept hold no U+0000: the historical id of
each test that starts in a session with a runner, and the name of that runner. -/
def NamesStorable (l : Log) : Prop :=
  ∀ x ∈ l, ∀ p ∈ x.attemptStarted?, ∀ historicalId ∈ p.test.historicalId,
    ∀ runnerName ∈ l.runnerName x.session, Storable historicalId ∧ Storable runnerName

instance : DecidablePred NamesStorable := fun l => inferInstanceAs (Decidable (
  ∀ x ∈ l, ∀ p ∈ x.attemptStarted?, ∀ historicalId ∈ p.test.historicalId,
    ∀ runnerName ∈ l.runnerName x.session, Storable historicalId ∧ Storable runnerName))

/-- Every attempt starts at a timestamp that history order can place. -/
def StartsPlaced (l : Log) : Prop :=
  ∀ x ∈ l, ∀ _p ∈ x.attemptStarted?, (historyInstant x.envelope.occurredAt).isOk = true

instance : DecidablePred StartsPlaced := fun l => inferInstanceAs (Decidable (
  ∀ x ∈ l, ∀ _p ∈ x.attemptStarted?, (historyInstant x.envelope.occurredAt).isOk = true))

/-- The texts of an occurrence, apart from its two names. -/
structure OccurrenceStorable (o : ExecutionOccurrence) : Prop where
  executionId : Storable o.executionId
  occurredAt : Storable o.occurredAt
  sessionIds : ∀ s ∈ o.sessionIds, Storable s

theorem storable_occurrence_iff {projectId runId : Text} (hproject : Storable projectId)
    (hrun : Storable runId) {row : OccurrenceIndexRow} (h : OccurrenceStorable row.occurrence) :
    (∀ t ∈ occurrenceTexts projectId runId row, Storable t) ↔
      Storable row.occurrence.historicalId ∧ Storable row.occurrence.runnerName := by
  have hstability : Storable row.occurrence.historicalIdStability.text := by
    cases row.occurrence.historicalIdStability <;> decide
  have hverdict : Storable row.occurrence.runVerdict.text := by
    cases row.occurrence.runVerdict <;> decide
  have hfinal : ∀ t ∈ row.occurrence.finalStatus.map Status.text, Storable t := by
    rcases row.occurrence.finalStatus with _ | (_ | _ | _ | _) <;> simp <;> decide
  have hexpected : ∀ t ∈ row.occurrence.expectedStatus.map ExpectedStatus.text, Storable t := by
    rcases row.occurrence.expectedStatus with _ | (_ | _ | _) <;> simp <;> decide
  have hsession : ∀ t ∈ row.occurrence.sessionStatus.map SessionStatus.text, Storable t := by
    rcases row.occurrence.sessionStatus with _ | (_ | _ | _) <;> simp <;> decide
  constructor
  · intro hall
    constructor
    · exact hall _ (by simp [occurrenceTexts])
    · exact hall _ (by simp [occurrenceTexts])
  · rintro ⟨hhistorical, hrunner⟩ t ht
    simp only [occurrenceTexts, List.mem_append, List.mem_cons, List.not_mem_nil, or_false,
      Option.mem_toList] at ht
    rcases ht with ((((((rfl | rfl | rfl | rfl | rfl | rfl | rfl) | ht) | ht) | ht) | rfl) | ht)
    · exact hproject
    · exact hrun
    · exact h.executionId
    · exact hrunner
    · exact hhistorical
    · exact hstability
    · exact h.occurredAt
    · exact h.sessionIds t ht
    · exact hfinal t ht
    · exact hexpected t ht
    · exact hverdict
    · exact hsession t ht

section index
open Projector
variable {l : Log} (h : Lifecycle l)
include h

/-- Every attempt that a log starts has a state. -/
theorem exists_attempt {e : Event} {p : AttemptStartedPayload} (he : .known e ∈ l)
    (hp : e.payload = .attemptStarted p) :
    ∃ a ∈ (projected l).attempts.values, startEvent a = .known e := by
  have hstarts : (AnyEvent.known e).startsAttempt = some p.attemptId :=
    AnyEvent.startsAttempt_eq_some.mpr ⟨p, by simp [AnyEvent.payload?, hp], rfl⟩
  cases hget : (projected l).attempts.get? p.attemptId with
  | none =>
      refine absurd ?_ ((projected_tracks h).attempts.none _ hget)
      exact List.mem_filterMap.mpr ⟨_, mem_logOfEvents_ordered.mpr ⟨he, e, rfl⟩, hstarts⟩
  | some a =>
      have hkey := ((projected_tracks h).attempts.some _ a hget).2.key
      have ha : a ∈ (projected l).attempts.values := JsMap.mem_values.mpr ⟨_, hget⟩
      refine ⟨a, ha, attempt_unique h (startEvent_mem h ha) he ?_ hstarts⟩
      exact AnyEvent.startsAttempt_eq_some.mpr ⟨_, rfl, hkey⟩

variable {xs : List TestExecution} {projectId runId runDirectory : Text} {summary : Summary}
  (hxs : groupExecutions (projected l).attempts (projected l).sessions = .ok xs)
  (hread : ∀ x ∈ l, EnvelopeStorable x)
include hxs hread

omit hread in
/-- The occurrences of a run name what its attempts name. -/
theorem occurrence_source {o : ExecutionOccurrence} {x : TestExecution} (hx : x ∈ xs)
    (ho : occurrenceOf (runOf projectId runId runDirectory summary (projected l) xs) x = some o) :
    ∃ a ∈ (projected l).attempts.values, a.started.payload.test.historicalId = some o.historicalId ∧
      l.runnerName a.started.sessionId = some o.runnerName ∧
      a.started.payload.test.executionId = o.executionId ∧ a.started.occurredAt = o.occurredAt ∧
      ∀ s ∈ o.sessionIds, ∃ b ∈ (projected l).attempts.values, b.started.sessionId = s := by
  obtain ⟨hhistorical, hrunner, hid, ⟨first, hfirst, htime⟩, hsessions⟩ := occurrenceOf_eq_some ho
  obtain ⟨a, ha⟩ := executionOf hxs hx
  obtain rfl : attempt a = first := Option.some.inj (ha.first.symm.trans hfirst)
  refine ⟨a, ha.mem, ?_, ?_, ha.executionId.trans hid.symm, htime.symm, ?_⟩
  · rw [← ha.test, hhistorical]
  · rw [← runnerOf_eq h ha.mem, ← ha.runner, hrunner]
  · intro s hs
    obtain ⟨b, hb, rfl⟩ := hsessions s hs
    obtain ⟨c, hc, rfl⟩ := ha.members b hb
    exact ⟨c, hc, rfl⟩

theorem storable_occurrence {o : ExecutionOccurrence} {x : TestExecution} (hx : x ∈ xs)
    (ho : occurrenceOf (runOf projectId runId runDirectory summary (projected l) xs) x = some o) :
    OccurrenceStorable o := by
  obtain ⟨a, ha, -, -, hid, htime, hsessions⟩ := occurrence_source h hxs hx ho
  have hstart := hread _ (startEvent_mem h ha)
  refine ⟨?_, ?_, ?_⟩
  · rw [← hid]
    exact hstart.executionId _ rfl
  · rw [← htime]
    exact hstart.occurredAt
  · intro s hs
    obtain ⟨b, hb, rfl⟩ := hsessions s hs
    exact (hread _ (startEvent_mem h hb)).sessionId

omit hread in
/-- The names of the occurrences are those of the log. -/
theorem names_storable_iff :
    (∀ o ∈ xs.filterMap (occurrenceOf (runOf projectId runId runDirectory summary (projected l) xs)),
      Storable o.historicalId ∧ Storable o.runnerName) ↔ NamesStorable l := by
  constructor
  · intro hall y hy p hp historicalId hhistorical runnerName hrunner
    obtain ⟨e, rfl, hpay⟩ := AnyEvent.attemptStarted?_eq_some.mp hp
    obtain ⟨b, hb, hbe⟩ := exists_attempt h hy hpay
    obtain ⟨x, hx, hxb⟩ := exists_execution hxs hb
    obtain ⟨a, ha⟩ := executionOf hxs hx
    obtain ⟨hsame, -, hsameRunner⟩ := executions_agree h (startEvent_mem h ha.mem)
      (startEvent_mem h hb) rfl rfl (ha.executionId.trans hxb)
    cases hbe
    cases hpay
    have hne : x.attempts ≠ [] := by
      intro hnil
      have hfirst := ha.first
      rw [hnil] at hfirst
      cases hfirst
    obtain ⟨o, ho, rfl, rfl⟩ := exists_occurrence
      (runOf projectId runId runDirectory summary (projected l) xs)
      (by rw [ha.test, hsame]; exact hhistorical)
      (by rw [ha.runner, runnerOf_eq h ha.mem]; exact hsameRunner.trans hrunner) hne
    exact hall o (List.mem_filterMap.mpr ⟨x, hx, ho⟩)
  · intro hnames o ho
    obtain ⟨x, hx, ho⟩ := List.mem_filterMap.mp ho
    obtain ⟨a, ha, hhistorical, hrunner, -⟩ := occurrence_source h hxs hx ho
    exact hnames _ (startEvent_mem h ha) _ rfl _ hhistorical _ hrunner

/-- The index of a run can be derived, and its texts can be bound when its names can. -/
theorem index_storable_iff (hproject : Storable projectId) (hrun : Storable runId)
    (htimes : StartsPlaced l) (rt : Runtime) {fingerprint : Text}
    (hfingerprint : Storable fingerprint) :
    ∃ index, deriveQueryIndex rt (runOf projectId runId runDirectory summary (projected l) xs) =
        .ok index ∧ index.run.projectId = projectId ∧ index.run.runId = runId ∧
      ((∀ t ∈ replaceQueryIndexTexts projectId runId index fingerprint, Storable t) ↔
        NamesStorable l) := by
  have hrows : ∃ rows, (xs.filterMap (occurrenceOf
      (runOf projectId runId runDirectory summary (projected l) xs))).mapM (occurrenceRow rt) =
        .ok rows := by
    refine mapM_ok (fun o ho => ?_)
    obtain ⟨x, hx, ho⟩ := List.mem_filterMap.mp ho
    obtain ⟨a, ha, -, -, -, htime, -⟩ := occurrence_source h hxs hx ho
    have hplaced : (historyInstant o.occurredAt).isOk = true := by
      rw [← htime]
      exact htimes _ (startEvent_mem h ha) _ rfl
    cases hi : historyInstant o.occurredAt with
    | error message =>
        rw [hi] at hplaced
        cases hplaced
    | ok i =>
        rw [occurrenceRow, hi]
        exact ⟨_, rfl⟩
  obtain ⟨rows, hrows⟩ := hrows
  have hindex := @deriveQueryIndex_eq rt _ (fun x hx => ?_) _ hrows
  · refine ⟨_, hindex, rfl, rfl, ?_⟩
    have hrow : ∀ row ∈ rows, OccurrenceStorable row.occurrence := by
      intro row hrow
      obtain ⟨o, ho, hok⟩ := mem_of_forall₂ (mapM_eq_ok hrows) hrow
      obtain ⟨x, hx, ho⟩ := List.mem_filterMap.mp ho
      rw [occurrenceRow_eq_ok hok]
      exact storable_occurrence h hxs hread hx ho
    rw [← names_storable_iff h hxs]
    constructor
    · intro hall o ho
      obtain ⟨row, hmem, hok⟩ := exists_of_forall₂ (mapM_eq_ok hrows) ho
      rw [← occurrenceRow_eq_ok hok]
      refine (storable_occurrence_iff hproject hrun (hrow row hmem)).mp (fun t ht => ?_)
      exact hall t (List.mem_append_right _ (List.mem_flatMap.mpr ⟨row, hmem, ht⟩))
    · intro hnames t ht
      rcases List.mem_append.mp ht with ht | ht
      · simp only [List.mem_cons, List.not_mem_nil, or_false] at ht
        rcases ht with rfl | rfl | rfl | rfl
        · exact hproject
        · exact hrun
        · exact hfingerprint
        · generalize (runIndexRow _).verdict = verdict
          cases verdict <;> decide
      · obtain ⟨row, hmem, ht⟩ := List.mem_flatMap.mp ht
        obtain ⟨o, ho, hok⟩ := mem_of_forall₂ (mapM_eq_ok hrows) hmem
        refine (storable_occurrence_iff hproject hrun (hrow row hmem)).mpr ?_ t ht
        rw [occurrenceRow_eq_ok hok]
        exact hnames o ho
  · obtain ⟨a, ha⟩ := executionOf hxs hx
    intro hnil
    have hfirst := ha.first
    rw [hnil] at hfirst
    cases hfirst

end index

/-! ### Archiving a valid run -/

theorem storable_projectId {projectId : Text} (h : checkProjectId projectId = .ok ()) :
    Storable projectId := by
  unfold checkProjectId at h
  split_ifs at h with hempty hlone hzero
  exact hzero

theorem buildArchive_runId {rt : Runtime} {validated : ValidatedRun} {archive : RunArchive}
    (h : buildArchive rt validated = .ok archive) :
    ∃ line ∈ archive.lines, archive.runId = line.runId := by
  unfold buildArchive at h
  dsimp only at h
  split at h
  · cases h
  · rename_i first rest hlines
    split_ifs at h
    obtain ⟨blobs, -, h⟩ := bind_eq_ok.mp h
    cases h
    exact ⟨first, by rw [hlines]; exact List.mem_cons_self, rfl⟩

/-- A run is projected under the run id of an event. -/
theorem projectRun_runId {projectId runDirectory : Text} {snapshot : ValidatedRun}
    {run : ProjectedRun} (h : projectRun projectId runDirectory snapshot = .ok run) :
    ∃ e ∈ snapshot.events, run.runId = e.runId := by
  unfold projectRun at h
  split_ifs at h
  dsimp only at h
  split at h
  · cases h
  · rename_i runId hrunId
    rw [Projector.projectEvents_runId] at hrunId
    obtain ⟨e, he, rfl⟩ := Option.map_eq_some_iff.mp hrunId
    obtain ⟨xs, -, h⟩ := bind_eq_ok.mp h
    cases h
    exact ⟨e, mem_sortBy.mp (List.mem_of_head? he), rfl⟩

/-- The lines of a valid run name its run id. -/
theorem runId_of_line {rt : Runtime} {fs : FileSystem} {options : ValidateOptions}
    {calls : List FeedCall} (hv : ValidRun rt fs options calls) {x : Line}
    (hx : x ∈ allLines rt options calls) {e : AnyEvent} (he : e ∈ runLog rt options calls) :
    x.event.envelope.runId = e.envelope.runId := by
  obtain ⟨y, hy, hyx⟩ : ∃ y ∈ freshLines (allLines rt options calls), y.eventId = x.eventId :=
    exists_fresh hx
  have hyl : y ∈ allLines rt options calls := (fresh_sublist _).subset hy
  obtain ⟨c, -, hxc⟩ := mem_allLines.mp hx
  obtain ⟨d, -, hyd⟩ := mem_allLines.mp hyl
  have hkey := hv.consistent x hx y hyl hyx.symm
  rw [(session_of_key (mem_callLines hxc) (mem_callLines hyd) hkey).2.2]
  exact runIds_agree hv.lifecycle (List.mem_map_of_mem hy) he

/-- A valid run with an event, whose attempts start at timestamps that history order can place, is
archived, projected and indexed without an error and under one identity, and every text of its
lines and of its index can be bound exactly when its names hold no U+0000. -/
theorem texts_storable_iff (rt : Runtime) (fs : FileSystem) (hsystem : SystemTexts rt fs)
    (dir projectId sourceLocator : Text) (hproject : checkProjectId projectId = .ok ())
    (run : ValidatedRun) (hrun : validateRunDirectorySnapshot rt fs dir retainOptions = some run)
    (hvalid : run.report.valid = true) (hevents : 0 < run.report.summary.events)
    (htimes : StartsPlaced (directoryLog rt fs dir)) :
    ∃ archive projected index, buildArchive rt run = .ok archive ∧
      projectRun projectId sourceLocator run = .ok projected ∧
      deriveQueryIndex rt projected = .ok index ∧
      index.run.projectId = projectId ∧ index.run.runId = archive.runId ∧
      ((∀ t ∈ insertLinesTexts projectId archive.runId archive.lines ++
          replaceQueryIndexTexts projectId archive.runId index archive.contentFingerprint,
        Storable t) ↔ NamesStorable (directoryLog rt fs dir)) := by
  obtain rfl := snapshot_of_directory hrun hvalid
  have hv := (valid_iff rt fs (directoryOptions fs dir retainOptions) (directoryCalls fs dir)).mp
    hvalid
  have hne : directoryLog rt fs dir ≠ [] := by
    intro hnil
    have hcount : (snapshotOf rt fs (directoryOptions fs dir retainOptions)
        (directoryCalls fs dir)).report.summary.events = (directoryLog rt fs dir).length :=
      hv.ends.follows.events
    rw [hcount, hnil] at hevents
    exact absurd hevents (by simp)
  have haccepted : (snapshotOf rt fs (directoryOptions fs dir retainOptions)
      (directoryCalls fs dir)).events = (directoryLog rt fs dir).filterMap AnyEvent.known? :=
    hv.ends.follows.accepted
  obtain ⟨archive, harchive, hlines, hfinger, -, -⟩ := buildArchive_ok hv rfl rfl rfl hne
  have hknown : ∀ e, e ∈ (snapshotOf rt fs (directoryOptions fs dir retainOptions)
      (directoryCalls fs dir)).events ↔ .known e ∈ directoryLog rt fs dir := by
    intro e
    have hmem := mem_acceptedEvents hv (e := e)
    rw [acceptedEvents_eq hv] at hmem
    rw [haccepted]
    exact hmem
  have hsome : (snapshotOf rt fs (directoryOptions fs dir retainOptions)
      (directoryCalls fs dir)).events ≠ [] := by
    obtain ⟨x, hx⟩ := List.exists_mem_of_ne_nil _ hne
    obtain ⟨y, hy, hstarted, -⟩ := session_started hv.lifecycle (Log.session_mem hx)
    obtain ⟨p, hp⟩ := AnyEvent.isSessionStarted_iff.mp hstarted
    obtain ⟨e, rfl, -⟩ := AnyEvent.payload?_eq_some.mp hp
    exact List.ne_nil_of_mem ((hknown e).mpr hy)
  obtain ⟨runId, xs, hxs, hprojected⟩ := Projector.projectRun_eq hv.lifecycle hvalid haccepted hsome
    projectId sourceLocator
  obtain ⟨e, he, hrunId⟩ := projectRun_runId hprojected
  have hread : ∀ x ∈ allLines rt (directoryOptions fs dir retainOptions) (directoryCalls fs dir),
      EnvelopeStorable x.event := fun x hx => (storable_line hsystem hx).2.2
  have hlog : ∀ x ∈ directoryLog rt fs dir, EnvelopeStorable x := by
    intro x hx
    obtain ⟨y, hy, rfl⟩ := List.mem_map.mp hx
    exact hread y ((fresh_sublist _).subset hy)
  have hsame : archive.runId = runId := by
    obtain ⟨line, hline, hline'⟩ := buildArchive_runId harchive
    have hstored := List.mem_map_of_mem (f := fun t : ArchivedLine => t.toValidatedSourceLine) hline
    rw [hlines, orderLines_lines, (storedLines_perm _).mem_iff] at hstored
    obtain ⟨x, hx, d, heq⟩ := mem_sourceAfter hstored
    have hx' : line.runId = x.event.envelope.runId := congrArg ValidatedSourceLine.runId heq
    rw [hline', hx', runId_of_line hv hx ((hknown e).mp he)]
    exact hrunId.symm
  have hrun' : Storable runId := by
    have hstorable : Storable e.runId := (hlog _ ((hknown e).mp he)).runId
    rwa [← hrunId] at hstorable
  have hproject' := storable_projectId hproject
  obtain ⟨index, hindex, hindexProject, hindexRun, hiff⟩ := index_storable_iff hv.lifecycle hxs hlog
    hproject' hrun' htimes rt (hsystem.sha256 _)
  refine ⟨archive, _, index, harchive, hprojected, hindex, hindexProject, hindexRun.trans hsame.symm,
    ?_⟩
  rw [hsame, hfinger, List.forall_mem_append, hlines]
  constructor
  · exact fun hall => hiff.mp hall.2
  · exact fun hnames =>
      ⟨fun t ht => storable_insertLines hsystem hproject' hrun' ht, hiff.mpr hnames⟩

namespace Sample

/-- As `runtime`, with a parser that refuses a raw U+0000. -/
def strictRuntime : Runtime where
  parse t := if (0 : CodeUnit) ∈ t then .error (txt "control character") else runtime.parse t
  validate := runtime.validate
  sha256 := runtime.sha256

/-- A run of one test, with the name of its runner and its historical id. -/
def namedDirectory (runnerName historicalId : Text) : FileSystem :=
  directory
    [("1.ndjson", sessionFrom "a" 1
      [.sessionStarted ⟨⟨txt "sdk", none⟩, some ⟨runnerName, none⟩, none, none, none, none⟩,
        .attemptStarted ⟨txt "t1", 1,
          ⟨txt "t", some historicalId, .stable, txt "adds", [], none, none, none⟩⟩,
        attemptFinished "t1" .passed, sessionFinished, .runFinished])]

/-- A historical id `a`, U+0000, `b`. -/
def zeroName : Text := [unit 'a', 0, unit 'b']

theorem storable_digest (bytes : List ℕ) : Storable (Sha256.digest bytes) := by
  have hdigit : ∀ n < 16, hexDigit n ≠ 0 := by decide
  intro hmem
  obtain ⟨w, -, hw⟩ := List.mem_flatMap.mp hmem
  simp only [Sha256.hexWord, List.mem_cons, List.not_mem_nil, or_false] at hw
  rcases hw with hw | hw | hw | hw | hw | hw | hw | hw
  all_goals exact hdigit _ (Nat.mod_lt _ (by decide)) hw.symm

theorem systemTexts_named (runnerName historicalId : Text) :
    SystemTexts strictRuntime (namedDirectory runnerName historicalId) := by
  refine ⟨?_, ?_, ?_⟩
  · intro raw v h
    simp only [strictRuntime] at h
    split_ifs at h with hzero
    exact hzero
  · intro path opened h
    simp only [namedDirectory, directory, List.find?_cons, List.find?_nil] at h
    split at h
    · rename_i f hf
      split at hf
      · rename_i heq
        rw [← of_decide_eq_true heq]
        decide
      · cases hf
    · cases h
  · exact storable_digest

/-- What the report of a run directory says of validity, completeness and events. -/
def strictlyAccepted (fs : FileSystem) : Option (Bool × Bool × ℕ) :=
  (validateRunDirectorySnapshot strictRuntime fs (txt "run") retainOptions).map
    (fun run => (run.report.valid, run.report.summary.complete, run.report.summary.events))

/-- The historical ids that the index of a run directory holds. -/
def indexedNames (fs : FileSystem) : Option (List Text) := do
  let run ← validateRunDirectorySnapshot strictRuntime fs (txt "run") retainOptions
  let projected ← (projectRun (txt "project") (txt "run") run).toOption
  let index ← (deriveQueryIndex strictRuntime projected).toOption
  return index.occurrences.map (fun row => row.occurrence.historicalId)

end Sample

end QeReport

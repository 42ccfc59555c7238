import QeReport.Lib.Disk
import QeReport.Lib.Sha256
import QeReport.Lib.Utf8
import QeReport.Sdk.Session

/-! # The sink that writes a run directory

`FileSink` appends the events of one session to a file of its own and publishes attachments
under their hash: a temporary file is written, closed and renamed.  What the operating system
does is an input of each call: `writeSync` writes some of the bytes and says how many, or throws
and has written nothing; `fsyncSync` and `renameSync` may throw. -/

namespace QeReport.Sdk

/-- Where a file sits in the run directory. -/
inductive RunPlace where
  | events (name : Text)
  | temporary (name : Text)
  | attachment (sha256 : Text)
deriving DecidableEq

/-- What `writeSync` does: it writes the first `n + 1` bytes, or all if they are fewer, or it
throws. -/
inductive Written where
  | wrote (n : ℕ)
  | threw
deriving DecidableEq

inductive SinkError where
  | closed
  | tooLarge (limit : ℕ)
  | operational
deriving DecidableEq

/-- The message of an error that the sink itself throws. -/
def SinkError.message : SinkError → Option Text
  | .closed => some (txt "sink is closed")
  | .tooLarge limit => some (txt "attachment exceeds " ++ natText limit ++ txt " bytes")
  | .operational => none

/-- The digest and the names of `createTemp`, in the order in which they are drawn. -/
structure SinkPlatform where
  sha256 : List ℕ → Text
  tempName : ℕ → Text

structure FileSink where
  disk : Disk RunPlace
  /-- The file of this session's events. -/
  fd : ℕ
  closed : Bool
  maxAttachmentBytes : ℕ
  temps : ℕ

namespace FileSink

/-- `FileSink.open`, with the file name of the session. -/
def open_ (d : Disk RunPlace) (name : Text) (maxAttachmentBytes : ℕ) : Option FileSink :=
  (d.create (.events name)).map fun d' => ⟨d', d.created, false, maxAttachmentBytes, 0⟩

/-- The bytes of an event's line. -/
def lineBytes (event : AnyEvent) : List ℕ := utf8 (stringifyEvent event ++ txt "\n")

/-- `write(event)`. -/
def write (s : FileSink) (event : AnyEvent) (written : Written) (fsyncs : Bool) :
    Except SinkError Unit × FileSink :=
  if s.closed then (.error .closed, s)
  else
    match written with
    | .threw => (.error .operational, s)
    | .wrote n =>
        (if fsyncs then .ok () else .error .operational,
          { s with disk := s.disk.append s.fd ((lineBytes event).take (n + 1)) })

/-- `matches(target, size)`. -/
def sizeMatches (d : Disk RunPlace) (target : RunPlace) (size : ℕ) : Bool :=
  match d.entry target with
  | none => false
  | some f => (d.content f).length = size

/-- `publish(temp, sha256, size)`. -/
def publish (d : Disk RunPlace) (temp target : RunPlace) (size : ℕ) (renames : Bool) :
    Bool × Disk RunPlace :=
  match if renames then d.rename temp target else none with
  | some d' => (true, d')
  | none => (sizeMatches d target size, d.unlink temp)

/-- `storeAttachment(bytes)` past its checks: the temporary file is written and published, or
discarded. -/
def store (rt : SinkPlatform) (s : FileSink) (bytes : List ℕ) (written : Written)
    (renames : Bool) : Except SinkError StoredAttachment × FileSink :=
  let temp := RunPlace.temporary (rt.tempName s.temps)
  match s.disk.create temp with
  | none =>
      (.error .operational, { s with disk := s.disk.unlink temp, temps := s.temps + 1 })
  | some d =>
      match written with
      | .threw => (.error .operational, { s with disk := d.unlink temp, temps := s.temps + 1 })
      | .wrote n =>
          let (published, d') := publish (d.append s.disk.created (bytes.take (n + 1))) temp
            (.attachment (rt.sha256 bytes)) bytes.length renames
          (if published then .ok ⟨rt.sha256 bytes, bytes.length⟩ else .error .operational,
            { s with disk := d', temps := s.temps + 1 })

/-- `storeAttachment(bytes)`. -/
def storeAttachment (rt : SinkPlatform) (s : FileSink) (bytes : List ℕ) (written : Written)
    (renames : Bool) : Except SinkError StoredAttachment × FileSink :=
  if s.closed then (.error .closed, s)
  else if s.maxAttachmentBytes < bytes.length then (.error (.tooLarge s.maxAttachmentBytes), s)
  else s.store rt bytes written renames

/-- `close()`. -/
def close (s : FileSink) : FileSink := { s with closed := true }

end FileSink

/-! ### Runs of a sink -/

/-- A call and what the operating system does in it. -/
inductive SinkCall where
  | write (event : AnyEvent) (written : Written) (fsyncs : Bool)
  | storeAttachment (bytes : List ℕ) (written : Written) (renames : Bool)
  | close

/-- A sink, and the bytes that `storeAttachment` has returned a digest for. -/
structure Sunk where
  sink : FileSink
  stored : List (List ℕ)

/-- One call. -/
def Sunk.call (rt : SinkPlatform) (s : Sunk) : SinkCall → Sunk
  | .write event written fsyncs => { s with sink := (s.sink.write event written fsyncs).2 }
  | .storeAttachment bytes written renames =>
      let (answer, sink) := s.sink.storeAttachment rt bytes written renames
      ⟨sink, match answer with
        | .ok _ => s.stored ++ [bytes]
        | .error _ => s.stored⟩
  | .close => { s with sink := s.sink.close }

def Sunk.run (rt : SinkPlatform) (s : Sunk) (calls : List SinkCall) : Sunk :=
  calls.foldl (Sunk.call rt) s

/-- The byte strings given to `storeAttachment`. -/
def attachmentsOf (calls : List SinkCall) : List (List ℕ) :=
  calls.filterMap fun
    | .storeAttachment bytes _ _ => some bytes
    | _ => none

/-! ### What the sink promises -/

/-- A write appends the whole line if it returns, and nothing if it throws. -/
def FileSink.Atomic (s : FileSink) (event : AnyEvent) (written : Written) (fsyncs : Bool) : Prop :=
  (s.write event written fsyncs).2.disk.content s.fd =
    match (s.write event written fsyncs).1 with
    | .ok () => s.disk.content s.fd ++ FileSink.lineBytes event
    | .error _ => s.disk.content s.fd

/-- A published file holds bytes that were stored under its name. -/
def Exact (rt : SinkPlatform) (d : Disk RunPlace) (stored : List (List ℕ)) : Prop :=
  ∀ sha256 f, d.entry (.attachment sha256) = some f →
    d.content f ∈ stored ∧ rt.sha256 (d.content f) = sha256

/-- What the sink promises of one call. -/
def Sunk.Right (rt : SinkPlatform) (s : Sunk) (c : SinkCall) : Prop :=
  (match c with
    | .write event written fsyncs => s.sink.Atomic event written fsyncs
    | _ => True) ∧
  Exact rt (s.call rt c).sink.disk (s.call rt c).stored

/-- The bytes of the call are written as a whole or not at all, and are not left behind by an
error after that; a short temporary file is not renamed. -/
def FileSink.Whole (rt : SinkPlatform) (s : FileSink) : SinkCall → Prop
  | .write event written fsyncs =>
      s.closed = false → ∀ n, written = .wrote n →
        (FileSink.lineBytes event).length ≤ n + 1 ∧ fsyncs = true
  | .storeAttachment bytes written renames =>
      s.closed = false → bytes.length ≤ s.maxAttachmentBytes →
        s.disk.entry (.temporary (rt.tempName s.temps)) = none →
        ∀ n, written = .wrote n → renames = true → bytes.length ≤ n + 1
  | .close => True

/-! ### One call -/

variable {rt : SinkPlatform}

theorem lineBytes_ne_nil (event : AnyEvent) : FileSink.lineBytes event ≠ [] :=
  utf8_ne_nil (List.append_ne_nil_of_right_ne_nil _ (by decide))

/-- A write is atomic exactly when its bytes are written as a whole and flushed, or not at all. -/
theorem atomic_iff {s : FileSink} {event : AnyEvent} {written : Written} {fsyncs : Bool} :
    s.Atomic event written fsyncs ↔ s.Whole rt (.write event written fsyncs) := by
  unfold FileSink.Atomic FileSink.write FileSink.Whole
  cases hclosed : s.closed with
  | true => simp
  | false =>
      cases written with
      | threw => simp
      | wrote n =>
          have htake : (FileSink.lineBytes event).take (n + 1) ≠ [] := by
            rw [Ne, List.take_eq_nil_iff]
            simp [lineBytes_ne_nil]
          cases fsyncs with
          | false => simp [htake]
          | true => simp [List.take_eq_self_iff]

/-- What a call leaves of the files and of the published entries: the published ones are as
before, or the file that the call created is published under the digest it was given for. -/
structure Stores (rt : SinkPlatform) (s s' : FileSink) (bytes : List ℕ) (written : Written)
    (renames returned : Bool) : Prop where
  fd : s'.fd = s.fd
  created : s.disk.created ≤ s'.disk.created
  content : ∀ f < s.disk.created, s'.disk.content f = s.disk.content f
  entries : (∀ sha256, s'.disk.entry (.attachment sha256) = s.disk.entry (.attachment sha256)) ∨
    returned = true ∧ renames = true ∧ ∃ n, written = .wrote n ∧
      s.disk.entry (.temporary (rt.tempName s.temps)) = none ∧
      s'.disk.content s.disk.created = bytes.take (n + 1) ∧
      ∀ sha256, s'.disk.entry (.attachment sha256) =
        if sha256 = rt.sha256 bytes then some s.disk.created
        else s.disk.entry (.attachment sha256)

/-- A call that has written no more than its temporary file. -/
theorem Stores.idle {s : FileSink} {bytes : List ℕ} {written : Written} {renames returned : Bool}
    {d : Disk RunPlace} {temps : ℕ} (hcreated : s.disk.created ≤ d.created)
    (hcontent : ∀ f < s.disk.created, d.content f = s.disk.content f)
    (hentry : ∀ sha256, d.entry (.attachment sha256) = s.disk.entry (.attachment sha256)) :
    Stores rt s { s with disk := d, temps := temps } bytes written renames returned :=
  ⟨rfl, hcreated, hcontent, .inl hentry⟩

theorem store_stores (rt : SinkPlatform) (s : FileSink) (bytes : List ℕ) (written : Written)
    (renames : Bool) :
    Stores rt s (s.store rt bytes written renames).2 bytes written renames
      (s.store rt bytes written renames).1.isOk := by
  unfold FileSink.store
  dsimp only
  cases hc : s.disk.create (.temporary (rt.tempName s.temps)) with
  | none =>
      refine Stores.idle (d := s.disk.unlink _) (le_refl _) (fun _ _ => rfl) (fun sha256 => ?_)
      rw [Disk.entry_unlink, Function.update_of_ne (by simp)]
  | some d =>
      obtain ⟨hfree, hentry, hcontent, hcreated⟩ := Disk.create_eq_some hc
      have hkept : ∀ sha256, d.entry (.attachment sha256) =
          s.disk.entry (.attachment sha256) := by
        intro sha256
        rw [hentry, Function.update_of_ne (by simp)]
      cases written with
      | threw =>
          refine Stores.idle (d := d.unlink _) ?_ (fun f hf => ?_) (fun sha256 => ?_)
          · rw [Disk.created_unlink]
            omega
          · rw [Disk.content_unlink, hcontent, Function.update_of_ne (Nat.ne_of_lt hf)]
          · rw [Disk.entry_unlink, Function.update_of_ne (by simp)]
            exact hkept sha256
      | wrote n =>
          have hbefore : ∀ f < s.disk.created,
              (d.append s.disk.created (bytes.take (n + 1))).content f = s.disk.content f := by
            intro f hf
            rw [Disk.content_append_ne _ _ (Nat.ne_of_lt hf), hcontent,
              Function.update_of_ne (Nat.ne_of_lt hf)]
          have hwritten : (d.append s.disk.created (bytes.take (n + 1))).content s.disk.created =
              bytes.take (n + 1) := by
            rw [Disk.content_append, hcontent, Function.update_self, List.nil_append]
          unfold FileSink.publish
          dsimp only
          cases hr : (if renames = true then
              (d.append s.disk.created (bytes.take (n + 1))).rename
                (.temporary (rt.tempName s.temps)) (.attachment (rt.sha256 bytes))
            else none) with
          | none =>
              refine Stores.idle (d := Disk.unlink (d.append _ _) _) ?_ hbefore (fun sha256 => ?_)
              · rw [Disk.created_unlink, Disk.created_append]
                omega
              · rw [Disk.entry_unlink, Function.update_of_ne (by simp)]
                exact hkept sha256
          | some d' =>
              cases renames with
              | false => simp at hr
              | true =>
                  obtain ⟨hcontent', hcreated', f, hf, hentry'⟩ := Disk.rename_eq_some hr
                  rw [Disk.entry_append, hentry, Function.update_self] at hf
                  obtain rfl := Option.some.inj hf
                  refine ⟨rfl, ?_, fun f hf => ?_, .inr ⟨rfl, rfl, n, rfl, hfree, ?_, ?_⟩⟩
                  · show s.disk.created ≤ d'.created
                    rw [hcreated', Disk.created_append]
                    omega
                  · show d'.content f = s.disk.content f
                    rw [hcontent']
                    exact hbefore f hf
                  · show d'.content s.disk.created = bytes.take (n + 1)
                    rw [hcontent', hwritten]
                  · intro sha256
                    show d'.entry (.attachment sha256) = _
                    rw [hentry']
                    by_cases hsha : sha256 = rt.sha256 bytes
                    · rw [if_pos hsha, hsha, Function.update_self]
                    · rw [if_neg hsha, Function.update_of_ne (by simpa using hsha),
                        Function.update_of_ne (by simp), Disk.entry_append]
                      exact hkept sha256

/-- What was written is published when the rename goes through, however little it is. -/
theorem store_published (rt : SinkPlatform) {s : FileSink} (bytes : List ℕ) (n : ℕ)
    (hfree : s.disk.entry (.temporary (rt.tempName s.temps)) = none) :
    (s.store rt bytes (.wrote n) true).2.disk.entry (.attachment (rt.sha256 bytes)) =
        some s.disk.created ∧
      (s.store rt bytes (.wrote n) true).2.disk.content s.disk.created = bytes.take (n + 1) := by
  obtain ⟨d, hd⟩ := Disk.create_of hfree
  obtain ⟨-, hentry, hcontent, -⟩ := Disk.create_eq_some hd
  have htemp : (d.append s.disk.created (bytes.take (n + 1))).entry
      (.temporary (rt.tempName s.temps)) = some s.disk.created := by
    rw [Disk.entry_append, hentry, Function.update_self]
  obtain ⟨d', hd'⟩ := Disk.rename_of htemp (.attachment (rt.sha256 bytes))
  obtain ⟨hcontent', -, f, hf, hentry'⟩ := Disk.rename_eq_some hd'
  obtain rfl := Option.some.inj (htemp.symm.trans hf)
  have hdisk : (s.store rt bytes (.wrote n) true).2.disk = d' := by
    simp only [FileSink.store, hd, FileSink.publish, if_true, hd']
  rw [hdisk, hentry', hcontent', Function.update_self, Disk.content_append, hcontent,
    Function.update_self, List.nil_append]
  exact ⟨rfl, rfl⟩

/-! ### Runs -/

/-- What a sink keeps: its event file is not published, and what is published is exact. -/
structure Sunk.Kept (rt : SinkPlatform) (s : Sunk) : Prop where
  fd : s.sink.fd < s.sink.disk.created
  apart : ∀ sha256, s.sink.disk.entry (.attachment sha256) ≠ some s.sink.fd
  exact_ : Exact rt s.sink.disk s.stored

theorem Sunk.Kept.ofOpen {d : Disk RunPlace} {name : Text} {max : ℕ} {sink : FileSink}
    (hopen : FileSink.open_ d name max = some sink) {earlier : List (List ℕ)}
    (h : Exact rt d earlier) : Sunk.Kept rt ⟨sink, earlier⟩ := by
  unfold FileSink.open_ at hopen
  obtain ⟨d', hcreate, rfl⟩ := Option.map_eq_some_iff.mp hopen
  obtain ⟨-, hentry, hcontent, hcreated⟩ := Disk.create_eq_some hcreate
  have hkept : ∀ sha256, d'.entry (.attachment sha256) = d.entry (.attachment sha256) := by
    intro sha256
    rw [hentry, Function.update_of_ne (by simp)]
  refine ⟨?_, fun sha256 hf => ?_, fun sha256 f hf => ?_⟩
  · show d.created < d'.created
    omega
  · have hlt := d.below _ _ ((hkept sha256).symm.trans hf)
    exact Nat.lt_irrefl _ hlt
  · have hf' := (hkept sha256).symm.trans hf
    show d'.content f ∈ earlier ∧ rt.sha256 (d'.content f) = sha256
    rw [hcontent, Function.update_of_ne (Nat.ne_of_lt (d.below _ _ hf'))]
    exact h sha256 f hf'

/-- A write touches the event file only. -/
theorem write_frame (s : FileSink) (event : AnyEvent) (written : Written) (fsyncs : Bool) :
    (s.write event written fsyncs).2.fd = s.fd ∧
      (s.write event written fsyncs).2.disk.entry = s.disk.entry ∧
      (s.write event written fsyncs).2.disk.created = s.disk.created ∧
      ∀ f, f ≠ s.fd → (s.write event written fsyncs).2.disk.content f = s.disk.content f := by
  unfold FileSink.write
  cases s.closed with
  | true => exact ⟨rfl, rfl, rfl, fun _ _ => rfl⟩
  | false =>
      cases written with
      | threw => exact ⟨rfl, rfl, rfl, fun _ _ => rfl⟩
      | wrote n => exact ⟨rfl, rfl, rfl, fun f hf => Disk.content_append_ne _ _ hf⟩

/-- Only bytes that are stored are published, as long as temporary files are written in full. -/
theorem Sunk.Kept.store {s : Sunk} (h : s.Kept rt) (bytes : List ℕ) (written : Written)
    (renames : Bool)
    (hwhole : s.sink.disk.entry (.temporary (rt.tempName s.sink.temps)) = none →
      ∀ n, written = .wrote n → renames = true → bytes.length ≤ n + 1) {stored : List (List ℕ)}
    (hstored : ∀ b ∈ s.stored, b ∈ stored)
    (hreturned : (s.sink.store rt bytes written renames).1.isOk = true → bytes ∈ stored) :
    Sunk.Kept rt ⟨(s.sink.store rt bytes written renames).2, stored⟩ := by
  obtain ⟨hfd, hcreated, hcontent, hentries⟩ := store_stores rt s.sink bytes written renames
  have hold : ∀ sha256 f, s.sink.disk.entry (.attachment sha256) = some f →
      (s.sink.store rt bytes written renames).2.disk.content f ∈ stored ∧
        rt.sha256 ((s.sink.store rt bytes written renames).2.disk.content f) = sha256 := by
    intro sha256 f hf
    rw [hcontent f (s.sink.disk.below _ _ hf)]
    obtain ⟨hmem, hsha⟩ := h.exact_ sha256 f hf
    exact ⟨hstored _ hmem, hsha⟩
  rcases hentries with hsame | ⟨hok, hrenames, n, hwrote, hfree, hbytes, hentry⟩
  · refine ⟨hfd ▸ lt_of_lt_of_le h.fd hcreated, fun sha256 hf => ?_, fun sha256 f hf => ?_⟩
    · rw [hsame, hfd] at hf
      exact h.apart sha256 hf
    · rw [hsame] at hf
      exact hold sha256 f hf
  · refine ⟨hfd ▸ lt_of_lt_of_le h.fd hcreated, fun sha256 hf => ?_, fun sha256 f hf => ?_⟩
    · rw [hentry, hfd] at hf
      split at hf
      · exact Nat.ne_of_gt h.fd (Option.some.inj hf)
      · exact h.apart sha256 hf
    · rw [hentry] at hf
      split at hf
      · rename_i hsha
        obtain rfl := Option.some.inj hf
        rw [hbytes, List.take_of_length_le (hwhole hfree n hwrote hrenames)]
        exact ⟨hreturned hok, hsha.symm⟩
      · exact hold sha256 f hf

theorem Sunk.Kept.call {s : Sunk} (h : s.Kept rt) {c : SinkCall} (hwhole : s.sink.Whole rt c) :
    (s.call rt c).Kept rt := by
  cases c with
  | write event written fsyncs =>
      obtain ⟨hfd, hentry, hcreated, hcontent⟩ := write_frame s.sink event written fsyncs
      refine ⟨?_, fun sha256 hf => ?_, fun sha256 f hf => ?_⟩
      · show (s.sink.write event written fsyncs).2.fd < _
        rw [hfd]
        exact lt_of_lt_of_eq h.fd hcreated.symm
      · rw [Sunk.call, hentry, hfd] at hf
        exact h.apart sha256 hf
      · rw [Sunk.call, hentry] at hf
        rw [Sunk.call, hcontent f (fun he => h.apart sha256 (he ▸ hf))]
        exact h.exact_ sha256 f hf
  | storeAttachment bytes written renames =>
      unfold Sunk.call FileSink.storeAttachment
      cases hclosed : s.sink.closed with
      | true => exact h
      | false =>
          by_cases hsize : s.sink.maxAttachmentBytes < bytes.length
          · simp only [hsize, if_true, Bool.false_eq_true, if_false]
            exact h
          · simp only [hsize, if_false, Bool.false_eq_true]
            refine h.store bytes written renames (hwhole hclosed (by omega)) (fun b hb => ?_)
              (fun hok => ?_)
            · split
              · exact List.mem_append_left _ hb
              · exact hb
            · cases ha : (s.sink.store rt bytes written renames).1 with
              | error e => rw [ha] at hok; cases hok
              | ok a => simp
  | close => exact ⟨h.fd, h.apart, h.exact_⟩

theorem Sunk.run_concat (s : Sunk) (calls : List SinkCall) (c : SinkCall) :
    s.run rt (calls ++ [c]) = (s.run rt calls).call rt c := by
  simp [Sunk.run, List.foldl_append]

/-- Whatever a sink has stored it was given. -/
theorem stored_given (s : Sunk) (calls : List SinkCall) :
    ∀ b ∈ (s.run rt calls).stored, b ∈ s.stored ++ attachmentsOf calls := by
  induction calls using List.reverseRecOn with
  | nil => simp [Sunk.run, attachmentsOf]
  | append_singleton calls c ih =>
      intro b hb
      have hold : b ∈ (s.run rt calls).stored → b ∈ s.stored ++ attachmentsOf (calls ++ [c]) := by
        intro hb
        have := ih b hb
        rw [attachmentsOf, List.filterMap_append, ← List.append_assoc]
        exact List.mem_append_left _ this
      rw [Sunk.run_concat] at hb
      cases c with
      | write => exact hold hb
      | close => exact hold hb
      | storeAttachment bytes written renames =>
          have hbytes : b = bytes → b ∈ s.stored ++ attachmentsOf
              (calls ++ [.storeAttachment bytes written renames]) := by
            rintro rfl
            simp [attachmentsOf]
          simp only [Sunk.call] at hb
          split at hb
          · rcases List.mem_append.mp hb with hb | hb
            · exact hold hb
            · exact hbytes (List.mem_singleton.mp hb)
          · exact hold hb

/-- A call that goes as the sink promises had its bytes written as a whole, if no two different
attachments have one digest. -/
theorem Sunk.Right.whole {s : Sunk} {c : SinkCall} (h : s.Right rt c)
    (hunique : ∀ bytes written renames, c = .storeAttachment bytes written renames →
      ∀ b ∈ (s.call rt c).stored, rt.sha256 b = rt.sha256 bytes → b = bytes) :
    s.sink.Whole rt c := by
  cases c with
  | write event written fsyncs => exact atomic_iff.mp h.1
  | close => trivial
  | storeAttachment bytes written renames =>
      intro hopen hsize hfree n hwrote hrenames
      have hcall : (s.call rt (.storeAttachment bytes written renames)).sink =
          (s.sink.store rt bytes written renames).2 := by
        simp [Sunk.call, FileSink.storeAttachment, hopen, Nat.not_lt.mpr hsize]
      subst hwrote hrenames
      obtain ⟨hentry, hcontent⟩ := store_published rt bytes n hfree
      have hexact := h.2 (rt.sha256 bytes) _ (hcall ▸ hentry)
      rw [hcall, hcontent] at hexact
      have htake := hunique bytes _ _ rfl _ hexact.1 hexact.2
      exact List.take_eq_self_iff .. |>.mp htake

/-- A sink on a directory whose published attachments are exact.  While every call writes its
bytes as a whole, or fails before it has written any, a write appends its whole line or throws
and appends nothing, and a published file holds bytes whose digest it is named by and was
returned.  Conversely a sink that keeps this through a run, no two attachments having one
digest, was served so in every call. -/
theorem sink_promises {d : Disk RunPlace} {name : Text} {max : ℕ} {sink : FileSink}
    (rt : SinkPlatform) (hopen : FileSink.open_ d name max = some sink)
    (earlier : List (List ℕ)) (hearlier : Exact rt d earlier) (calls : List SinkCall) :
    ((∀ p c q, calls = p ++ c :: q →
        ((Sunk.mk sink earlier).run rt p).sink.Whole rt c) →
      ∀ p c q, calls = p ++ c :: q → ((Sunk.mk sink earlier).run rt p).Right rt c) ∧
    ((∀ b ∈ earlier ++ attachmentsOf calls, ∀ b' ∈ attachmentsOf calls,
        rt.sha256 b = rt.sha256 b' → b = b') →
      (∀ p c q, calls = p ++ c :: q → ((Sunk.mk sink earlier).run rt p).Right rt c) →
      ∀ p c q, calls = p ++ c :: q → ((Sunk.mk sink earlier).run rt p).sink.Whole rt c) := by
  constructor
  · intro hwhole
    have hkept : ∀ p q, calls = p ++ q → ((Sunk.mk sink earlier).run rt p).Kept rt := by
      intro p
      induction p using List.reverseRecOn with
      | nil => exact fun _ _ => Sunk.Kept.ofOpen hopen hearlier
      | append_singleton p c ih =>
          intro q hq
          rw [List.append_assoc] at hq
          rw [Sunk.run_concat]
          exact (ih _ hq).call (hwhole p c q hq)
    intro p c q hq
    have hc := hwhole p c q hq
    refine ⟨?_, ((hkept p _ hq).call hc).exact_⟩
    cases c with
    | write event written fsyncs => exact atomic_iff.mpr hc
    | storeAttachment => trivial
    | close => trivial
  · intro hunique hright p c q hq
    refine (hright p c q hq).whole (fun bytes written renames hc b hb hsha => ?_)
    rw [← Sunk.run_concat] at hb
    have hgiven := stored_given _ _ b hb
    refine hunique b ?_ bytes ?_ hsha
    · rw [hq]
      rcases List.mem_append.mp hgiven with hb | hb
      · exact List.mem_append_left _ hb
      · refine List.mem_append_right _ ?_
        simp only [attachmentsOf, List.filterMap_append, List.mem_append] at hb ⊢
        rcases hb with hb | hb
        · exact .inl hb
        · right
          rw [List.filterMap_cons]
          subst hc
          simpa using Or.inl (by simpa using hb)
    · rw [hq, hc]
      simp [attachmentsOf]

/-- A sink on an empty run directory, with real digests. -/
def sampleSinkPlatform : SinkPlatform where
  sha256 := Sha256.digest
  tempName n := txt ".tmp-1-" ++ natText n

/-- An event of a type that the codec does not know. -/
def sampleLine : AnyEvent :=
  .unknown ⟨⟨txt "0.3.0", txt "e1", txt "r1", txt "s1", 1, txt "2026-07-01T10:00:00Z", some true⟩,
    txt "x.noted", []⟩

theorem exact_empty (rt : SinkPlatform) : Exact rt Disk.empty [] :=
  fun sha256 f hf => by simp [Disk.empty] at hf

/-- The first byte of a line is written and the call returns; the first byte of two is published
under the digest of both. -/
theorem sink_promises_short : ∃ sink,
    FileSink.open_ Disk.empty (txt "s1.ndjson") 10 = some sink ∧
    ¬ (Sunk.mk sink []).Right sampleSinkPlatform (.write sampleLine (.wrote 0) true) ∧
    ¬ (Sunk.mk sink []).Right sampleSinkPlatform (.storeAttachment [1, 2] (.wrote 0) true) := by
  refine ⟨_, rfl, fun h => ?_, fun h => ?_⟩
  · have hwhole := (@atomic_iff sampleSinkPlatform _ _ _ _).mp h.1
    have hlength : 1 < (FileSink.lineBytes sampleLine).length := by decide +kernel
    exact absurd (hwhole rfl 0 rfl).1 (by omega)
  · obtain ⟨hmem, -⟩ := h.2 (Sha256.digest [1, 2]) 1 rfl
    have hbytes := List.mem_singleton.mp hmem
    exact absurd hbytes (by decide)

/-- A line and an attachment, both written as a whole. -/
theorem sink_promises_whole : ∃ sink,
    FileSink.open_ Disk.empty (txt "s1.ndjson") 10 = some sink ∧
    ∀ p c q, [SinkCall.write sampleLine (.wrote 400) true, .storeAttachment [1, 2] (.wrote 1) true] =
      p ++ c :: q → ((Sunk.mk sink []).run sampleSinkPlatform p).Right sampleSinkPlatform c := by
  refine ⟨_, rfl, (sink_promises sampleSinkPlatform rfl [] (exact_empty _) _).1 ?_⟩
  intro p c q hq
  match p, hq with
  | [], hq =>
      obtain ⟨rfl, -⟩ := List.cons.inj hq
      intro _ n hn
      obtain rfl := Written.wrote.inj hn
      exact ⟨by decide +kernel, rfl⟩
  | [_], hq =>
      obtain ⟨-, hq⟩ := List.cons.inj hq
      obtain ⟨rfl, -⟩ := List.cons.inj hq
      intro _ _ _ n hn _
      obtain rfl := Written.wrote.inj hn
      decide
  | _ :: _ :: _, hq => simp at hq

end QeReport.Sdk

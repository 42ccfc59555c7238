import QeReport.Lib.JsonReading
import QeReport.Lib.Sha256
import QeReport.Protocol.Writer
import QeReport.Validator.Feed

/-! # Finishing a validation

`finish` applies the rules of the whole run, checks the declared attachments against the files
that hold their bytes, and derives completeness and the verdict from the bookkeeping.
`validateRunDirectorySnapshot` feeds the event files of a run directory in the order of their
names.

The file system is what the validator sees of it: the kind of a path without following links,
what opening a regular file gives, and the names in a directory.  An input or output error ends
a validation without a report and is not modelled. -/

namespace QeReport

/-! ### Files -/

inductive EntryKind where
  | missing | file | directory | symlink | special
deriving DecidableEq

/-- What an opened regular file holds. -/
structure OpenedFile where
  text : Text
  size : ℤ
  sha256 : Text

/-- The file system as the validator reads it; `openRegular` re-checks what it opened. -/
structure FileSystem where
  entryKind : Text → EntryKind
  openRegular : Text → Except EntryKind OpenedFile
  realpath : Text → Option Text
  readdir : Text → List Text

/-- `trustedDirectory`: resolved when it exists. -/
def trustedDirectory (fs : FileSystem) (path : Text) : Text := (fs.realpath path).getD path

/-- The segments of a path with `.` and `..` resolved, last one first. -/
def resolveSegments (absolute : Bool) : List Text → List Text → List Text
  | [], done => done
  | s :: rest, done =>
      if s = [] ∨ s = txt "." then resolveSegments absolute rest done
      else if s = txt ".." then
        match done with
        | [] => resolveSegments absolute rest (if absolute then [] else [s])
        | d :: ds =>
            if d = txt ".." then resolveSegments absolute rest (s :: done)
            else resolveSegments absolute rest ds
      else resolveSegments absolute rest (s :: done)

/-- `path.join(a, b)` of a POSIX system. -/
def joinPath (a b : Text) : Text :=
  let raw := if a = [] then b else if b = [] then a else child a b
  let absolute := raw.head? == some (unit '/')
  let body := List.intercalate [unit '/']
    (resolveSegments absolute (raw.splitOn (unit '/')) []).reverse
  let trailing := if body ≠ [] ∧ endsWith raw (txt "/") then txt "/" else []
  if absolute then unit '/' :: (body ++ trailing)
  else if body = [] then txt "." else body ++ trailing

/-- Why an entry was refused. -/
def refusal : EntryKind → Text
  | .symlink => txt "a symbolic link"
  | .directory => txt "a directory"
  | .special => txt "not a regular file"
  | .file => txt "a regular file"
  | .missing => []

/-- `refuseEntry(path, reason, expected)`. -/
def refuseEntry (path : Text) (reason : EntryKind) (directoryExpected : Bool) : Diagnostic :=
  lineError path 0 .unsafeFilesystemEntry
    (if directoryExpected then
      refusal reason ++ txt " where a directory is required; nothing below it is read"
    else refusal reason ++ txt "; only regular files are read") none none

/-! ### The rules of the whole run -/

def attachmentError (a : DeclaredAttachment) (code : DiagnosticCode) (message : Text) : Diagnostic :=
  lineError a.file a.line code message (some a.eventId) none

def attachmentMissing (a : DeclaredAttachment) : Diagnostic :=
  attachmentError a .attachmentMissing (txt "no file for sha256 " ++ a.sha256)

def attachmentRefused (a : DeclaredAttachment) (kind : EntryKind) : Diagnostic :=
  attachmentError a .unsafeFilesystemEntry
    (txt "attachment " ++ a.sha256 ++ txt " is " ++ refusal kind ++
      txt "; only regular files are read")

/-- The bytes of one declared attachment. -/
def checkAttachment (fs : FileSystem) (dir : Text) (a : DeclaredAttachment) : List Diagnostic :=
  let path := joinPath dir a.sha256
  match fs.entryKind path with
  | .missing => [attachmentMissing a]
  | .directory => [attachmentRefused a .directory]
  | .symlink => [attachmentRefused a .symlink]
  | .special => [attachmentRefused a .special]
  | .file =>
      match fs.openRegular path with
      | .error .missing => [attachmentMissing a]
      | .error kind => [attachmentRefused a kind]
      | .ok opened =>
          check (opened.size ≠ a.sizeBytes)
            (attachmentError a .attachmentSizeMismatch
              (txt "declared " ++ intText a.sizeBytes ++ txt " bytes, file has " ++
                intText opened.size)) ++
          check (opened.sha256 ≠ a.sha256)
            (attachmentError a .attachmentHashMismatch
              (txt "declared " ++ a.sha256 ++ txt ", file hashes to " ++ opened.sha256))

/-- The declared attachments against the attachments directory. -/
def checkAttachments (fs : FileSystem) (dir : Text) (attachments : List DeclaredAttachment) :
    List Diagnostic :=
  let dirKind := fs.entryKind dir
  if dirKind = .symlink ∨ dirKind = .special ∨ dirKind = .file then
    check (!attachments.isEmpty) (refuseEntry dir dirKind true)
  else attachments.flatMap (checkAttachment fs dir)

/-- Open sessions of a run that was finished. -/
def checkRunEnd (b : Books) : List Diagnostic :=
  match b.runFinished with
  | none => []
  | some at_ => b.sessions.entries.flatMap (fun (id, s) =>
      check (!s.finished)
        (lifecycle at_ .sessionNotFinishedAtRunEnd
          (txt "run.finished while session " ++ id ++ txt " is still open")))

/-- Every session, attempt and step that started also finished. -/
def isComplete (b : Books) : Bool :=
  b.sessions.values.all (fun s => s.finished) &&
    b.attempts.values.all (fun a => a.finished && a.steps.values.all id)

/-- An attempt replaces the final one of its execution when its number is higher. -/
def keepFinal (finals : JsMap Text AttemptState) (a : AttemptState) : JsMap Text AttemptState :=
  match finals.get? a.executionId with
  | none => finals.set a.executionId a
  | some current =>
      if a.attemptNumber > current.attemptNumber then finals.set a.executionId a else finals

/-- The final attempt of each execution: the one with the highest number. -/
def finalAttempts (b : Books) : JsMap Text AttemptState :=
  b.attempts.values.foldl keepFinal .empty

def verdictOf (b : Books) : Verdict :=
  let finals := (finalAttempts b).values
  if !isComplete b then .incomplete
  else if finals.any (fun a => a.unexpected) || b.scopeFailures > 0 || b.failedSessions > 0 then
    .failed
  else if finals.any (fun a => a.inconclusive) || b.inconclusiveSessions > 0 then .inconclusive
  else .passed

def summaryOf (b : Books) : Summary where
  files := b.files
  events := b.events
  sessions := b.sessions.size
  attempts := b.attempts.size
  steps := b.steps
  attachments := b.attachments.length
  failedAttempts := b.failedAttempts
  scopeFailures := b.scopeFailures
  failedSessions := b.failedSessions
  inconclusiveSessions := b.inconclusiveSessions
  sessionFailures := b.sessionFailures
  ignored := b.ignored
  duplicates := b.duplicates
  complete := isComplete b
  closed := b.runFinished.isSome
  verdict := verdictOf b

/-- The diagnostics `finish` adds. -/
def finishDiagnostics (fs : FileSystem) (options : ValidateOptions) (b : Books) : List Diagnostic :=
  checkRunEnd b ++
    (match options.attachmentsDir with
      | none => []
      | some dir => checkAttachments fs dir b.attachments) ++
    check (!isComplete b)
      { severity := if options.requireComplete then .error else .info
        code := .incompleteRun
        file := []
        line := 0
        eventId := none
        pointer := none
        detail := none
        message := txt "a session, attempt, or step started but never finished" }

/-- `finish()`. -/
def finish (fs : FileSystem) (options : ValidateOptions) (v : RunValidator) : Report :=
  let diagnostics := v.diagnostics ++ finishDiagnostics fs options v.books
  ⟨decide (ErrorFree diagnostics), diagnostics, summaryOf v.books⟩

/-- The report of a sequence of `feed` calls. -/
def reportOf (rt : Runtime) (fs : FileSystem) (options : ValidateOptions) (calls : List FeedCall) :
    Report :=
  finish fs options (feedAll rt options calls)

/-- The report with the events and the source lines that were retained. -/
def snapshotOf (rt : Runtime) (fs : FileSystem) (options : ValidateOptions)
    (calls : List FeedCall) : ValidatedRun :=
  let v := feedAll rt options calls
  ⟨finish fs options v, v.books.accepted, v.books.source⟩

/-! ### Run directories -/

/-- One entry of the events directory: fed, refused, or gone. -/
inductive EventFile where
  | fed (call : FeedCall)
  | refused (d : Diagnostic)
  | gone

def readEventFile (fs : FileSystem) (file : Text) : EventFile :=
  match fs.entryKind file with
  | .missing => .gone
  | .directory => .refused (refuseEntry file .directory false)
  | .symlink => .refused (refuseEntry file .symlink false)
  | .special => .refused (refuseEntry file .special false)
  | .file =>
      match fs.openRegular file with
      | .error .missing => .gone
      | .error kind => .refused (refuseEntry file kind false)
      | .ok opened => .fed ⟨lines opened.text, file, true⟩

/-- One turn of the loop over the event files. -/
def feedEventFile (rt : Runtime) (options : ValidateOptions) (fs : FileSystem) (v : RunValidator)
    (file : Text) : RunValidator :=
  match readEventFile fs file with
  | .fed call => feed rt options v call
  | .refused d => { v with diagnostics := v.diagnostics ++ [d] }
  | .gone => v

/-- The event files of a run directory, in the order they are fed. -/
def eventFiles (fs : FileSystem) (eventsDir : Text) : List Text :=
  (sortBy compare ((fs.readdir eventsDir).filter (fun f => endsWith f (txt ".ndjson")))).map
    (joinPath eventsDir)

/-- The options with the attachments directory of a run directory. -/
def directoryOptions (fs : FileSystem) (dir : Text) (options : ValidateOptions) : ValidateOptions :=
  { options with
    attachmentsDir := some (match options.attachmentsDir with
      | none => joinPath dir (txt "attachments")
      | some given => trustedDirectory fs given) }

/-- `validateRunDirectorySnapshot(dir, options)`; `none` when it throws for a missing events
directory. -/
def validateRunDirectorySnapshot (rt : Runtime) (fs : FileSystem) (dir : Text)
    (options : ValidateOptions) : Option ValidatedRun :=
  let eventsDir := joinPath dir (txt "events")
  let options := directoryOptions fs dir options
  match fs.entryKind eventsDir with
  | .missing => none
  | .directory =>
      let v := (eventFiles fs eventsDir).foldl (feedEventFile rt options fs) RunValidator.start
      some ⟨finish fs options v, v.books.accepted, v.books.source⟩
  | kind =>
      let v : RunValidator := ⟨.start, [refuseEntry eventsDir kind true]⟩
      some ⟨finish fs options v, v.books.accepted, []⟩

/-! ### Runs to evaluate -/

namespace Sample

/-- The parser reads one JSON value, and the schema accepts; the events below are valid by it. -/
def runtime : Runtime where
  parse t := ((parseJson t).map Except.ok).getD (.error [])
  validate _ _ := none
  sha256 := Sha256.digest

/-- No file at all. -/
def noFiles : FileSystem where
  entryKind _ := .missing
  openRegular _ := .error .missing
  realpath _ := none
  readdir _ := []

def options : ValidateOptions where
  attachmentsDir := none
  requireComplete := false
  maxEventBytes := none
  retainEvents := true
  retainSourceLines := true

/-- An event of a session of one run. -/
def event (session : String) (sequence : ℕ) (payload : Payload) : AnyEvent :=
  .known
    { protocolVersion := txt "0.3.0"
      eventId := txt session ++ natText sequence
      runId := txt "run"
      sessionId := txt session
      sequence := sequence
      occurredAt := txt "2026-01-01T00:00:00Z"
      ignorable := none
      payload := payload }

def sessionStarted : Payload :=
  .sessionStarted ⟨⟨txt "sdk", none⟩, none, none, none, none, none⟩

def sessionFinished : Payload := .sessionFinished ⟨none, none, none⟩

def attemptStarted (attempt execution : String) (number : ℕ) : Payload :=
  .attemptStarted ⟨txt attempt, number,
    ⟨txt execution, none, .unavailable, txt "adds", [], none, none, none⟩⟩

def attemptFinished (attempt : String) (status : Status) : Payload :=
  .attemptFinished ⟨txt attempt, status, none, none, none, none⟩

/-- The events of a session, numbered from `first` on. -/
def sessionFrom (session : String) : ℕ → List Payload → List AnyEvent
  | _, [] => []
  | first, p :: ps => event session first p :: sessionFrom session (first + 1) ps

/-- A file of events. -/
def file (name : String) (events : List AnyEvent) : FeedCall :=
  ⟨events.map stringifyEvent, txt name, true⟩

/-- A test that failed and passed when it was tried again. -/
def retried : FeedCall :=
  file "a" (sessionFrom "a" 1
    [sessionStarted, attemptStarted "t1" "t" 1, attemptFinished "t1" .failed,
      attemptStarted "t2" "t" 2, attemptFinished "t2" .passed, sessionFinished, .runFinished])

/-- Two sessions side by side, the second one ending the run. -/
def forked : List FeedCall :=
  [file "a" (sessionFrom "a" 1
      [sessionStarted, attemptStarted "t1" "t" 1, attemptFinished "t1" .failed,
        sessionFinished]),
    file "b" (sessionFrom "b" 1
      [sessionStarted, attemptStarted "t2" "t" 2, attemptFinished "t2" .passed,
        sessionFinished, .runFinished])]

/-- An attempt started in session `z` that session `a` finishes. -/
def crossed : List FeedCall :=
  [file "1" (sessionFrom "z" 1
      [sessionStarted, attemptStarted "t1" "t" 1]),
    file "2" (sessionFrom "a" 1
      [sessionStarted, attemptFinished "t1" .passed, sessionFinished]),
    file "3" (sessionFrom "z" 3 [sessionFinished])]

end Sample

end QeReport

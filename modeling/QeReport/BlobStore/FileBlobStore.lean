import QeReport.Lib.Disk
import QeReport.Lib.Json

/-! # The blob store on a filesystem

`FileBlobStore`, one system call at a time.  Several processes work on one root that only the
operations of this store touch: `put` copies a source into a temporary file, hashes and counts it
on the way, and links it under its hash; `verify` reads an object in full; `removeObject` reads
it in full, looks whether the entry is still that file, and unlinks it; `removeTemporaryFile`
unlinks what a writer left behind.  A process may stop between any two calls, and any call may
fail with an error of the operating system.

The directories of the layout are not modelled: under such a root they are missing or real, and
`checkObjectDirectories` and `ensureDirectory` refuse neither. -/

namespace QeReport

namespace BlobStore

/-- Where an entry sits under the root. -/
inductive Place where
  | temporary (name : Text)
  | object (sha256 : Text)
deriving DecidableEq

/-! ### Failures -/

inductive BlobStoreErrorCode where
  | invalidSha256
  | invalidSize
  | blobTooLarge
  | sourceMissing
  | sourceNotRegular
  | sourceSizeMismatch
  | sourceHashMismatch
  | blobMissing
  | blobSizeMismatch
  | blobHashMismatch
  | publishMismatch
  | blobChanged
  | invalidTemporaryName
deriving DecidableEq

structure BlobStoreError where
  code : BlobStoreErrorCode
  message : Text
  sha256 : Option Text
deriving DecidableEq

/-- What an operation throws: an error of the store, or one of the operating system. -/
inductive Failure where
  | store (e : BlobStoreError)
  | operational
deriving DecidableEq

def failure (code : BlobStoreErrorCode) (message : Text) (sha256 : Option Text) : Failure :=
  .store ⟨code, message, sha256⟩

def noObject (hash : Text) : Failure :=
  failure .blobMissing (txt "no object for " ++ hash) (some hash)

def sourceSizeMismatch (size : ℤ) (has : Text) (hash : Text) : Failure :=
  failure .sourceSizeMismatch (txt "declared " ++ intText size ++ txt " bytes, source has " ++ has)
    (some hash)

/-! ### The platform -/

/-- What the store asks of its platform and its operator. -/
structure Platform where
  /-- `createHash('sha256')`, in lower-case hexadecimal. -/
  sha256 : List ℕ → Text
  /-- The draws of `randomBytes(16).toString('hex')`, over all processes. -/
  randomName : ℕ → Text
  /-- The device and inode number that `stat` reports for a file. -/
  inode : ℕ → ℕ
  maxBlobBytes : ℤ

/-- The files under the root, and the number of names drawn so far. -/
structure World where
  disk : Disk Place
  draws : ℕ

namespace World

/-- The temporary name of the next draw. -/
def nextName (rt : Platform) (w : World) : Text := rt.randomName w.draws ++ txt ".part"

def withDisk (w : World) (d : Disk Place) : World := { w with disk := d }

/-- `unlinkSync(path)`. -/
def unlink (w : World) (p : Place) : World := w.withDisk (w.disk.unlink p)

end World

def isHexDigit (u : CodeUnit) : Bool :=
  (unit '0' ≤ u && u ≤ unit '9') || (unit 'a' ≤ u && u ≤ unit 'f')

/-- `isSha256(value)`. -/
def isSha256 (t : Text) : Bool := t.length = 64 && t.all isHexDigit

def invalidSha256 : Failure :=
  failure .invalidSha256
    (txt "a blob is addressed by its full lower-case hex SHA-256 (64 characters)") none

/-- `checkSize(value, sha256)` admits the size. -/
def isSize (size : ℤ) : Bool := 0 ≤ size && size ≤ 9007199254740991

def invalidSize (hash : Text) : Failure :=
  failure .invalidSize (txt "a blob size is a non-negative byte count") (some hash)

/-- `TEMPORARY_NAME.test(name)`. -/
def isTemporaryName (t : Text) : Bool :=
  t.length = 37 && (t.take 32).all isHexDigit && t.drop 32 = txt ".part"

/-! ### Reading an object in full -/

/-- `openObject` with the size check and `sha256Fd` after it. -/
inductive Look where
  | opening
  | stating (file : ℕ)
  | reading (file : ℕ) (read : List ℕ)
  | verified (file : ℕ)
  | failed (e : Failure)

inductive Look.Step (rt : Platform) (hash : Text) (size : Option ℤ) (d : Disk Place) :
    Look → Look → Prop where
  | missing : d.entry (.object hash) = none → Step rt hash size d .opening (.failed (noObject hash))
  | opened {f : ℕ} : d.entry (.object hash) = some f → Step rt hash size d .opening (.stating f)
  | wrongSize {f : ℕ} {n : ℤ} : size = some n → n ≠ (d.content f).length →
      Step rt hash size d (.stating f) (.failed (failure .blobSizeMismatch
        (txt "object should be " ++ intText n ++ txt " bytes and is " ++
          natText (d.content f).length) (some hash)))
  | rightSize {f : ℕ} : (∀ n, size = some n → n = (d.content f).length) →
      Step rt hash size d (.stating f) (.reading f [])
  | chunk {f : ℕ} {read : List ℕ} (n : ℕ) : 0 < n → read.length < (d.content f).length →
      Step rt hash size d (.reading f read)
        (.reading f (read ++ ((d.content f).drop read.length).take n))
  | wrongHash {f : ℕ} {read : List ℕ} : (d.content f).length ≤ read.length →
      rt.sha256 read ≠ hash →
      Step rt hash size d (.reading f read) (.failed (failure .blobHashMismatch
        (txt "object hashes to " ++ rt.sha256 read) (some hash)))
  | rightHash {f : ℕ} {read : List ℕ} : (d.content f).length ≤ read.length →
      rt.sha256 read = hash → Step rt hash size d (.reading f read) (.verified f)
  | openFails : Step rt hash size d .opening (.failed .operational)
  | statFails {f : ℕ} : Step rt hash size d (.stating f) (.failed .operational)
  | readFails {f : ℕ} {read : List ℕ} : Step rt hash size d (.reading f read) (.failed .operational)

/-! ### put -/

/-- The declaration of a source; what its path holds is for the file system to say. -/
structure BlobSource where
  sha256 : Text
  sizeBytes : ℤ
deriving DecidableEq

inductive PutOutcome where
  | stored
  | existing
deriving DecidableEq

/-- `storageKey(hash)`. -/
def storageKey (hash : Text) : Text :=
  txt "sha256/" ++ hash.take 2 ++ txt "/" ++ (hash.drop 2).take 2 ++ txt "/" ++ hash

/-- What a `put` is about to do.  `race` is the temporary name of a `put` that lost the link to
another writer and looks for what that one published. -/
inductive Put where
  | start
  | inspecting (race : Option Text)
  | looking (race : Option Text) (look : Look)
  | preparing
  | creating
  | copying (temp : Text) (file : ℕ) (hashed pending : List ℕ)
  | linking (temp : Text) (file : ℕ)
  | lost (temp : Text)
  | confirming (temp : Text) (file : ℕ)
  | clearing (temp : Text)
  | abandoning (temp : Text) (e : Failure)
  | returned (outcome : PutOutcome)
  | thrown (e : Failure)

/-- Where an error of `put` leads: once the temporary file exists, the handler removes it. -/
def Put.fails (e : Failure) : Option Text → Put
  | none => .thrown e
  | some temp => .abandoning temp e

/-- Why `put` refuses its declaration. -/
def refusal (rt : Platform) (source : BlobSource) : Option Failure :=
  if !isSha256 source.sha256 then some invalidSha256
  else if !isSize source.sizeBytes then some (invalidSize source.sha256)
  else if rt.maxBlobBytes < source.sizeBytes then
    some (failure .blobTooLarge (txt "declared " ++ intText source.sizeBytes ++
      txt " bytes, the store accepts at most " ++ intText rt.maxBlobBytes) (some source.sha256))
  else none

/-- What the path of the source turns out to be. -/
inductive SourceKind where
  | missing
  | notRegular (description : Text)
  | file (size : ℕ)
deriving DecidableEq

/-- Why the source is not copied. -/
def sourceRefusal (source : BlobSource) : SourceKind → Option Failure
  | .missing => some (failure .sourceMissing (txt "no regular file at the attachment source")
      (some source.sha256))
  | .notRegular description => some (failure .sourceNotRegular (txt "the attachment source is " ++
      description ++ txt "; only regular files are read") (some source.sha256))
  | .file size =>
      if source.sizeBytes < size then
        some (sourceSizeMismatch source.sizeBytes (natText size) source.sha256)
      else none

/-- Why the copied bytes are not published. -/
def copyRefusal (rt : Platform) (source : BlobSource) (copied : List ℕ) : Option Failure :=
  if source.sizeBytes ≠ copied.length then
    some (sourceSizeMismatch source.sizeBytes (natText copied.length) source.sha256)
  else if rt.sha256 copied ≠ source.sha256 then
    some (failure .sourceHashMismatch (txt "declared " ++ source.sha256 ++
      txt ", source hashes to " ++ rt.sha256 copied) (some source.sha256))
  else none

def publishedElsewhere (hash : Text) : Failure :=
  failure .publishMismatch (txt "published entry is not the verified file") (some hash)

inductive Put.Step (rt : Platform) (source : BlobSource) : World → Put → World → Put → Prop where
  | refused {w : World} {e : Failure} : refusal rt source = some e →
      Step rt source w .start w (.thrown e)
  | admitted {w : World} : refusal rt source = none → Step rt source w .start w (.inspecting none)
  -- `existing`: the kind of the entry, then the object itself
  | absent {w : World} : w.disk.entry (.object source.sha256) = none →
      Step rt source w (.inspecting none) w .preparing
  | vanished {w : World} {temp : Text} : w.disk.entry (.object source.sha256) = none →
      Step rt source w (.inspecting (some temp)) w (.abandoning temp
        (failure .blobMissing (txt "object vanished after a race") (some source.sha256)))
  | present {w : World} {race : Option Text} : w.disk.has (.object source.sha256) = true →
      Step rt source w (.inspecting race) w (.looking race .opening)
  | inspectFails {w : World} {race : Option Text} :
      Step rt source w (.inspecting race) w (Put.fails .operational race)
  | looks {w : World} {race : Option Text} {l l' : Look} :
      Look.Step rt source.sha256 (some source.sizeBytes) w.disk l l' →
      Step rt source w (.looking race l) w (.looking race l')
  | found {w : World} {race : Option Text} {f : ℕ} :
      Step rt source w (.looking race (.verified f)) w (.returned .existing)
  | notFound {w : World} {race : Option Text} {e : Failure} :
      Step rt source w (.looking race (.failed e)) w (Put.fails e race)
  -- the source is opened, the temporary file created
  | sourceRefused {w : World} {kind : SourceKind} {e : Failure} :
      sourceRefusal source kind = some e → Step rt source w .preparing w (.thrown e)
  | sourceOpened {w : World} {kind : SourceKind} : sourceRefusal source kind = none →
      Step rt source w .preparing w .creating
  | prepareFails {w : World} : Step rt source w .preparing w (.thrown .operational)
  | created {w : World} {d : Disk Place} :
      w.disk.create (.temporary (w.nextName rt)) = some d →
      Step rt source w .creating ⟨d, w.draws + 1⟩
        (.copying (w.nextName rt) w.disk.created [] [])
  | createFails {w : World} :
      Step rt source w .creating ⟨w.disk, w.draws + 1⟩ (.thrown .operational)
  -- `copyAndHash`: a chunk is hashed, then written piece by piece
  | chunk {w : World} {temp : Text} {f : ℕ} {hashed : List ℕ} (bytes : List ℕ) :
      ((hashed ++ bytes).length : ℤ) ≤ source.sizeBytes →
      Step rt source w (.copying temp f hashed []) w (.copying temp f (hashed ++ bytes) bytes)
  | tooLong {w : World} {temp : Text} {f : ℕ} {hashed : List ℕ} (bytes : List ℕ) :
      source.sizeBytes < (hashed ++ bytes).length →
      Step rt source w (.copying temp f hashed []) w (.abandoning temp
        (sourceSizeMismatch source.sizeBytes (txt "more") source.sha256))
  | wrote {w : World} {temp : Text} {f : ℕ} {hashed pending : List ℕ} (n : ℕ) : 0 < n →
      n ≤ pending.length → Step rt source w (.copying temp f hashed pending)
        (w.withDisk (w.disk.append f (pending.take n)))
        (.copying temp f hashed (pending.drop n))
  | copyFails {w : World} {temp : Text} {f : ℕ} {hashed pending : List ℕ} :
      Step rt source w (.copying temp f hashed pending) w (.abandoning temp .operational)
  | mismatched {w : World} {temp : Text} {f : ℕ} {hashed : List ℕ} {e : Failure} :
      copyRefusal rt source hashed = some e →
      Step rt source w (.copying temp f hashed []) w (.abandoning temp e)
  | copied {w : World} {temp : Text} {f : ℕ} {hashed : List ℕ} :
      copyRefusal rt source hashed = none →
      Step rt source w (.copying temp f hashed []) w (.linking temp f)
  -- publication
  | linked {w : World} {temp : Text} {f : ℕ} {d : Disk Place} :
      w.disk.link (.temporary temp) (.object source.sha256) = some d →
      Step rt source w (.linking temp f) (w.withDisk d) (.confirming temp f)
  | taken {w : World} {temp : Text} {f : ℕ} : w.disk.has (.object source.sha256) = true →
      Step rt source w (.linking temp f) w (.lost temp)
  | linkFails {w : World} {temp : Text} {f : ℕ} :
      Step rt source w (.linking temp f) w (.abandoning temp .operational)
  | gaveWay {w : World} {temp : Text} :
      Step rt source w (.lost temp) (w.unlink (.temporary temp)) (.inspecting (some temp))
  | giveWayFails {w : World} {temp : Text} :
      Step rt source w (.lost temp) w (.abandoning temp .operational)
  | unpublished {w : World} {temp : Text} {f : ℕ} :
      w.disk.entry (.object source.sha256) = none →
      Step rt source w (.confirming temp f) w (.abandoning temp
        (failure .publishMismatch (txt "published entry is missing") (some source.sha256)))
  | replaced {w : World} {temp : Text} {f g : ℕ} :
      w.disk.entry (.object source.sha256) = some g →
      (rt.inode g ≠ rt.inode f ∨ source.sizeBytes ≠ (w.disk.content g).length) →
      Step rt source w (.confirming temp f) w
        (.abandoning temp (publishedElsewhere source.sha256))
  | confirmed {w : World} {temp : Text} {f g : ℕ} :
      w.disk.entry (.object source.sha256) = some g → rt.inode g = rt.inode f →
      source.sizeBytes = (w.disk.content g).length →
      Step rt source w (.confirming temp f) w (.clearing temp)
  | confirmFails {w : World} {temp : Text} {f : ℕ} :
      Step rt source w (.confirming temp f) w (.abandoning temp .operational)
  | cleared {w : World} {temp : Text} :
      Step rt source w (.clearing temp) (w.unlink (.temporary temp)) (.returned .stored)
  | clearFails {w : World} {temp : Text} :
      Step rt source w (.clearing temp) w (.abandoning temp .operational)
  -- the handler: `removeQuietly(temp)`, then the error again
  | abandoned {w : World} {temp : Text} {e : Failure} :
      Step rt source w (.abandoning temp e) (w.unlink (.temporary temp)) (.thrown e)
  | abandonFails {w : World} {temp : Text} {e : Failure} :
      Step rt source w (.abandoning temp e) w (.thrown .operational)

/-! ### verify -/

inductive Verify where
  | start
  | inspecting
  | looking (look : Look)
  | returned
  | thrown (e : Failure)

inductive Verify.Step (rt : Platform) (hash : Text) (size : ℤ) (d : Disk Place) :
    Verify → Verify → Prop where
  | invalidHash : isSha256 hash = false → Step rt hash size d .start (.thrown invalidSha256)
  | invalidSize : isSha256 hash = true → isSize size = false →
      Step rt hash size d .start (.thrown (BlobStore.invalidSize hash))
  | admitted : isSha256 hash = true → isSize size = true → Step rt hash size d .start .inspecting
  | absent : d.entry (.object hash) = none →
      Step rt hash size d .inspecting (.thrown (noObject hash))
  | present : d.has (.object hash) = true → Step rt hash size d .inspecting (.looking .opening)
  | inspectFails : Step rt hash size d .inspecting (.thrown .operational)
  | looks {l l' : Look} : Look.Step rt hash (some size) d l l' →
      Step rt hash size d (.looking l) (.looking l')
  | found {f : ℕ} : Step rt hash size d (.looking (.verified f)) .returned
  | notFound {e : Failure} : Step rt hash size d (.looking (.failed e)) (.thrown e)

/-! ### removeObject -/

inductive RemoveOutcome where
  | removed
  | missing
deriving DecidableEq

inductive Remove where
  | start
  | inspecting
  | looking (look : Look)
  | rechecking (file : ℕ)
  | unlinking
  | returned (outcome : RemoveOutcome)
  | thrown (e : Failure)

inductive Remove.Step (rt : Platform) (hash : Text) (size : Option ℤ) :
    World → Remove → World → Remove → Prop where
  | invalidHash {w : World} : isSha256 hash = false →
      Step rt hash size w .start w (.thrown invalidSha256)
  | invalidSize {w : World} {n : ℤ} : isSha256 hash = true → size = some n → isSize n = false →
      Step rt hash size w .start w (.thrown (BlobStore.invalidSize hash))
  | admitted {w : World} : isSha256 hash = true → (∀ n, size = some n → isSize n = true) →
      Step rt hash size w .start w .inspecting
  | absent {w : World} : w.disk.entry (.object hash) = none →
      Step rt hash size w .inspecting w (.returned .missing)
  | present {w : World} : w.disk.has (.object hash) = true →
      Step rt hash size w .inspecting w (.looking .opening)
  | inspectFails {w : World} : Step rt hash size w .inspecting w (.thrown .operational)
  | looks {w : World} {l l' : Look} : Look.Step rt hash size w.disk l l' →
      Step rt hash size w (.looking l) w (.looking l')
  | read {w : World} {f : ℕ} : Step rt hash size w (.looking (.verified f)) w (.rechecking f)
  | notRead {w : World} {e : Failure} : Step rt hash size w (.looking (.failed e)) w (.thrown e)
  | gone {w : World} {f : ℕ} : w.disk.entry (.object hash) = none →
      Step rt hash size w (.rechecking f) w (.returned .missing)
  | changed {w : World} {f g : ℕ} : w.disk.entry (.object hash) = some g →
      rt.inode g ≠ rt.inode f → Step rt hash size w (.rechecking f) w (.thrown
        (failure .blobChanged (txt "the object changed while it was being read") (some hash)))
  | unchanged {w : World} {f g : ℕ} : w.disk.entry (.object hash) = some g →
      rt.inode g = rt.inode f → Step rt hash size w (.rechecking f) w .unlinking
  | recheckFails {w : World} {f : ℕ} :
      Step rt hash size w (.rechecking f) w (.thrown .operational)
  | unlinked {w : World} : w.disk.has (.object hash) = true →
      Step rt hash size w .unlinking (w.unlink (.object hash)) (.returned .removed)
  | unlinkFails {w : World} : Step rt hash size w .unlinking w (.thrown .operational)

/-! ### removeTemporaryFile -/

inductive RemoveTemporary where
  | start
  | inspecting
  | unlinking
  | returned (outcome : RemoveOutcome)
  | thrown (e : Failure)

inductive RemoveTemporary.Step (name : Text) :
    World → RemoveTemporary → World → RemoveTemporary → Prop where
  | refused {w : World} : isTemporaryName name = false →
      Step name w .start w (.thrown (failure .invalidTemporaryName
        (txt "only a temporary file this store generated can be named") none))
  | admitted {w : World} : isTemporaryName name = true → Step name w .start w .inspecting
  | absent {w : World} : w.disk.entry (.temporary name) = none →
      Step name w .inspecting w (.returned .missing)
  | present {w : World} : w.disk.has (.temporary name) = true →
      Step name w .inspecting w .unlinking
  | inspectFails {w : World} : Step name w .inspecting w (.thrown .operational)
  | unlinked {w : World} : w.disk.has (.temporary name) = true →
      Step name w .unlinking (w.unlink (.temporary name)) (.returned .removed)
  | gone {w : World} : w.disk.entry (.temporary name) = none →
      Step name w .unlinking w (.returned .missing)
  | unlinkFails {w : World} : Step name w .unlinking w (.thrown .operational)

/-! ### Processes on one root -/

/-- A call of the store and what it is about to do. -/
inductive Process where
  | put (source : BlobSource) (at_ : Put)
  | verify (hash : Text) (size : ℤ) (at_ : Verify)
  | remove (hash : Text) (size : Option ℤ) (at_ : Remove)
  | removeTemporary (name : Text) (at_ : RemoveTemporary)
  | stopped

inductive Process.Step (rt : Platform) : World → Process → World → Process → Prop where
  | put {w w' : World} {source : BlobSource} {p p' : Put} : Put.Step rt source w p w' p' →
      Process.Step rt w (.put source p) w' (.put source p')
  | verify {w : World} {hash : Text} {size : ℤ} {p p' : Verify} :
      Verify.Step rt hash size w.disk p p' →
      Process.Step rt w (.verify hash size p) w (.verify hash size p')
  | remove {w w' : World} {hash : Text} {size : Option ℤ} {p p' : Remove} :
      Remove.Step rt hash size w p w' p' →
      Process.Step rt w (.remove hash size p) w' (.remove hash size p')
  | removeTemporary {w w' : World} {name : Text} {p p' : RemoveTemporary} :
      RemoveTemporary.Step name w p w' p' →
      Process.Step rt w (.removeTemporary name p) w' (.removeTemporary name p')
  | stops {w : World} {p : Process} : Process.Step rt w p w .stopped

/-- A process that has just been called. -/
def Process.begins : Process → Bool
  | .put _ .start | .verify _ _ .start | .remove _ _ .start | .removeTemporary _ .start => true
  | _ => false

/-- The calls on a root, in the order in which they began. -/
structure System where
  world : World
  processes : List Process

namespace System

/-- An empty root. -/
def initial : System := ⟨⟨Disk.empty, 0⟩, []⟩

/-- A new call, or one system call of one process. -/
inductive Step (rt : Platform) : System → System → Prop where
  | call {s : System} (p : Process) : p.begins = true →
      Step rt s { s with processes := s.processes ++ [p] }
  | advance {s : System} {w : World} {p p' : Process} (k : ℕ) : s.processes[k]? = some p →
      Process.Step rt s.world p w p' → Step rt s ⟨w, s.processes.set k p'⟩

/-- The states of a run, the last one first. -/
inductive Run (rt : Platform) : List System → Prop where
  | initial : Run rt [initial]
  | step {s s' : System} {past : List System} : Run rt (s :: past) → Step rt s s' →
      Run rt (s' :: s :: past)

end System

end BlobStore

end QeReport

import QeReport.BlobStore.ObjectListing
import QeReport.Lib.Double

/-! # The byte budget of a maintenance pass

The blob phases of `RetentionMaintenance.pass`.  The first hands the catalogued blobs that no run
references to `reclaim`, the second enumerates the store for old objects the catalog does not
know; both draw on one budget of bytes, each has a limit of its own, and the first blob of a pass
is examined however large it is.  What the database and the store answer to a deletion is a
parameter, sizes are the doubles JavaScript computes with, and no other writer is at work. -/

namespace QeReport

open BlobStore

namespace Maintenance

/-! ### Options -/

structure MaintenanceOptions where
  maxBlobs : Option ℤ
  afterSha256 : Option Text
  /-- The time value of `orphanObjectsBefore`. -/
  orphanObjectsBefore : Option ℤ
  maxUncataloguedBlobs : Option ℤ
  maxBytesExamined : Option ℤ

/-- `limit(value, fallback, name)` of a whole number, with the message of its `TypeError`. -/
def limit (value : Option ℤ) (fallback : ℕ) (name : String) : Except Text ℕ :=
  match value with
  | none => .ok fallback
  | some v =>
    if 9007199254740991 < v ∨ v < 1 then
      .error (txt name ++ txt " must be a whole number of at least one")
    else .ok v.toNat

structure Limits where
  blobs : ℕ
  uncatalogued : ℕ
  bytes : ℕ
deriving DecidableEq

/-- The checks of `pass` on the options of its blob phases. -/
def checkOptions (options : MaintenanceOptions) : Except Text Limits := do
  let blobs ← limit options.maxBlobs 500 "maxBlobs"
  let uncatalogued ← limit options.maxUncataloguedBlobs 500 "maxUncataloguedBlobs"
  let bytes ← limit options.maxBytesExamined (2 * 1024 * 1024 * 1024) "maxBytesExamined"
  if options.afterSha256.any (fun a => !isSha256 a) then
    throw (txt "afterSha256 must be 64 lower-case hex characters")
  return ⟨blobs, uncatalogued, bytes⟩

/-! ### The archive -/

/-- A row of `qe_blobs`; the size is a `bigint` that is not negative. -/
structure BlobRow where
  sha256 : Text
  sizeBytes : ℕ
deriving DecidableEq

structure Catalog where
  blobs : List BlobRow
  /-- The column `sha256` of `qe_run_blobs`. -/
  runBlobs : List Text
  primaryKey : (blobs.map (·.sha256)).Nodup

namespace Catalog

/-- The unreferenced blobs after the cursor, in hash order; the digits of a hash collate as their
codes do. -/
def unreferenced (c : Catalog) (after : Option Text) : List BlobRow :=
  sortBy (fun a b => compareNames a.sha256 b.sha256)
    (c.blobs.filter (fun b =>
      !c.runBlobs.contains b.sha256 && after.all (fun a => decide (a < b.sha256))))

/-- `DELETE FROM qe_blobs`, guarded against a relation; nothing when no row was deleted. -/
def delete (c : Catalog) (sha256 : Text) : Option Catalog :=
  if (c.blobs.map (·.sha256)).contains sha256 && !c.runBlobs.contains sha256 then
    some { c with
      blobs := c.blobs.filter (fun b => b.sha256 ≠ sha256)
      primaryKey := c.primaryKey.sublist (List.filter_sublist.map _) }
  else none

end Catalog

structure Archive where
  catalog : Catalog
  root : Root

/-! ### reclaim -/

/-- `Number(n)` of a whole number. -/
def number (n : ℕ) : ℚ := double ((n : ℤ) : ℚ)

inductive Origin where
  | catalogued
  | uncatalogued
deriving DecidableEq

/-- What is handed to `reclaim`. -/
structure Candidate where
  sha256 : Text
  sizeBytes : ℚ
  origin : Origin
deriving DecidableEq

inductive ReclaimOutcome where
  | removed
  | planned
  | objectAbsent
  | objectRetained
deriving DecidableEq

structure ReclaimedBlob where
  blob : Candidate
  outcome : ReclaimOutcome
  catalogRowRemoved : Bool
deriving DecidableEq

inductive MaintenanceProblemCode where
  | blobUnsafe
  | blobDeleteFailed
  | catalogDeleteFailed
  | catalogRowRetained
  | blobChanged
  | casEntryUnsafe
deriving DecidableEq

structure MaintenanceProblem where
  code : MaintenanceProblemCode
  sha256 : Option Text
  path : Option Text
  message : Text
deriving DecidableEq

/-- What an operation of the store throws; an operational error may carry a code. -/
inductive Thrown where
  | store (e : BlobStoreError)
  | other (code : Option Text)

/-- What the store and the database answer to a pass. -/
structure Medium where
  /-- `verify(sha256, size)`: the error, or nothing when the object verifies. -/
  verify : Root → Text → ℚ → Option Thrown
  removeObject : Root → Text → ℚ → Except Thrown RemoveOutcome
  /-- The message of the error the deletion of a row fails with. -/
  deleteRow : Catalog → Text → Option Text

def safeMessage : Thrown → Text
  | .store e => e.message
  | .other none => txt "the object could not be removed"
  | .other (some code) => txt "the object could not be removed (" ++ code ++ txt ")"

def blobProblemCode : Thrown → MaintenanceProblemCode
  | .other _ => .blobDeleteFailed
  | .store e => if e.code = .blobChanged then .blobChanged else .blobUnsafe

def blobProblem (e : Thrown) (sha256 : Text) : MaintenanceProblem :=
  ⟨blobProblemCode e, some sha256, none, safeMessage e⟩

def casCode : CasProblemCode → Text
  | .malformedName => txt "MALFORMED_NAME"
  | .wrongShard => txt "WRONG_SHARD"
  | .notRegular => txt "NOT_REGULAR"
  | .unexpectedEntry => txt "UNEXPECTED_ENTRY"

def casProblem (problem : CasProblem) : MaintenanceProblem :=
  ⟨.casEntryUnsafe, none, some problem.path, casCode problem.code ++ txt ": " ++ problem.message⟩

section pass
variable (medium : Medium) (destructive : Bool)

/-- The end of `reclaim`, once the catalog has no row of the blob. -/
def removeBlob (a : Archive) (c : Candidate) (rowRemoved : Bool) :
    Archive × Option ReclaimedBlob × List MaintenanceProblem :=
  match medium.removeObject a.root c.sha256 c.sizeBytes with
  | .error e => (a, some ⟨c, .objectRetained, rowRemoved⟩, [blobProblem e c.sha256])
  | .ok .missing => (a, some ⟨c, .objectAbsent, rowRemoved⟩, [])
  | .ok .removed =>
    ({ a with root := a.root.unlink c.sha256 }, some ⟨c, .removed, rowRemoved⟩, [])

/-- `reclaim(db, sha256, sizeBytes, origin, destructive, problems)`. -/
def reclaim (a : Archive) (c : Candidate) :
    Archive × Option ReclaimedBlob × List MaintenanceProblem :=
  if !destructive then
    match medium.verify a.root c.sha256 c.sizeBytes with
    | none => (a, some ⟨c, .planned, false⟩, [])
    | some (.store e) =>
      if e.code = .blobMissing then (a, some ⟨c, .objectAbsent, false⟩, [])
      else (a, none, [blobProblem (.store e) c.sha256])
    | some e => (a, none, [blobProblem e c.sha256])
  else
    match c.origin with
    | .uncatalogued => removeBlob medium a c false
    | .catalogued =>
      match medium.deleteRow a.catalog c.sha256 with
      | some message => (a, none, [⟨.catalogDeleteFailed, some c.sha256, none, message⟩])
      | none =>
        match a.catalog.delete c.sha256 with
        | some catalog => removeBlob medium { a with catalog } c true
        | none => (a, none, [⟨.catalogRowRetained, some c.sha256, none,
            txt "a run referenced the blob while it was being reclaimed; nothing was removed"⟩])

/-! ### The pass -/

/-- The variables of the blob phases, with the blobs handed to `reclaim` so far. -/
structure Pass where
  archive : Archive
  blobs : List ReclaimedBlob
  problems : List MaintenanceProblem
  bytes : ℚ
  examined : ℕ
  truncated : Bool
  remaining : ℕ
  done : Bool
  handed : List Candidate

/-- The budget lets no other blob of the size be examined. -/
def Pass.exceeded (s : Pass) (size : ℚ) : Bool := 0 < s.examined && s.bytes < size

/-- The budget is charged, and the blob is handed to `reclaim`. -/
def Pass.examine (s : Pass) (c : Candidate) : Pass :=
  let (archive, blob, problems) := reclaim medium destructive s.archive c
  { s with
    archive
    blobs := s.blobs ++ blob.toList
    problems := s.problems ++ problems
    bytes := double (s.bytes - c.sizeBytes)
    examined := s.examined + 1
    handed := s.handed ++ [c] }

def cataloguedCandidate (row : BlobRow) : Candidate :=
  ⟨row.sha256, number row.sizeBytes, .catalogued⟩

def uncataloguedCandidate (object : ObjectEntry) : Candidate :=
  ⟨object.sha256, number object.sizeBytes, .uncatalogued⟩

/-- The loop over the rows of the first phase. -/
def cataloguedLoop : List BlobRow → Pass → Pass
  | [], s => s
  | row :: rest, s =>
    if s.exceeded (number row.sizeBytes) then { s with truncated := true }
    else cataloguedLoop rest (s.examine medium destructive (cataloguedCandidate row))

/-- The first phase: one row more than the limit is read. -/
def cataloguedPhase (limits : Limits) (after : Option Text) (a : Archive) : Pass :=
  let rows := (a.catalog.unreferenced after).take (limits.blobs + 1)
  cataloguedLoop medium destructive (rows.take limits.blobs)
    ⟨a, [], [], limits.bytes, 0, decide (limits.blobs < rows.length), limits.uncatalogued, false, []⟩

/-- The loop over the objects of a page. -/
def uncataloguedLoop (catalogued : List Text) (orphansBefore : Option ℤ) :
    List ObjectEntry → Pass → Pass
  | [], s => s
  | object :: rest, s =>
    if catalogued.contains object.sha256 then uncataloguedLoop catalogued orphansBefore rest s
    else if orphansBefore.all (fun t => decide (t ≤ object.modifiedAt)) then
      uncataloguedLoop catalogued orphansBefore rest s
    else if s.remaining = 0 || s.exceeded (number object.sizeBytes) then
      { s with truncated := true, done := true }
    else
      uncataloguedLoop catalogued orphansBefore rest
        ({ s with remaining := s.remaining - 1 }.examine medium destructive
          (uncataloguedCandidate object))

/-- One page of the second phase: the rows of its hashes are read, then its objects are gone
through. -/
def readPage (orphansBefore : Option ℤ) (page : ObjectListing) (s : Pass) : Pass :=
  let hashes := page.objects.map (·.sha256)
  let catalogued := (s.archive.catalog.blobs.map (·.sha256)).filter hashes.contains
  uncataloguedLoop medium destructive catalogued orphansBefore page.objects
    { s with problems := s.problems ++ page.problems.map casProblem }

/-- The second phase: what it ends with, and what a listing threw.  None when the steps do not
suffice. -/
def enumerate (orphansBefore : Option ℤ) :
    ℕ → Option Text → Pass → Option (Pass × Option ListingFailure)
  | 0, _, _ => none
  | fuel + 1, cursor, s =>
    if s.done then some (s, none)
    else
      match listObjects s.archive.root (some 200) cursor with
      | .error e => some (s, some e)
      | .ok page =>
        let s := readPage medium destructive orphansBefore page s
        if s.done then some (s, none)
        else
          match page.next with
          | none => some ({ s with done := true }, none)
          | some next => enumerate orphansBefore fuel (some next) s

/-- The blob phases of `pass`. -/
def blobPhases (limits : Limits) (after : Option Text) (orphansBefore : Option ℤ) (a : Archive)
    (fuel : ℕ) : Option (Pass × Option ListingFailure) :=
  enumerate medium destructive orphansBefore fuel none
    { cataloguedPhase medium destructive limits after a with done := orphansBefore.isNone }

end pass

/-! ### Numbers -/

theorem number_of_lt {n : ℕ} (h : n < 2 ^ 53) : number n = n := by
  rw [number, double_of_lt (by rw [Nat.abs_cast]; exact_mod_cast h), Int.cast_natCast]

theorem le_number {n : ℕ} (h : 2 ^ 53 ≤ n) : (2 : ℚ) ^ 53 ≤ number n := by
  have hle := le_double (i := n) (by rw [Nat.abs_cast]; exact_mod_cast h)
  rwa [abs_of_nonneg (double_nonneg (by positivity))] at hle

theorem number_nonneg (n : ℕ) : 0 ≤ number n := double_nonneg (by positivity)

/-- A size that is not above a whole number below `2 ^ 53` is exact. -/
theorem number_of_le {n m : ℕ} (hm : m < 2 ^ 53) (h : number n ≤ m) : number n = n ∧ n ≤ m := by
  have hn : n < 2 ^ 53 := by
    by_contra hlarge
    have hle := (le_number (not_lt.mp hlarge)).trans h
    have : 2 ^ 53 ≤ m := by exact_mod_cast hle
    exact absurd hm (not_lt.mpr this)
  rw [number_of_lt hn] at h
  exact ⟨number_of_lt hn, by exact_mod_cast h⟩

/-! ### The budget -/

def total (handed : List Candidate) : ℚ := (handed.map (·.sizeBytes)).sum

/-- The size of the first blob examined. -/
def firstSize (handed : List Candidate) : ℚ := (handed.head?.map (·.sizeBytes)).getD 0

theorem total_append (handed : List Candidate) (c : Candidate) :
    total (handed ++ [c]) = total handed + c.sizeBytes := by
  simp [total]

/-- What was handed to `reclaim` is accounted for: either it fits the budget and the rest of the
budget is left, or it is one blob that exceeds the budget. -/
structure Sound (maxBytes : ℕ) (s : Pass) : Prop where
  small : maxBytes < 2 ^ 53
  examined : s.examined = s.handed.length
  budget : (∃ left : ℕ, left ≤ maxBytes ∧ s.bytes = left ∧ left + total s.handed = maxBytes) ∨
    (s.bytes < 0 ∧ ∃ c, s.handed = [c])

section budget
variable {maxBytes : ℕ} {s : Pass}

theorem Sound.le_max (h : Sound maxBytes s) :
    total s.handed ≤ max (maxBytes : ℚ) (firstSize s.handed) := by
  rcases h.budget with ⟨left, -, -, hleft⟩ | ⟨-, c, hc⟩
  · apply le_max_of_le_left
    have : (0 : ℚ) ≤ left := Nat.cast_nonneg left
    linarith
  · apply le_max_of_le_right
    rw [hc]
    simp [total, firstSize]

/-- Examining a blob that the budget admits keeps the account. -/
theorem Sound.examine (h : Sound maxBytes s) (medium : Medium) (destructive : Bool) {c : Candidate}
    {n : ℕ} (hc : c.sizeBytes = number n) (hadmits : s.exceeded c.sizeBytes = false) :
    Sound maxBytes (s.examine medium destructive c) := by
  have hbytes : (s.examine medium destructive c).bytes = double (s.bytes - c.sizeBytes) := rfl
  have hhanded : (s.examine medium destructive c).handed = s.handed ++ [c] := rfl
  have hfirst : s.bytes < c.sizeBytes → s.handed = [] := by
    intro hlt
    by_contra hne
    have hpos : 0 < s.examined := by
      rw [h.examined]
      exact List.length_pos_of_ne_nil hne
    rw [Pass.exceeded, decide_eq_true hpos, decide_eq_true hlt] at hadmits
    cases hadmits
  refine ⟨h.small, ?_, ?_⟩
  · change s.examined + 1 = (s.handed ++ [c]).length
    rw [List.length_append, h.examined, List.length_singleton]
  rw [hbytes, hhanded, total_append]
  rcases h.budget with ⟨left, hmost, hleft, hsum⟩ | ⟨hneg, d, hd⟩
  · rcases lt_or_ge s.bytes c.sizeBytes with hlt | hge
    · -- the first blob may be larger than the whole budget
      have hnil := hfirst hlt
      obtain ⟨j, hj⟩ := double_whole n
      refine .inr ⟨?_, c, by rw [hnil, List.nil_append]⟩
      have hwhole : s.bytes - c.sizeBytes = ((left - j : ℤ) : ℚ) := by
        rw [hleft, hc, number, hj]
        push_cast
        ring
      rw [hwhole]
      apply double_neg
      rw [← sub_neg, hwhole] at hlt
      exact_mod_cast hlt
    · have hlarge : left < 2 ^ 53 := lt_of_le_of_lt hmost h.small
      rw [hleft, hc] at hge
      obtain ⟨hn, hle⟩ := number_of_le hlarge hge
      refine .inl ⟨left - n, (Nat.sub_le left n).trans hmost, ?_, ?_⟩
      · have hwhole : s.bytes - c.sizeBytes = ((left - n : ℤ) : ℚ) := by
          rw [hleft, hc, hn]
          push_cast
          ring
        rw [hwhole, double_of_lt (by rw [abs_lt]; omega)]
        push_cast [hle]
        ring
      · rw [hc, hn]
        push_cast [hle]
        linarith
  · have hlt : s.bytes < c.sizeBytes := lt_of_lt_of_le hneg (hc ▸ number_nonneg n)
    rw [hfirst hlt] at hd
    cases hd

end budget

/-! ### The phases -/

section phases
variable (medium : Medium) (destructive : Bool) {maxBytes : ℕ}

theorem removeBlob_root (a : Archive) (c : Candidate) (rowRemoved : Bool) :
    (removeBlob medium a c rowRemoved).1 = a ∨
      (removeBlob medium a c rowRemoved).1 = { a with root := a.root.unlink c.sha256 } := by
  unfold removeBlob
  split
  · exact .inl rfl
  · exact .inl rfl
  · exact .inr rfl

/-- `reclaim` unlinks at most the object it was handed. -/
theorem reclaim_root (a : Archive) (c : Candidate) :
    (reclaim medium destructive a c).1.root = a.root ∨
      (reclaim medium destructive a c).1.root = a.root.unlink c.sha256 := by
  have hremove (a : Archive) (rowRemoved : Bool) :
      (removeBlob medium a c rowRemoved).1.root = a.root ∨
        (removeBlob medium a c rowRemoved).1.root = a.root.unlink c.sha256 :=
    (removeBlob_root medium a c rowRemoved).imp (fun h => by rw [h]) (fun h => by rw [h])
  unfold reclaim
  by_cases hd : destructive = true
  · rw [if_neg (by simp [hd])]
    split
    · exact hremove a false
    · split
      · exact .inl rfl
      · split
        · exact hremove _ true
        · exact .inl rfl
  · rw [if_pos (by simp [hd])]
    split
    · exact .inl rfl
    · split_ifs
      · exact .inl rfl
      · exact .inl rfl
    · exact .inl rfl

theorem removeBlob_catalog (a : Archive) (c : Candidate) (rowRemoved : Bool) :
    (removeBlob medium a c rowRemoved).1.catalog = a.catalog := by
  rcases removeBlob_root medium a c rowRemoved with h | h
  · rw [h]
  · rw [h]

/-- An uncatalogued blob has no row to delete. -/
theorem reclaim_catalog (a : Archive) {c : Candidate} (hc : c.origin = .uncatalogued) :
    (reclaim medium destructive a c).1.catalog = a.catalog := by
  unfold reclaim
  rw [hc]
  by_cases hd : destructive = true
  · rw [if_neg (by simp [hd])]
    exact removeBlob_catalog medium a c false
  · rw [if_pos (by simp [hd])]
    split
    · rfl
    · split_ifs
      · rfl
      · rfl
    · rfl

theorem Catalog.mem_delete {c c' : Catalog} {sha256 hash : Text} (h : c.delete sha256 = some c')
    (hne : hash ≠ sha256) : hash ∈ c'.blobs.map (·.sha256) ↔ hash ∈ c.blobs.map (·.sha256) := by
  unfold Catalog.delete at h
  split_ifs at h
  cases h
  constructor
  · intro hmem
    obtain ⟨row, hrow, rfl⟩ := List.mem_map.mp hmem
    exact List.mem_map_of_mem (List.mem_of_mem_filter hrow)
  · intro hmem
    obtain ⟨row, hrow, rfl⟩ := List.mem_map.mp hmem
    exact List.mem_map_of_mem (List.mem_filter.mpr ⟨hrow, decide_eq_true hne⟩)

/-- `reclaim` touches nothing but the blob it was handed. -/
theorem reclaim_frame (a : Archive) {c : Candidate} {hash : Text} (hne : hash ≠ c.sha256) :
    (hash ∈ (reclaim medium destructive a c).1.catalog.blobs.map (·.sha256) ↔
      hash ∈ a.catalog.blobs.map (·.sha256)) ∧
    ∀ stat, (reclaim medium destructive a c).1.root.Holds hash stat ↔ a.root.Holds hash stat := by
  constructor
  · unfold reclaim
    by_cases hd : destructive = true
    · rw [if_neg (by simp [hd])]
      split
      · rw [removeBlob_catalog]
      · split
        · rfl
        · split
          · next hdelete =>
            rw [removeBlob_catalog]
            exact Catalog.mem_delete hdelete hne
          · rfl
    · rw [if_pos (by simp [hd])]
      split
      · rfl
      · split_ifs
        · rfl
        · rfl
      · rfl
  · intro stat
    rcases reclaim_root medium destructive a c with hroot | hroot
    · rw [hroot]
    · rw [hroot, holds_unlink]
      exact and_iff_left hne

theorem handed_mono (rows : List BlobRow) (s : Pass) {c : Candidate} (hc : c ∈ s.handed) :
    c ∈ (cataloguedLoop medium destructive rows s).handed := by
  induction rows generalizing s with
  | nil => exact hc
  | cons row rest ih =>
    unfold cataloguedLoop
    split_ifs
    · exact hc
    · exact ih _ (List.mem_append_left _ hc)

/-- The first phase touches nothing but the blobs it hands over. -/
theorem cataloguedLoop_frame (rows : List BlobRow) (s : Pass) {hash : Text}
    (hnot : ∀ c ∈ (cataloguedLoop medium destructive rows s).handed, c.sha256 ≠ hash) :
    (hash ∈ (cataloguedLoop medium destructive rows s).archive.catalog.blobs.map (·.sha256) ↔
      hash ∈ s.archive.catalog.blobs.map (·.sha256)) ∧
    ∀ stat, (cataloguedLoop medium destructive rows s).archive.root.Holds hash stat ↔
      s.archive.root.Holds hash stat := by
  induction rows generalizing s with
  | nil => exact ⟨Iff.rfl, fun _ => Iff.rfl⟩
  | cons row rest ih =>
    unfold cataloguedLoop at hnot ⊢
    by_cases hexceeded : s.exceeded (number row.sizeBytes) = true
    · rw [if_pos hexceeded]
      exact ⟨Iff.rfl, fun _ => Iff.rfl⟩
    · rw [if_neg hexceeded] at hnot ⊢
      obtain ⟨hcatalog, hholds⟩ := ih _ hnot
      have hne : hash ≠ (cataloguedCandidate row).sha256 :=
        (hnot _ (handed_mono medium destructive rest _ (List.mem_append_right _
          List.mem_cons_self))).symm
      obtain ⟨hcatalog', hholds'⟩ := reclaim_frame medium destructive s.archive hne
      exact ⟨hcatalog.trans hcatalog', fun stat => (hholds stat).trans (hholds' stat)⟩

theorem examine_safe {s : Pass} (h : s.archive.root.Safe) (c : Candidate) :
    (s.examine medium destructive c).archive.root.Safe := by
  change (reclaim medium destructive s.archive c).1.root.Safe
  rcases reclaim_root medium destructive s.archive c with hroot | hroot
  · rw [hroot]
    exact h
  · rw [hroot]
    exact h.unlink c.sha256

theorem examine_beyond (s : Pass) {c : Candidate} {cursor : Text} (h : c.sha256 ≤ cursor) :
    Pages.beyond ObjectEntry.sha256 (some cursor)
        (s.examine medium destructive c).archive.root.canonical =
      Pages.beyond ObjectEntry.sha256 (some cursor) s.archive.root.canonical := by
  change Pages.beyond ObjectEntry.sha256 (some cursor)
    (reclaim medium destructive s.archive c).1.root.canonical = _
  rcases reclaim_root medium destructive s.archive c with hroot | hroot
  · rw [hroot]
  · rw [hroot]
    exact beyond_unlink _ h

/-- The first phase examines the rows in order, and says so when it leaves some out. -/
theorem cataloguedLoop_spec (rows : List BlobRow) {s : Pass} (h : Sound maxBytes s) :
    ∃ examined left, rows = examined ++ left ∧
      (cataloguedLoop medium destructive rows s).handed =
        s.handed ++ examined.map cataloguedCandidate ∧
      ((cataloguedLoop medium destructive rows s).truncated = true ↔
        s.truncated = true ∨ left ≠ []) ∧
      (cataloguedLoop medium destructive rows s).remaining = s.remaining ∧
      (s.archive.root.Safe → (cataloguedLoop medium destructive rows s).archive.root.Safe) ∧
      Sound maxBytes (cataloguedLoop medium destructive rows s) := by
  induction rows generalizing s with
  | nil => exact ⟨[], [], rfl, by simp [cataloguedLoop], by simp [cataloguedLoop], rfl, id, h⟩
  | cons row rest ih =>
    unfold cataloguedLoop
    by_cases hexceeded : s.exceeded (number row.sizeBytes) = true
    · rw [if_pos hexceeded]
      exact ⟨[], row :: rest, rfl, by simp, by simp, rfl, id, h.small, h.examined, h.budget⟩
    · rw [if_neg hexceeded]
      obtain ⟨examined, left, hrows, hhanded, htruncated, hremaining, hsafe, hsound⟩ :=
        ih (h.examine medium destructive (c := cataloguedCandidate row) rfl
          (Bool.eq_false_iff.mpr hexceeded))
      refine ⟨row :: examined, left, by rw [hrows, List.cons_append], ?_, htruncated, hremaining,
        fun hs => hsafe (examine_safe medium destructive hs _), hsound⟩
      rw [hhanded]
      change s.handed ++ [cataloguedCandidate row] ++ _ = _
      rw [List.append_assoc, List.map_cons, List.singleton_append]

/-- The object is one of the second phase: the catalog does not know it and it is old enough. -/
def isOrphan (catalogued : List Text) (orphansBefore : Option ℤ) (o : ObjectEntry) : Bool :=
  !catalogued.contains o.sha256 && orphansBefore.any (fun t => decide (o.modifiedAt < t))

theorem all_le_iff {orphansBefore : Option ℤ} {t : ℤ} :
    orphansBefore.all (fun before => decide (before ≤ t)) = true ↔
      orphansBefore.any (fun before => decide (t < before)) = false := by
  cases orphansBefore with
  | none => simp
  | some before => simp

/-- A page is examined in order, and the phase is done when it leaves an orphan out. -/
structure PageRead (orphans : List ObjectEntry) (maxBytes : ℕ) (s s' : Pass)
    (examined left : List ObjectEntry) : Prop where
  split : orphans = examined ++ left
  handed : s'.handed = s.handed ++ examined.map uncataloguedCandidate
  truncated : s'.truncated = true ↔ s.truncated = true ∨ left ≠ []
  done : s'.done = true ↔ left ≠ []
  remaining : s'.remaining + examined.length = s.remaining
  catalog : s'.archive.catalog = s.archive.catalog
  safe : s.archive.root.Safe → s'.archive.root.Safe
  beyond : ∀ cursor, (∀ o ∈ orphans, o.sha256 ≤ cursor) →
    Pages.beyond ObjectEntry.sha256 (some cursor) s'.archive.root.canonical =
      Pages.beyond ObjectEntry.sha256 (some cursor) s.archive.root.canonical
  sound : Sound maxBytes s'

theorem uncataloguedLoop_spec (catalogued : List Text) (orphansBefore : Option ℤ)
    (objects : List ObjectEntry) {s : Pass} (h : Sound maxBytes s) (hdone : s.done = false) :
    ∃ examined left, PageRead (objects.filter (isOrphan catalogued orphansBefore)) maxBytes s
      (uncataloguedLoop medium destructive catalogued orphansBefore objects s) examined left := by
  induction objects generalizing s with
  | nil =>
    exact ⟨[], [], rfl, by simp [uncataloguedLoop], by simp [uncataloguedLoop],
      by simp [uncataloguedLoop, hdone], rfl, rfl, id, fun _ _ => rfl, h⟩
  | cons o rest ih =>
    unfold uncataloguedLoop
    by_cases hknown : catalogued.contains o.sha256 = true
    · have hnot : ¬ isOrphan catalogued orphansBefore o = true := by
        rw [isOrphan, hknown, Bool.not_true, Bool.false_and]
        exact Bool.false_ne_true
      rw [if_pos hknown, List.filter_cons_of_neg hnot]
      exact ih h hdone
    rw [if_neg hknown]
    by_cases hyoung : orphansBefore.all (fun t => decide (t ≤ o.modifiedAt)) = true
    · rw [if_pos hyoung, List.filter_cons_of_neg (by simp [isOrphan, all_le_iff.mp hyoung])]
      exact ih h hdone
    have horphan : isOrphan catalogued orphansBefore o = true := by
      rw [all_le_iff, Bool.not_eq_false] at hyoung
      rw [isOrphan, hyoung, Bool.eq_false_iff.mpr hknown]
      rfl
    rw [if_neg hyoung, List.filter_cons_of_pos horphan]
    by_cases hstop : (decide (s.remaining = 0) || s.exceeded (number o.sizeBytes)) = true
    · rw [if_pos hstop]
      exact ⟨[], o :: rest.filter _, rfl, by simp, by simp, by simp, rfl, rfl, id,
        fun _ _ => rfl, h.small, h.examined, h.budget⟩
    rw [if_neg hstop]
    rw [Bool.or_eq_true, decide_eq_true_iff, not_or] at hstop
    obtain ⟨hremaining, hadmits⟩ := hstop
    have hsound : Sound maxBytes { s with remaining := s.remaining - 1 } :=
      ⟨h.small, h.examined, h.budget⟩
    obtain ⟨examined, left, hread⟩ := ih (hsound.examine medium destructive
      (c := uncataloguedCandidate o) rfl (Bool.eq_false_iff.mpr hadmits)) hdone
    refine ⟨o :: examined, left, by rw [hread.split, List.cons_append], ?_, hread.truncated,
      hread.done, ?_, ?_, fun hs => hread.safe (examine_safe medium destructive
        (s := { s with remaining := s.remaining - 1 }) hs _), ?_, hread.sound⟩
    · rw [hread.handed]
      change s.handed ++ [uncataloguedCandidate o] ++ _ = _
      rw [List.append_assoc, List.map_cons, List.singleton_append]
    · have hleft := hread.remaining
      change _ = s.remaining - 1 at hleft
      rw [List.length_cons]
      omega
    · rw [hread.catalog]
      exact reclaim_catalog medium destructive s.archive (c := uncataloguedCandidate o) rfl
    · intro cursor hcursor
      rw [hread.beyond cursor fun o' ho' => hcursor o' (List.mem_cons_of_mem _ ho')]
      exact examine_beyond medium destructive { s with remaining := s.remaining - 1 }
        (hcursor o List.mem_cons_self)

/-- Among the objects of a page, the rows asked for tell what the whole catalog tells. -/
theorem filter_isOrphan (known : List Text) (orphansBefore : Option ℤ) (page : List ObjectEntry) :
    page.filter (isOrphan (known.filter (page.map (·.sha256)).contains) orphansBefore) =
      page.filter (isOrphan known orphansBefore) := by
  refine List.filter_congr fun o ho => ?_
  have hasked : o.sha256 ∈ page.map (·.sha256) := List.mem_map_of_mem ho
  have hcontains : (known.filter (page.map (·.sha256)).contains).contains o.sha256 =
      known.contains o.sha256 := by
    rw [Bool.eq_iff_iff, List.contains_iff_mem, List.contains_iff_mem, List.mem_filter,
      List.contains_iff_mem]
    exact and_iff_left hasked
  rw [isOrphan, isOrphan, hcontains]

theorem readPage_spec (orphansBefore : Option ℤ) (page : ObjectListing) {s : Pass}
    (h : Sound maxBytes s) (hdone : s.done = false) :
    ∃ examined left, PageRead (page.objects.filter
        (isOrphan (s.archive.catalog.blobs.map (·.sha256)) orphansBefore)) maxBytes s
      (readPage medium destructive orphansBefore page s) examined left := by
  have hstart : Sound maxBytes { s with problems := s.problems ++ page.problems.map casProblem } :=
    ⟨h.small, h.examined, h.budget⟩
  obtain ⟨examined, left, hread⟩ := uncataloguedLoop_spec medium destructive
    ((s.archive.catalog.blobs.map (·.sha256)).filter (page.objects.map (·.sha256)).contains)
    orphansBefore page.objects hstart hdone
  rw [filter_isOrphan] at hread
  exact ⟨examined, left, hread.split, hread.handed, hread.truncated, hread.done, hread.remaining,
    hread.catalog, hread.safe, hread.beyond, hread.sound⟩

/-- The second phase examines the orphans after its cursor in order, and says so when it leaves
some out. -/
structure Enumerated (orphans : List ObjectEntry) (maxBytes : ℕ) (s s' : Pass)
    (examined left : List ObjectEntry) : Prop where
  split : orphans = examined ++ left
  handed : s'.handed = s.handed ++ examined.map uncataloguedCandidate
  truncated : s'.truncated = true ↔ s.truncated = true ∨ left ≠ []
  remaining : s'.remaining + examined.length = s.remaining
  sound : Sound maxBytes s'

theorem enumerate_spec {objects : List ObjectEntry}
    (hobjects : Pages.Ascending ObjectEntry.sha256 objects)
    (hsha : ∀ o ∈ objects, isSha256 o.sha256 = true) (orphansBefore : Option ℤ)
    (cursor : Option Text) (hcursor : ∀ c, cursor = some c → ∃ o ∈ objects, c = o.sha256)
    {s : Pass} (h : Sound maxBytes s) (hdone : s.done = false) (hsafe : s.archive.root.Safe)
    (hrest : Pages.beyond ObjectEntry.sha256 cursor s.archive.root.canonical =
      Pages.beyond ObjectEntry.sha256 cursor objects) :
    ∃ s' examined left, Enumerated ((Pages.beyond ObjectEntry.sha256 cursor objects).filter
        (isOrphan (s.archive.catalog.blobs.map (·.sha256)) orphansBefore)) maxBytes s s'
        examined left ∧
      ∀ fuel, (Pages.beyond ObjectEntry.sha256 cursor objects).length < fuel →
        enumerate medium destructive orphansBefore fuel cursor s = some (s', none) := by
  induction hn : (Pages.beyond ObjectEntry.sha256 cursor objects).length using
    Nat.strong_induction_on generalizing cursor s with
  | _ n ih =>
    have hlimit : boundedLimit (some 200) = .ok 200 := rfl
    obtain ⟨page, hpage, hitems, hnext⟩ := listObjects_eq_ok hsafe hlimit fun a ha => by
      obtain ⟨o, ho, rfl⟩ := hcursor a ha
      exact hsha o ho
    rw [hrest] at hitems hnext
    obtain ⟨examined, left, hread⟩ := readPage_spec medium destructive orphansBefore page h hdone
    have hstep (fuel : ℕ) : enumerate medium destructive orphansBefore (fuel + 1) cursor s =
        let s' := readPage medium destructive orphansBefore page s
        if s'.done then some (s', none)
        else
          match page.next with
          | none => some ({ s' with done := true }, none)
          | some next => enumerate medium destructive orphansBefore fuel (some next) s' := by
      rw [enumerate, hdone, hpage]
      rfl
    generalize readPage medium destructive orphansBefore page s = s' at hread hstep
    rw [hitems] at hread
    have hsplit : (Pages.beyond ObjectEntry.sha256 cursor objects).filter
        (isOrphan (s.archive.catalog.blobs.map (·.sha256)) orphansBefore) =
          examined ++ (left ++ ((Pages.beyond ObjectEntry.sha256 cursor objects).drop 200).filter
            (isOrphan (s.archive.catalog.blobs.map (·.sha256)) orphansBefore)) := by
      rw [← List.append_assoc, ← hread.split, ← List.filter_append, List.take_append_drop]
    by_cases hleft : left = []
    · have hopen : s'.done = false := Bool.eq_false_iff.mpr fun hd => hread.done.mp hd hleft
      cases hc : page.next with
      | none =>
        have hshort := Pages.cursor_eq_none (by decide) (hnext.symm.trans hc)
        rw [List.take_of_length_le hshort] at hread
        refine ⟨{ s' with done := true }, examined, left, ⟨hread.split, hread.handed,
          hread.truncated, hread.remaining, hread.sound.small, hread.sound.examined,
          hread.sound.budget⟩, ?_⟩
        intro fuel hfuel
        cases fuel with
        | zero => exact absurd hfuel (Nat.not_lt_zero _)
        | succ fuel => simp only [hstep, hopen, hc, Bool.false_eq_true, if_false]
      | some c =>
        have hcursor' := hnext.symm.trans hc
        have hdrop := Pages.beyond_cursor hobjects hcursor'
        have hbeyond : Pages.beyond ObjectEntry.sha256 (some c) s'.archive.root.canonical =
            Pages.beyond ObjectEntry.sha256 (some c) objects := by
          rw [hread.beyond c fun o ho => Pages.le_cursor (hobjects.filter _) hcursor' o
            (List.mem_of_mem_filter ho), hdrop, ← hrest]
          exact Pages.beyond_cursor (canonical_ascending _) (hrest ▸ hcursor')
        obtain ⟨-, -, -, -, hlong⟩ := Pages.cursor_eq_some hcursor'
        have hless : (Pages.beyond ObjectEntry.sha256 (some c) objects).length < n := by
          rw [hdrop, List.length_drop, hn]
          omega
        obtain ⟨s'', examined', left', hread', hrun⟩ := ih _ hless (some c)
          (fun d hd => by
            obtain ⟨o, ho, hco⟩ := Pages.mem_of_cursor hcursor'
            exact ⟨o, (Pages.mem_beyond.mp ho).1, by rw [← Option.some.inj hd, hco]⟩)
          hread.sound hopen (hread.safe hsafe) hbeyond rfl
        rw [hread.catalog] at hread'
        refine ⟨s'', examined ++ examined', left', ⟨?_, ?_, ?_, ?_, hread'.sound⟩, ?_⟩
        · rw [hsplit, hleft, List.nil_append, ← hdrop, hread'.split, List.append_assoc]
        · rw [hread'.handed, hread.handed, List.map_append, List.append_assoc]
        · rw [hread'.truncated, hread.truncated, hleft]
          simp
        · have hfirst := hread.remaining
          have hsecond := hread'.remaining
          rw [List.length_append]
          omega
        · intro fuel hfuel
          cases fuel with
          | zero => exact absurd hfuel (Nat.not_lt_zero _)
          | succ fuel =>
            simp only [hstep, hopen, hc, Bool.false_eq_true, if_false]
            exact hrun fuel (by omega)
    · refine ⟨s', examined, _, ⟨hsplit, hread.handed, ?_, hread.remaining, hread.sound⟩, ?_⟩
      · rw [hread.truncated]
        exact or_congr_right (iff_of_true hleft (by simp [hleft]))
      · intro fuel hfuel
        cases fuel with
        | zero => exact absurd hfuel (Nat.not_lt_zero _)
        | succ fuel => simp only [hstep, hread.done.mpr hleft, if_true]

end phases

/-! ### What a pass leaves out -/

/-- A blob of the catalog that no run references, after the cursor. -/
def Catalog.Unreferenced (c : Catalog) (after : Option Text) (hash : Text) : Prop :=
  hash ∈ c.blobs.map (·.sha256) ∧ hash ∉ c.runBlobs ∧ ∀ a, after = some a → a < hash

/-- An object the catalog does not know, older than the cutoff. -/
def Archive.Orphan (a : Archive) (orphansBefore : Option ℤ) (hash : Text) : Prop :=
  hash ∉ a.catalog.blobs.map (·.sha256) ∧
    ∃ stat t, a.root.Holds hash stat ∧ orphansBefore = some t ∧ stat.mtime < t

/-- The blob was handed to `reclaim` by the phase of its origin. -/
def Pass.Examined (s : Pass) (origin : Origin) (hash : Text) : Prop :=
  ∃ c ∈ s.handed, c.origin = origin ∧ c.sha256 = hash

/-- Of a list without repetitions, something is left exactly when an entry was not taken. -/
theorem left_ne_nil_iff {α : Type} {key : α → Text} {l taken left : List α}
    (hl : l = taken ++ left) (hnodup : (l.map key).Nodup) :
    left ≠ [] ↔ ∃ a ∈ l, key a ∉ taken.map key := by
  subst hl
  rw [List.map_append] at hnodup
  constructor
  · intro hne
    obtain ⟨a, ha⟩ := List.exists_mem_of_ne_nil left hne
    refine ⟨a, List.mem_append_right _ ha, fun htaken => ?_⟩
    exact List.disjoint_of_nodup_append hnodup htaken (List.mem_map_of_mem ha)
  · rintro ⟨a, ha, hkey⟩ rfl
    rw [List.append_nil] at ha
    exact hkey (List.mem_map_of_mem ha)

theorem examined_iff {s : Pass} {origin : Origin} {hash : Text} :
    s.Examined origin hash ↔ hash ∈ (s.handed.filter (·.origin = origin)).map (·.sha256) := by
  simp only [Pass.Examined, List.mem_map, List.mem_filter, decide_eq_true_iff, and_assoc]

theorem filter_catalogued (rows : List BlobRow) (objects : List ObjectEntry) :
    (rows.map cataloguedCandidate ++ objects.map uncataloguedCandidate).filter
      (·.origin = .catalogued) = rows.map cataloguedCandidate := by
  rw [List.filter_append, List.filter_eq_self.mpr, List.filter_eq_nil_iff.mpr, List.append_nil]
  · intro c hc
    obtain ⟨o, -, rfl⟩ := List.mem_map.mp hc
    exact of_decide_eq_false rfl
  · intro c hc
    obtain ⟨row, -, rfl⟩ := List.mem_map.mp hc
    rfl

theorem filter_uncatalogued (rows : List BlobRow) (objects : List ObjectEntry) :
    (rows.map cataloguedCandidate ++ objects.map uncataloguedCandidate).filter
      (·.origin = .uncatalogued) = objects.map uncataloguedCandidate := by
  rw [List.filter_append, List.filter_eq_nil_iff.mpr, List.filter_eq_self.mpr, List.nil_append]
  · intro c hc
    obtain ⟨o, -, rfl⟩ := List.mem_map.mp hc
    rfl
  · intro c hc
    obtain ⟨row, -, rfl⟩ := List.mem_map.mp hc
    exact of_decide_eq_false rfl

theorem mem_unreferenced {c : Catalog} {after : Option Text} {hash : Text} :
    (∃ row ∈ c.unreferenced after, row.sha256 = hash) ↔ c.Unreferenced after hash := by
  have hafter : ∀ h : Text, after.all (fun a => decide (a < h)) = true ↔
      ∀ a, after = some a → a < h := by
    intro h
    cases after with
    | none => simp
    | some a => simp
  constructor
  · rintro ⟨row, hrow, rfl⟩
    obtain ⟨hmem, hcheck⟩ := List.mem_filter.mp (mem_sortBy.mp hrow)
    rw [Bool.and_eq_true, Bool.not_eq_true', hafter] at hcheck
    refine ⟨List.mem_map_of_mem hmem, fun hrun => ?_, hcheck.2⟩
    rw [List.contains_iff_mem.mpr hrun] at hcheck
    cases hcheck.1
  · rintro ⟨hmem, hrun, hlater⟩
    obtain ⟨row, hrow, rfl⟩ := List.mem_map.mp hmem
    refine ⟨row, mem_sortBy.mpr (List.mem_filter.mpr ⟨hrow, ?_⟩), rfl⟩
    rw [Bool.and_eq_true, Bool.not_eq_true', hafter]
    exact ⟨Bool.eq_false_iff.mpr fun h => hrun (List.contains_iff_mem.mp h), hlater⟩

theorem unreferenced_nodup (c : Catalog) (after : Option Text) :
    ((c.unreferenced after).map (·.sha256)).Nodup :=
  (((sortBy_perm _).map _).nodup_iff).mpr (c.primaryKey.sublist (List.filter_sublist.map _))

theorem orphan_iff {a : Archive} {orphansBefore : Option ℤ} {hash : Text} :
    (∃ o ∈ a.root.canonical.filter (isOrphan (a.catalog.blobs.map (·.sha256)) orphansBefore),
      o.sha256 = hash) ↔ a.Orphan orphansBefore hash := by
  constructor
  · rintro ⟨o, ho, rfl⟩
    obtain ⟨ho, horphan⟩ := List.mem_filter.mp ho
    obtain ⟨stat, hholds, heq⟩ := mem_canonical.mp ho
    rw [isOrphan, Bool.and_eq_true, Bool.not_eq_true', Option.any_eq_true] at horphan
    obtain ⟨hunknown, t, ht, hold⟩ := horphan
    refine ⟨fun hknown => ?_, stat, t, hholds, ht, ?_⟩
    · rw [List.contains_iff_mem.mpr hknown] at hunknown
      cases hunknown
    · rw [heq] at hold
      exact of_decide_eq_true hold
  · rintro ⟨hunknown, stat, t, hholds, ht, hold⟩
    refine ⟨objectEntry hash stat, List.mem_filter.mpr ⟨mem_canonical.mpr ⟨stat, hholds, rfl⟩, ?_⟩,
      rfl⟩
    rw [isOrphan, Bool.and_eq_true, Bool.not_eq_true', Option.any_eq_true]
    exact ⟨Bool.eq_false_iff.mpr fun h => hunknown (List.contains_iff_mem.mp h), t, ht,
      decide_eq_true hold⟩

section result
variable (medium : Medium) (destructive : Bool)

/-- The first phase hands over a beginning of the unreferenced blobs, and is truncated exactly
when one of them is left. -/
theorem cataloguedPhase_spec {limits : Limits} (hsmall : limits.bytes < 2 ^ 53)
    (after : Option Text) (a : Archive) :
    ∃ examined : List BlobRow, (cataloguedPhase medium destructive limits after a).handed =
        examined.map cataloguedCandidate ∧
      (∀ row ∈ examined, row ∈ a.catalog.unreferenced after) ∧
      examined.length ≤ limits.blobs ∧
      ((cataloguedPhase medium destructive limits after a).truncated = true ↔
        ∃ hash, a.catalog.Unreferenced after hash ∧ hash ∉ examined.map (·.sha256)) ∧
      (cataloguedPhase medium destructive limits after a).remaining = limits.uncatalogued ∧
      (a.root.Safe → (cataloguedPhase medium destructive limits after a).archive.root.Safe) ∧
      Sound limits.bytes (cataloguedPhase medium destructive limits after a) := by
  obtain ⟨examined, left, hsplit, hhanded, htruncated, hremaining, hsafe, hsound⟩ :=
    cataloguedLoop_spec medium destructive
      (((a.catalog.unreferenced after).take (limits.blobs + 1)).take limits.blobs)
      (s := ⟨a, [], [], limits.bytes, 0,
        decide (limits.blobs < ((a.catalog.unreferenced after).take (limits.blobs + 1)).length),
        limits.uncatalogued, false, []⟩)
      ⟨hsmall, rfl, .inl ⟨limits.bytes, le_rfl, rfl, by simp [total]⟩⟩
  refine ⟨examined, hhanded, ?_, ?_, ?_, hremaining, hsafe, hsound⟩
  · intro row hrow
    apply List.mem_of_mem_take (i := limits.blobs + 1)
    apply List.mem_of_mem_take (i := limits.blobs)
    rw [hsplit]
    exact List.mem_append_left _ hrow
  · have hlength := congrArg List.length hsplit
    rw [List.length_append, List.length_take] at hlength
    omega
  rw [List.take_take, Nat.min_eq_left (Nat.le_succ _)] at hsplit
  have hall : a.catalog.unreferenced after =
      examined ++ (left ++ (a.catalog.unreferenced after).drop limits.blobs) := by
    rw [← List.append_assoc, ← hsplit, List.take_append_drop]
  have hleft := left_ne_nil_iff hall (unreferenced_nodup a.catalog after)
  have hexists : (∃ row ∈ a.catalog.unreferenced after, row.sha256 ∉ examined.map (·.sha256)) ↔
      ∃ hash, a.catalog.Unreferenced after hash ∧ hash ∉ examined.map (·.sha256) := by
    constructor
    · rintro ⟨row, hrow, hnot⟩
      exact ⟨row.sha256, mem_unreferenced.mp ⟨row, hrow, rfl⟩, hnot⟩
    · rintro ⟨hash, hmem, hnot⟩
      obtain ⟨row, hrow, rfl⟩ := mem_unreferenced.mpr hmem
      exact ⟨row, hrow, hnot⟩
  rw [← hexists, ← hleft]
  refine htruncated.trans ?_
  rw [decide_eq_true_iff, List.length_take]
  have hnil : left ++ (a.catalog.unreferenced after).drop limits.blobs ≠ [] ↔
      ¬ (left = [] ∧ (a.catalog.unreferenced after).length ≤ limits.blobs) := by
    rw [ne_eq, List.append_eq_nil_iff, List.drop_eq_nil_iff]
  rw [hnil]
  constructor
  · rintro (hlong | hleft) ⟨hnil, hshort⟩
    · omega
    · exact hleft hnil
  · intro hnot
    by_cases hnil : left = []
    · have : ¬ (a.catalog.unreferenced after).length ≤ limits.blobs := fun h => hnot ⟨hnil, h⟩
      left
      omega
    · exact .inr hnil

/-- The orphans the second phase finds are those of the archive and the objects whose rows the
first phase removed. -/
theorem orphan_of_phase (limits : Limits) (after : Option Text) (orphansBefore : Option ℤ)
    (a : Archive) (hash : Text)
    (hnot : ∀ c ∈ (cataloguedPhase medium destructive limits after a).handed, c.sha256 ≠ hash) :
    (cataloguedPhase medium destructive limits after a).archive.Orphan orphansBefore hash ↔
      a.Orphan orphansBefore hash := by
  obtain ⟨hcatalog, hholds⟩ := cataloguedLoop_frame medium destructive
    (((a.catalog.unreferenced after).take (limits.blobs + 1)).take limits.blobs) _ hnot
  exact and_congr (not_congr hcatalog) (exists_congr fun stat => exists_congr fun t =>
    and_congr_left' (hholds stat))

/-- The second phase always ends; unless a listing threw, it is truncated exactly when it leaves
an orphan. -/
theorem enumerate_ends (orphansBefore : Option ℤ) {maxBytes : ℕ} {s : Pass}
    (h : Sound maxBytes s) (hdone : s.done = orphansBefore.isNone) :
    ∃ (s' : Pass) (failure : Option ListingFailure) (examined : List ObjectEntry),
      (∃ n, ∀ fuel, n ≤ fuel →
        enumerate medium destructive orphansBefore fuel none s = some (s', failure)) ∧
      s'.handed = s.handed ++ examined.map uncataloguedCandidate ∧
      examined.length ≤ s.remaining ∧ Sound maxBytes s' ∧
      (s.archive.root.Safe → failure = none) ∧
      (failure = none → (s'.truncated = true ↔ s.truncated = true ∨
        ∃ hash, s.archive.Orphan orphansBefore hash ∧ hash ∉ examined.map (·.sha256))) := by
  cases horphans : orphansBefore with
  | none =>
    rw [horphans] at hdone
    refine ⟨s, none, [], ⟨1, fun fuel hfuel => ?_⟩, by simp, Nat.zero_le _, h, fun _ => rfl, ?_⟩
    · cases fuel with
      | zero => exact absurd hfuel (by decide)
      | succ fuel => simp [enumerate, hdone]
    · intro _
      refine ⟨.inl, fun h => h.elim id ?_⟩
      rintro ⟨hash, ⟨-, stat, t, -, ht, -⟩, -⟩
      cases ht
  | some t =>
    rw [horphans] at hdone
    by_cases hsafe : s.archive.root.Safe
    · have hsha : ∀ o ∈ s.archive.root.canonical, isSha256 o.sha256 = true := by
        intro o ho
        obtain ⟨stat, hholds, -⟩ := mem_canonical.mp ho
        exact hholds.1
      obtain ⟨s', examined, left, hread, hrun⟩ := enumerate_spec medium destructive
        (canonical_ascending _) hsha (some t) none (fun c hc => by cases hc) h hdone hsafe rfl
      rw [Pages.beyond_none] at hread
      refine ⟨s', none, examined, ⟨_, hrun⟩, hread.handed, ?_, hread.sound, fun _ => rfl, ?_⟩
      · have := hread.remaining
        omega
      · intro _
        have hnodup : ((s.archive.root.canonical.filter (isOrphan
            (s.archive.catalog.blobs.map (·.sha256)) (some t))).map (·.sha256)).Nodup :=
          List.pairwise_map.mpr (((canonical_ascending _).filter _).imp fun hlt => hlt.ne)
        rw [hread.truncated, left_ne_nil_iff hread.split hnodup]
        refine or_congr_right ?_
        constructor
        · rintro ⟨o, ho, hnot⟩
          exact ⟨o.sha256, orphan_iff.mp ⟨o, ho, rfl⟩, hnot⟩
        · rintro ⟨hash, horphan, hnot⟩
          obtain ⟨o, ho, rfl⟩ := orphan_iff.mpr horphan
          exact ⟨o, ho, hnot⟩
    · obtain ⟨e, he, hkind⟩ : ∃ e, s.archive.root.objects = some e ∧ ∀ d, e ≠ .directory d := by
        by_contra hno
        refine hsafe fun e he => ?_
        by_contra hkind
        exact hno ⟨e, he, fun d hd => hkind ⟨d, hd⟩⟩
      have hlimit : IsLimit (some 200) := fun l hl => by cases hl; decide
      have hthrow := listObjects_unsafe he hkind hlimit
      refine ⟨s, some (unsafeEntry (txt "sha256") e), [], ⟨1, fun fuel hfuel => ?_⟩, by simp,
        Nat.zero_le _, h, fun hs => absurd hs hsafe, fun hf => by cases hf⟩
      cases fuel with
      | zero => exact absurd hfuel (by decide)
      | succ fuel => simp [enumerate, hdone, hthrow]

theorem limit_le {value : Option ℤ} {fallback n : ℕ} {name : String}
    (hfallback : fallback ≤ 9007199254740991) (h : limit value fallback name = .ok n) :
    n ≤ 9007199254740991 := by
  unfold limit at h
  cases value with
  | none =>
    cases h
    exact hfallback
  | some v =>
    dsimp only at h
    split_ifs at h with hbad
    cases h
    omega

theorem checkOptions_bytes {options : MaintenanceOptions} {limits : Limits}
    (h : checkOptions options = .ok limits) : limits.bytes < 2 ^ 53 := by
  unfold checkOptions at h
  cases hblobs : limit options.maxBlobs 500 "maxBlobs" with
  | error e => rw [hblobs] at h; cases h
  | ok blobs =>
    cases huncatalogued : limit options.maxUncataloguedBlobs 500 "maxUncataloguedBlobs" with
    | error e => rw [hblobs, huncatalogued] at h; cases h
    | ok uncatalogued =>
      cases hbytes : limit options.maxBytesExamined (2 * 1024 * 1024 * 1024) "maxBytesExamined" with
      | error e => rw [hblobs, huncatalogued, hbytes] at h; cases h
      | ok bytes =>
        have hle := limit_le (by decide) hbytes
        rw [hblobs, huncatalogued, hbytes] at h
        simp only [bind, Except.bind, pure, Except.pure, throw, throwThe, MonadExceptOf.throw] at h
        split_ifs at h
        cases h
        dsimp only
        omega

end result

/-- The budget of a pass, over both phases and for every catalog and store: what is examined
exceeds the budget only by being one blob, each phase keeps its limit, and the pass is truncated
exactly when an eligible blob was left.  The pass always ends, and only a store without a
directory of objects makes it throw.

The orphans are those of the store as the second phase finds it.  They are the orphans the archive
had at the start, and objects the store kept when the first phase removed their rows. -/
theorem pass_budget (medium : Medium) (destructive : Bool) (options : MaintenanceOptions)
    (limits : Limits) (a : Archive) (h : checkOptions options = .ok limits) :
    ∃ s failure,
      (∃ n, ∀ fuel, n ≤ fuel → blobPhases medium destructive limits options.afterSha256
        options.orphanObjectsBefore a fuel = some (s, failure)) ∧
      total s.handed ≤ max (limits.bytes : ℚ) (firstSize s.handed) ∧
      (s.handed.filter (·.origin = .catalogued)).length ≤ limits.blobs ∧
      (s.handed.filter (·.origin = .uncatalogued)).length ≤ limits.uncatalogued ∧
      (a.root.Safe → failure = none) ∧
      (failure = none → (s.truncated = true ↔
        (∃ hash, a.catalog.Unreferenced options.afterSha256 hash ∧ ¬ s.Examined .catalogued hash) ∨
        ∃ hash, (cataloguedPhase medium destructive limits options.afterSha256 a).archive.Orphan
          options.orphanObjectsBefore hash ∧ ¬ s.Examined .uncatalogued hash)) ∧
      (∀ hash, a.Orphan options.orphanObjectsBefore hash →
        (cataloguedPhase medium destructive limits options.afterSha256 a).archive.Orphan
          options.orphanObjectsBefore hash) ∧
      (∀ hash, (cataloguedPhase medium destructive limits options.afterSha256 a).archive.Orphan
        options.orphanObjectsBefore hash →
          a.Orphan options.orphanObjectsBefore hash ∨ s.Examined .catalogued hash) := by
  obtain ⟨rows, hrows, hmem, hblobs, htruncated, hremaining, hsafe, hsound⟩ :=
    cataloguedPhase_spec medium destructive (checkOptions_bytes h) options.afterSha256 a
  obtain ⟨s, failure, objects, hrun, hhanded, huncatalogued, hsound', hthrown, hleft⟩ :=
    enumerate_ends medium destructive options.orphanObjectsBefore
      (s := { cataloguedPhase medium destructive limits options.afterSha256 a with
        done := options.orphanObjectsBefore.isNone })
      ⟨hsound.small, hsound.examined, hsound.budget⟩ rfl
  have hall : s.handed = rows.map cataloguedCandidate ++ objects.map uncataloguedCandidate := by
    rw [hhanded]
    exact congrArg (· ++ _) hrows
  have hcatalogued (hash : Text) :
      s.Examined .catalogued hash ↔ hash ∈ rows.map (·.sha256) := by
    rw [examined_iff, hall, filter_catalogued, List.map_map]
    rfl
  have horphans (hash : Text) :
      s.Examined .uncatalogued hash ↔ hash ∈ objects.map (·.sha256) := by
    rw [examined_iff, hall, filter_uncatalogued, List.map_map]
    rfl
  have hphase {hash : Text} (hnot : hash ∉ rows.map (·.sha256)) := orphan_of_phase medium
    destructive limits options.afterSha256 options.orphanObjectsBefore a hash (by
      rw [hrows]
      intro c hc heq
      obtain ⟨row, hrow, rfl⟩ := List.mem_map.mp hc
      exact hnot (heq ▸ List.mem_map_of_mem hrow))
  refine ⟨s, failure, hrun, hsound'.le_max, ?_, ?_, fun hs => hthrown (hsafe hs), ?_, ?_, ?_⟩
  · rw [hall, filter_catalogued, List.length_map]
    exact hblobs
  · rw [hall, filter_uncatalogued, List.length_map]
    exact huncatalogued.trans hremaining.le
  · intro hfailure
    rw [hleft hfailure]
    simp only [hcatalogued, horphans]
    exact or_congr_left htruncated
  · intro hash horphan
    refine (hphase fun hrow => horphan.1 ?_).mpr horphan
    obtain ⟨row, hrows', rfl⟩ := List.mem_map.mp hrow
    exact (mem_unreferenced.mp ⟨row, hmem row hrows', rfl⟩).1
  · intro hash horphan
    by_cases hrow : hash ∈ rows.map (·.sha256)
    · exact .inr ((hcatalogued hash).mpr hrow)
    · exact .inl ((hphase hrow).mp horphan)

/-- A medium on which every object verifies and every removal succeeds. -/
def plainMedium : Medium := ⟨fun _ _ _ => none, fun _ _ _ => .ok .removed, fun _ _ => none⟩

/-- A catalog of one unreferenced blob beside a store of another object. -/
def sampleArchive : Archive :=
  ⟨⟨[⟨List.replicate 64 (unit 'b'), 7⟩], [], by decide⟩, sampleRoot⟩

theorem pass_budget_sample : ∃ s failure,
    (∃ n, ∀ fuel, n ≤ fuel →
      blobPhases plainMedium true ⟨500, 500, 1⟩ none (some 10) sampleArchive fuel =
        some (s, failure)) ∧
    total s.handed ≤ max ((1 : ℕ) : ℚ) (firstSize s.handed) := by
  obtain ⟨s, failure, hrun, htotal, -⟩ := pass_budget plainMedium true
    ⟨none, none, some 10, none, some 1⟩ ⟨500, 500, 1⟩ sampleArchive rfl
  exact ⟨s, failure, hrun, htotal⟩

end Maintenance

end QeReport

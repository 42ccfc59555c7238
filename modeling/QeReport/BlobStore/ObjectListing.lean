import QeReport.BlobStore.FileBlobStore
import QeReport.Lib.Pages

/-! # Listing the objects of a store

`FileBlobStore.listObjects` over everything that may lie under the `sha256` directory of a root:
objects where they belong, and beside them links, special files, misfiled objects and names the
layout does not define, at every level.  A listing is a page: it ends when it is full and another
object follows, and the next one resumes after its last hash.  The cursor is applied three times,
to the two shard names and to the names of a leaf. -/

namespace QeReport

namespace BlobStore

/-! ### What lies under the root -/

/-- What `lstat` says of a regular file. -/
structure Stat where
  size : ℕ
  /-- Milliseconds since the epoch. -/
  mtime : ℤ
deriving DecidableEq

/-- An entry of a directory whose directories hold a `D`. -/
inductive Entry (D : Type) where
  | file (stat : Stat)
  | symlink
  | special
  | directory (content : D)

/-- A directory, in the order it is read.  A name that is not UTF-8 is read with replacement
characters, so two entries may show one name; a name of hexadecimal digits names one entry. -/
structure Directory (D : Type) where
  entries : List (Text × Entry D)
  distinct : ((entries.map Prod.fst).filter (fun name => name.all isHexDigit)).Nodup

/-- `sha256/ab/cd`. -/
abbrev Leaf := Directory Unit

/-- `sha256/ab`. -/
abbrev Shard := Directory Leaf

/-- A root: what its entry `sha256` is, if it has one. -/
structure Root where
  objects : Option (Entry (Directory Shard))

/-- There is a regular file at the path the layout gives the hash. -/
def Root.Holds (root : Root) (hash : Text) (stat : Stat) : Prop :=
  isSha256 hash = true ∧ ∃ shards shard leaf,
    root.objects = some (.directory shards) ∧
      (hash.take 2, .directory shard) ∈ shards.entries ∧
      ((hash.drop 2).take 2, .directory leaf) ∈ shard.entries ∧
      (hash, .file stat) ∈ leaf.entries

/-! ### Problems and failures -/

inductive CasProblemCode where
  | malformedName
  | wrongShard
  | notRegular
  | unexpectedEntry
deriving DecidableEq

structure CasProblem where
  code : CasProblemCode
  path : Text
  message : Text
deriving DecidableEq

/-- `record(problems, found)`, the problems one listing describes being at most a hundred. -/
def record (problems : List CasProblem) (found : CasProblem) : List CasProblem :=
  if problems.length < 100 then problems ++ [found]
  else if problems.length = 100 then
    problems ++ [⟨.unexpectedEntry, [],
      txt "more than 100 entries the layout does not define; the rest are not listed"⟩]
  else problems

/-- What a listing throws. -/
inductive ListingFailure where
  | typeError (message : Text)
  | invalid (e : Failure)
  | rootEntryUnsafe (message : Text)
deriving DecidableEq

def describe {D : Type} : Entry D → Text
  | .symlink => txt "a symbolic link"
  | .directory _ => txt "a directory"
  | .special => txt "not a regular file"
  | .file _ => txt "a regular file"

/-- `unsafeEntry(root, path, kind)`. -/
def unsafeEntry {D : Type} (path : Text) (entry : Entry D) : ListingFailure :=
  .rootEntryUnsafe (path ++ txt " under the blob root is " ++ describe entry ++
    txt ", not a directory")

/-! ### Reading directories -/

/-- `compare(a, b)`. -/
def compareNames (a b : Text) : Ordering := if a < b then .lt else if b < a then .gt else .eq

def byName {D : Type} (a b : Text × Entry D) : Ordering := compareNames a.1 b.1

/-- `join(directory, name)`, as a report shows it. -/
def joined (directory name : Text) : Text := directory ++ txt "/" ++ name

/-- `SHARD.test(name)`. -/
def isShard (name : Text) : Bool := name.length = 2 && name.all isHexDigit

/-- `shards(directory, root, problems)` from an entry on: the directories of the level with what
is in them. -/
def shardsFrom {D : Type} (path : Text) :
    List (Text × Entry D) → List CasProblem → List (Text × D) × List CasProblem
  | [], problems => ([], problems)
  | (name, entry) :: rest, problems =>
    if !isShard name then
      shardsFrom path rest
        (record problems ⟨.malformedName, joined path name, txt "not a shard name"⟩)
    else
      match entry with
      | .directory content =>
        let (found, problems) := shardsFrom path rest problems
        ((name, content) :: found, problems)
      | _ =>
        shardsFrom path rest
          (record problems ⟨.unexpectedEntry, joined path name, txt "not a shard directory"⟩)

def shards {D : Type} (path : Text) (d : Directory D) (problems : List CasProblem) :
    List (Text × D) × List CasProblem :=
  shardsFrom path (sortBy byName d.entries) problems

/-! ### listObjects -/

/-- An object as it lies on the medium. -/
structure ObjectEntry where
  sha256 : Text
  sizeBytes : ℕ
  modifiedAt : ℤ
  storageKey : Text
deriving DecidableEq

structure ObjectListing where
  objects : List ObjectEntry
  next : Option Text
  problems : List CasProblem
deriving DecidableEq

/-- The variables of `listObjects`. -/
structure Listing where
  objects : List ObjectEntry
  next : Option Text
  full : Bool
  problems : List CasProblem

def Listing.report (s : Listing) (found : CasProblem) : Listing :=
  { s with problems := record s.problems found }

def objectEntry (name : Text) (stat : Stat) : ObjectEntry :=
  ⟨name, stat.size, stat.mtime, storageKey name⟩

/-- The loop over the entries of a leaf. -/
def leafLoop (limit : ℕ) (after : Option Text) (first second : Text) :
    List (Text × Entry Unit) → Listing → Listing
  | [], s => s
  | (name, entry) :: rest, s =>
    let path := joined (joined (joined (txt "sha256") first) second) name
    if after.any (fun a => isSha256 name && name ≤ a) then leafLoop limit after first second rest s
    else if !isSha256 name then
      leafLoop limit after first second rest
        (s.report ⟨.malformedName, path, txt "not an object name"⟩)
    else
      match entry with
      | .file stat =>
        if name.take 2 ≠ first ∨ (name.drop 2).take 2 ≠ second then
          leafLoop limit after first second rest
            (s.report ⟨.wrongShard, path, txt "filed under another hash"⟩)
        else if s.objects.length = limit then
          { s with next := s.objects.getLast?.map (·.sha256), full := true }
        else
          leafLoop limit after first second rest
            { s with objects := s.objects ++ [objectEntry name stat] }
      | _ =>
        leafLoop limit after first second rest
          (s.report ⟨.notRegular, path, txt "not a regular file"⟩)

/-- The loop over the shards of the second level. -/
def secondLoop (limit : ℕ) (after : Option Text) (first : Text) :
    List (Text × Leaf) → Listing → Listing
  | [], s => s
  | (second, leaf) :: rest, s =>
    if s.full then s
    else if after.any (fun a => first = a.take 2 && second < (a.drop 2).take 2) then
      secondLoop limit after first rest s
    else
      secondLoop limit after first rest
        (leafLoop limit after first second (sortBy byName leaf.entries) s)

/-- The loop over the shards of the first level. -/
def firstLoop (limit : ℕ) (after : Option Text) : List (Text × Shard) → Listing → Listing
  | [], s => s
  | (first, shard) :: rest, s =>
    if s.full then s
    else if after.any (fun a => first < a.take 2) then firstLoop limit after rest s
    else
      let (found, problems) := shards (joined (txt "sha256") first) shard s.problems
      firstLoop limit after rest (secondLoop limit after first found { s with problems })

/-- `boundedLimit(limit)` of a whole number; any other number is refused the same way. -/
def boundedLimit : Option ℤ → Except ListingFailure ℕ
  | none => .ok 1000
  | some limit =>
    if 9007199254740991 < limit ∨ limit < 1 then
      .error (.typeError (txt "limit must be a positive whole number"))
    else .ok (min limit.toNat 10000)

/-- `listObjects({ limit, after })`. -/
def listObjects (root : Root) (limit : Option ℤ) (after : Option Text) :
    Except ListingFailure ObjectListing := do
  let limit ← boundedLimit limit
  if after.any (fun a => !isSha256 a) then throw (.invalid invalidSha256)
  match root.objects with
  | none => return ⟨[], none, []⟩
  | some (.directory objectsDir) =>
    let (found, problems) := shards (txt "sha256") objectsDir []
    let s := firstLoop limit after found ⟨[], none, false, problems⟩
    return ⟨s.objects, s.next, s.problems⟩
  | some entry => throw (unsafeEntry (txt "sha256") entry)

/-- `listObjects` over and over, each call with the `next` of the one before as its `after`. -/
def walk (root : Root) (limits : ℕ → Option ℤ) (fuel : ℕ) :
    Option (Except ListingFailure (List ObjectListing)) :=
  Pages.walk ObjectListing.next (fun k after => listObjects root (limits k) after) fuel 0 none

/-! ### The order of names -/

theorem compareNames_ne_gt {a b : Text} : compareNames a b ≠ .gt ↔ a ≤ b := by
  unfold compareNames
  split_ifs with h h'
  · exact ⟨fun _ => h.le, fun _ => by decide⟩
  · exact ⟨fun hn => absurd rfl hn, fun hn => absurd h' (not_lt_of_ge hn)⟩
  · exact ⟨fun _ => not_lt.mp h', fun _ => by decide⟩

theorem sorted_pairwise {D : Type} (l : List (Text × Entry D)) :
    (sortBy byName l).Pairwise (fun a b => a.1 ≤ b.1) := by
  have hle : ∀ a b : Text × Entry D, byName a b ≠ .gt ↔ a.1 ≤ b.1 := fun _ _ =>
    compareNames_ne_gt
  have : Std.Total (fun a b : Text × Entry D => byName a b ≠ .gt) :=
    ⟨fun a b => by simpa only [hle] using le_total a.1 b.1⟩
  have : IsTrans (Text × Entry D) (fun a b => byName a b ≠ .gt) :=
    ⟨fun a b c hab hbc => (hle a c).mpr (((hle a b).mp hab).trans ((hle b c).mp hbc))⟩
  exact (List.pairwise_insertionSort _ l).imp (hle _ _).mp

/-- In a sorted directory the names of hexadecimal digits strictly ascend. -/
theorem Directory.ascending {D : Type} (d : Directory D) :
    (sortBy byName d.entries).Pairwise (fun a b =>
      a.1.all isHexDigit = true → b.1.all isHexDigit = true → a.1 < b.1) := by
  have hnodup : (((sortBy byName d.entries).map Prod.fst).filter
      (fun name => name.all isHexDigit)).Nodup :=
    ((((sortBy_perm d.entries).map Prod.fst).filter _).nodup_iff).mpr d.distinct
  have hne := List.pairwise_map.mp (List.pairwise_filter.mp hnodup)
  refine ((sorted_pairwise d.entries).and hne).imp ?_
  intro a b h ha hb
  exact lt_of_le_of_ne h.1 (h.2 ha hb)

/-- Texts whose beginnings are in order are in that order. -/
theorem lt_of_take_lt {a b : Text} (n : ℕ) (h : a.take n < b.take n) : a < b := by
  induction n generalizing a b with
  | zero => exact absurd h (lt_irrefl _)
  | succ n ih =>
    cases b with
    | nil => exact absurd h (by simp)
    | cons y b =>
      cases a with
      | nil => exact List.nil_lt_cons _ _
      | cons x a =>
        rw [List.take_succ_cons, List.take_succ_cons, List.cons_lt_cons_iff] at h
        rw [List.cons_lt_cons_iff]
        rcases h with h | ⟨rfl, h⟩
        · exact .inl h
        · exact .inr ⟨rfl, ih h⟩

theorem lt_of_drop_lt {a b : Text} (n : ℕ) (ht : a.take n = b.take n)
    (h : a.drop n < b.drop n) : a < b := by
  rw [← List.take_append_drop n a, ← List.take_append_drop n b, ht]
  exact List.append_left_lt h

/-- Hashes of one first shard are in the order of their second shards. -/
theorem lt_of_second_lt {a b : Text} (hfirst : a.take 2 = b.take 2)
    (h : (a.drop 2).take 2 < (b.drop 2).take 2) : a < b :=
  lt_of_drop_lt 2 hfirst (lt_of_take_lt 2 h)

/-! ### The objects of a root -/

/-- The object an entry of a leaf is, where it belongs there. -/
def candidate (first second : Text) (e : Text × Entry Unit) : Option ObjectEntry :=
  match e.2 with
  | .file stat =>
    if isSha256 e.1 = true ∧ e.1.take 2 = first ∧ (e.1.drop 2).take 2 = second then
      some (objectEntry e.1 stat)
    else none
  | _ => none

/-- The directory an entry of a level is, where its name is a shard's. -/
def shardOf {D : Type} (e : Text × Entry D) : Option (Text × D) :=
  match e.2 with
  | .directory content => if isShard e.1 then some (e.1, content) else none
  | _ => none

def Directory.shards {D : Type} (d : Directory D) : List (Text × D) :=
  (sortBy byName d.entries).filterMap shardOf

def leafObjects (first second : Text) (leaf : Leaf) : List ObjectEntry :=
  (sortBy byName leaf.entries).filterMap (candidate first second)

def shardObjects (first : Text) (shard : Shard) : List ObjectEntry :=
  shard.shards.flatMap (fun e => leafObjects first e.1 e.2)

/-- The regular files at the paths of the layout, in hash order. -/
def Root.canonical (root : Root) : List ObjectEntry :=
  match root.objects with
  | some (.directory objectsDir) => objectsDir.shards.flatMap (fun e => shardObjects e.1 e.2)
  | _ => []

theorem candidate_eq_some {first second : Text} {e : Text × Entry Unit} {o : ObjectEntry} :
    candidate first second e = some o ↔ ∃ stat, e.2 = .file stat ∧ isSha256 e.1 = true ∧
      e.1.take 2 = first ∧ (e.1.drop 2).take 2 = second ∧ o = objectEntry e.1 stat := by
  obtain ⟨name, entry⟩ := e
  cases entry with
  | file stat =>
    simp only [candidate]
    split_ifs with h
    · constructor
      · intro ho
        exact ⟨stat, rfl, h.1, h.2.1, h.2.2, (Option.some.inj ho).symm⟩
      · rintro ⟨stat', hstat, -, -, -, rfl⟩
        cases hstat
        rfl
    · constructor
      · intro ho
        cases ho
      · rintro ⟨stat', -, hsha, hfirst, hsecond, -⟩
        exact absurd ⟨hsha, hfirst, hsecond⟩ h
  | symlink => simp [candidate]
  | special => simp [candidate]
  | directory content => simp [candidate]

theorem shardOf_eq_some {D : Type} {e : Text × Entry D} {s : Text × D} :
    shardOf e = some s ↔ e = (s.1, .directory s.2) ∧ isShard s.1 = true := by
  obtain ⟨name, entry⟩ := e
  obtain ⟨first, content⟩ := s
  cases entry with
  | directory content' =>
    simp only [shardOf]
    split_ifs with h
    · constructor
      · intro hs
        cases hs
        exact ⟨rfl, h⟩
      · rintro ⟨hs, -⟩
        cases hs
        rfl
    · constructor
      · intro hs
        cases hs
      · rintro ⟨hs, hshard⟩
        cases hs
        exact absurd hshard h
  | file stat => simp [shardOf]
  | symlink => simp [shardOf]
  | special => simp [shardOf]

theorem mem_shards {D : Type} {d : Directory D} {s : Text × D} :
    s ∈ d.shards ↔ (s.1, .directory s.2) ∈ d.entries ∧ isShard s.1 = true := by
  simp only [Directory.shards, List.mem_filterMap, mem_sortBy, shardOf_eq_some]
  constructor
  · rintro ⟨e, he, rfl, hs⟩
    exact ⟨he, hs⟩
  · rintro ⟨he, hs⟩
    exact ⟨_, he, rfl, hs⟩

theorem mem_leafObjects {first second : Text} {leaf : Leaf} {o : ObjectEntry} :
    o ∈ leafObjects first second leaf ↔ ∃ stat, (o.sha256, .file stat) ∈ leaf.entries ∧
      isSha256 o.sha256 = true ∧ o.sha256.take 2 = first ∧ (o.sha256.drop 2).take 2 = second ∧
      o = objectEntry o.sha256 stat := by
  simp only [leafObjects, List.mem_filterMap, mem_sortBy, candidate_eq_some]
  constructor
  · rintro ⟨⟨name, entry⟩, he, stat, rfl, hsha, hfirst, hsecond, rfl⟩
    exact ⟨stat, he, hsha, hfirst, hsecond, rfl⟩
  · rintro ⟨stat, he, hsha, hfirst, hsecond, ho⟩
    exact ⟨_, he, stat, rfl, hsha, hfirst, hsecond, ho⟩

theorem isShard_take {hash : Text} (h : isSha256 hash = true) :
    isShard (hash.take 2) = true ∧ isShard ((hash.drop 2).take 2) = true := by
  rw [isSha256, Bool.and_eq_true, decide_eq_true_iff] at h
  have hall := List.all_eq_true.mp h.2
  have hlength := h.1
  constructor
  · rw [isShard, Bool.and_eq_true, decide_eq_true_iff, List.all_eq_true]
    refine ⟨?_, fun u hu => hall u (List.mem_of_mem_take hu)⟩
    rw [List.length_take, hlength]
    rfl
  · rw [isShard, Bool.and_eq_true, decide_eq_true_iff, List.all_eq_true]
    refine ⟨?_, fun u hu => hall u (List.mem_of_mem_drop (List.mem_of_mem_take hu))⟩
    rw [List.length_take, List.length_drop, hlength]
    rfl

/-- The objects of a root are the regular files at the paths of the layout. -/
theorem mem_canonical {root : Root} {o : ObjectEntry} :
    o ∈ root.canonical ↔
      ∃ stat, root.Holds o.sha256 stat ∧ o = objectEntry o.sha256 stat := by
  unfold Root.canonical Root.Holds
  constructor
  · intro ho
    split at ho
    · next objectsDir hdir =>
      obtain ⟨⟨first, shard⟩, hshard, ho⟩ := List.mem_flatMap.mp ho
      obtain ⟨⟨second, leaf⟩, hleaf, ho⟩ := List.mem_flatMap.mp ho
      obtain ⟨stat, hfile, hsha, rfl, rfl, hentry⟩ := mem_leafObjects.mp ho
      exact ⟨stat, ⟨hsha, objectsDir, shard, leaf, hdir, (mem_shards.mp hshard).1,
        (mem_shards.mp hleaf).1, hfile⟩, hentry⟩
    · cases ho
  · rintro ⟨stat, ⟨hsha, objectsDir, shard, leaf, hdir, hshard, hleaf, hfile⟩, ho⟩
    simp only [hdir]
    obtain ⟨hfirst, hsecond⟩ := isShard_take hsha
    refine List.mem_flatMap.mpr ⟨(_, shard), mem_shards.mpr ⟨hshard, hfirst⟩, ?_⟩
    refine List.mem_flatMap.mpr ⟨(_, leaf), mem_shards.mpr ⟨hleaf, hsecond⟩, ?_⟩
    exact mem_leafObjects.mpr ⟨stat, hfile, hsha, rfl, rfl, ho⟩

theorem isShard_all {name : Text} (h : isShard name = true) : name.all isHexDigit = true :=
  (Bool.and_eq_true_iff.mp h).2

theorem Directory.shards_pairwise {D : Type} (d : Directory D) :
    d.shards.Pairwise (fun a b => a.1 < b.1) := by
  refine List.pairwise_filterMap.mpr (d.ascending.imp ?_)
  intro a b h s hs t ht
  obtain ⟨rfl, hshard⟩ := shardOf_eq_some.mp hs
  obtain ⟨rfl, hshard'⟩ := shardOf_eq_some.mp ht
  exact h (isShard_all hshard) (isShard_all hshard')

theorem leafObjects_ascending (first second : Text) (leaf : Leaf) :
    Pages.Ascending ObjectEntry.sha256 (leafObjects first second leaf) := by
  refine List.pairwise_filterMap.mpr (leaf.ascending.imp ?_)
  intro a b h o ho o' ho'
  obtain ⟨stat, -, hsha, -, -, rfl⟩ := candidate_eq_some.mp ho
  obtain ⟨stat', -, hsha', -, -, rfl⟩ := candidate_eq_some.mp ho'
  exact h (Bool.and_eq_true_iff.mp hsha).2 (Bool.and_eq_true_iff.mp hsha').2

theorem mem_shardObjects {first : Text} {shard : Shard} {o : ObjectEntry}
    (h : o ∈ shardObjects first shard) : o.sha256.take 2 = first := by
  obtain ⟨e, -, ho⟩ := List.mem_flatMap.mp h
  obtain ⟨stat, -, -, hfirst, -, -⟩ := mem_leafObjects.mp ho
  exact hfirst

theorem shardObjects_ascending (first : Text) (shard : Shard) :
    Pages.Ascending ObjectEntry.sha256 (shardObjects first shard) := by
  refine List.pairwise_flatMap.mpr ⟨fun e _ => leafObjects_ascending first e.1 e.2, ?_⟩
  refine shard.shards_pairwise.imp ?_
  intro a b h o ho o' ho'
  obtain ⟨-, -, -, hfirst, hsecond, -⟩ := mem_leafObjects.mp ho
  obtain ⟨-, -, -, hfirst', hsecond', -⟩ := mem_leafObjects.mp ho'
  apply lt_of_second_lt (hfirst.trans hfirst'.symm)
  rwa [hsecond, hsecond']

theorem canonical_ascending (root : Root) :
    Pages.Ascending ObjectEntry.sha256 root.canonical := by
  unfold Root.canonical
  split
  · next objectsDir hdir =>
    refine List.pairwise_flatMap.mpr ⟨fun e _ => shardObjects_ascending e.1 e.2, ?_⟩
    refine objectsDir.shards_pairwise.imp ?_
    intro a b h o ho o' ho'
    apply lt_of_take_lt 2
    rwa [mem_shardObjects ho, mem_shardObjects ho']
  · exact List.Pairwise.nil

/-! ### One listing -/

theorem shardsFrom_fst {D : Type} (path : Text) (l : List (Text × Entry D))
    (problems : List CasProblem) : (shardsFrom path l problems).1 = l.filterMap shardOf := by
  induction l generalizing problems with
  | nil => rfl
  | cons e rest ih =>
    obtain ⟨name, entry⟩ := e
    rw [List.filterMap_cons]
    unfold shardsFrom
    by_cases hname : isShard name = true
    · rw [if_neg (by simp [hname])]
      cases entry with
      | directory content => simp [shardOf, hname, ih]
      | file stat => exact ih _
      | symlink => exact ih _
      | special => exact ih _
    · rw [if_pos (by simp [hname]), ih]
      cases entry with
      | directory content => simp [shardOf, hname]
      | file stat => rfl
      | symlink => rfl
      | special => rfl

/-- The page so far is the one of the objects passed, and it is full once one was left out. -/
structure Listing.Read (limit : ℕ) (s : Listing) (passed : List ObjectEntry) : Prop where
  objects : s.objects = passed.take limit
  next : s.next = Pages.cursor ObjectEntry.sha256 limit passed
  full : s.full = true ↔ limit < passed.length

namespace Listing.Read

variable {limit : ℕ} {s : Listing} {passed : List ObjectEntry}

theorem report (h : s.Read limit passed) (found : CasProblem) :
    (s.report found).Read limit passed := ⟨h.objects, h.next, h.full⟩

/-- Once a page is full, what follows leaves it as it is. -/
theorem append (h : s.Read limit passed) (hfull : s.full = true) (rest : List ObjectEntry) :
    s.Read limit (passed ++ rest) := by
  have hlong := h.full.mp hfull
  have htake : (passed ++ rest).take limit = passed.take limit :=
    List.take_append_of_le_length hlong.le
  have hlong' : limit < (passed ++ rest).length := by
    rw [List.length_append]
    omega
  refine ⟨h.objects.trans htake.symm, ?_, iff_of_true hfull hlong'⟩
  rw [h.next, Pages.cursor, Pages.cursor, if_neg (not_le_of_gt hlong), if_neg (not_le_of_gt hlong'),
    htake]

/-- The object after a page of `limit` objects closes it. -/
theorem close (h : s.Read limit passed) (hopen : s.full = false) (hlimit : s.objects.length = limit)
    (rest : List ObjectEntry) (hrest : rest ≠ []) :
    Listing.Read limit { s with next := s.objects.getLast?.map (·.sha256), full := true }
      (passed ++ rest) := by
  have hshort : passed.length ≤ limit := by
    by_contra hlong
    rw [h.full.mpr (not_le.mp hlong)] at hopen
    cases hopen
  have hobjects : s.objects = passed := by rw [h.objects, List.take_of_length_le hshort]
  have hlength : passed.length = limit := hobjects ▸ hlimit
  have htake : (passed ++ rest).take limit = passed := by rw [← hlength, List.take_left]
  have hlong : limit < (passed ++ rest).length := by
    rw [List.length_append, hlength]
    have := List.length_pos_of_ne_nil hrest
    omega
  refine ⟨hobjects.trans htake.symm, ?_, iff_of_true rfl hlong⟩
  rw [Pages.cursor, if_neg (not_le_of_gt hlong), htake, hobjects]

/-- An object is pushed while there is room. -/
theorem push (h : s.Read limit passed) (hopen : s.full = false)
    (hroom : s.objects.length ≠ limit) (o : ObjectEntry) :
    Listing.Read limit { s with objects := s.objects ++ [o] } (passed ++ [o]) := by
  have hshort : passed.length ≤ limit := by
    by_contra hlong
    rw [h.full.mpr (not_le.mp hlong)] at hopen
    cases hopen
  have hobjects : s.objects = passed := by rw [h.objects, List.take_of_length_le hshort]
  have hlength : (passed ++ [o]).length ≤ limit := by
    rw [List.length_append, List.length_singleton]
    rw [hobjects] at hroom
    omega
  refine ⟨?_, ?_, ?_⟩
  · rw [List.take_of_length_le hlength, hobjects]
  · rw [Pages.cursor, if_pos hlength]
    rw [h.next, Pages.cursor, if_pos hshort]
  · exact iff_of_false (by simp [hopen]) (not_lt_of_ge hlength)

end Listing.Read

section pages
variable {limit : ℕ} {after : Option Text}

/-- The object of an entry, where it comes after the cursor. -/
theorem beyond_cons {first second : Text} {e : Text × Entry Unit}
    (rest : List (Text × Entry Unit)) :
    Pages.beyond ObjectEntry.sha256 after ((e :: rest).filterMap (candidate first second)) =
      Pages.beyond ObjectEntry.sha256 after (candidate first second e).toList ++
        Pages.beyond ObjectEntry.sha256 after (rest.filterMap (candidate first second)) := by
  rw [← Pages.beyond_append]
  cases h : candidate first second e with
  | none => rw [List.filterMap_cons_none h, Option.toList_none, List.nil_append]
  | some o => rw [List.filterMap_cons_some h, Option.toList_some, List.singleton_append]

theorem leafLoop_read (first second : Text) (es : List (Text × Entry Unit)) {s : Listing}
    {passed : List ObjectEntry} (h : s.Read limit passed) (hopen : s.full = false) :
    (leafLoop limit after first second es s).Read limit
      (passed ++ Pages.beyond ObjectEntry.sha256 after (es.filterMap (candidate first second))) := by
  induction es generalizing s passed with
  | nil => simpa [leafLoop, Pages.beyond] using h
  | cons e rest ih =>
    obtain ⟨name, entry⟩ := e
    have hskip (hnone : Pages.beyond ObjectEntry.sha256 after
        (candidate first second (name, entry)).toList = []) {t : Listing} (ht : t.Read limit passed)
        (htopen : t.full = false) : (leafLoop limit after first second rest t).Read limit
          (passed ++ Pages.beyond ObjectEntry.sha256 after
            (((name, entry) :: rest).filterMap (candidate first second))) := by
      rw [beyond_cons, hnone, List.nil_append]
      exact ih ht htopen
    have hnothing (hc : candidate first second (name, entry) = none) :
        Pages.beyond ObjectEntry.sha256 after
          (candidate first second (name, entry)).toList = [] := by
      rw [hc]
      rfl
    unfold leafLoop
    by_cases hafter : after.any (fun a => isSha256 name && decide (name ≤ a)) = true
    · rw [if_pos hafter]
      refine hskip ?_ h hopen
      cases after with
      | none => cases hafter
      | some a =>
        refine Pages.beyond_eq_nil fun o ho => ?_
        obtain ⟨stat, -, -, -, -, rfl⟩ := candidate_eq_some.mp (Option.mem_toList.mp ho)
        exact of_decide_eq_true (Bool.and_eq_true_iff.mp hafter).2
    rw [if_neg hafter]
    by_cases hsha : isSha256 name = true
    · rw [if_neg (by simp [hsha])]
      cases entry with
      | symlink => exact hskip (hnothing rfl) (h.report _) hopen
      | special => exact hskip (hnothing rfl) (h.report _) hopen
      | directory content => exact hskip (hnothing rfl) (h.report _) hopen
      | file stat =>
        dsimp only
        by_cases hshard : name.take 2 ≠ first ∨ (name.drop 2).take 2 ≠ second
        · rw [if_pos hshard]
          refine hskip (hnothing (if_neg ?_)) (h.report _) hopen
          rintro ⟨-, hfirst, hsecond⟩
          exact hshard.elim (· hfirst) (· hsecond)
        · rw [if_neg hshard]
          obtain ⟨hfirst, hsecond⟩ := not_or.mp hshard
          have hc : candidate first second (name, .file stat) = some (objectEntry name stat) :=
            if_pos ⟨hsha, not_not.mp hfirst, not_not.mp hsecond⟩
          have hlater : Pages.beyond ObjectEntry.sha256 after [objectEntry name stat] =
              [objectEntry name stat] := by
            refine Pages.beyond_eq_self fun o ho a ha => ?_
            rw [ha, Option.any_some, hsha, Bool.true_and, decide_eq_true_iff] at hafter
            rw [List.mem_singleton.mp ho]
            exact not_le.mp hafter
          rw [beyond_cons, hc, Option.toList_some, hlater]
          by_cases hlimit : s.objects.length = limit
          · rw [if_pos hlimit]
            exact h.close hopen hlimit _ (by simp)
          · rw [if_neg hlimit, ← List.append_assoc]
            exact ih (h.push hopen hlimit _) hopen
    · rw [if_pos (by simp [hsha])]
      refine hskip (hnothing ?_) (h.report _) hopen
      cases entry with
      | file stat => exact if_neg (fun hfile => hsha hfile.1)
      | symlink => rfl
      | special => rfl
      | directory content => rfl

theorem secondLoop_read (first : Text) (found : List (Text × Leaf)) {s : Listing}
    {passed : List ObjectEntry} (h : s.Read limit passed) :
    (secondLoop limit after first found s).Read limit
      (passed ++ Pages.beyond ObjectEntry.sha256 after
        (found.flatMap (fun e => leafObjects first e.1 e.2))) := by
  induction found generalizing s passed with
  | nil => simpa [secondLoop, Pages.beyond] using h
  | cons e rest ih =>
    obtain ⟨second, leaf⟩ := e
    unfold secondLoop
    rw [List.flatMap_cons, Pages.beyond_append, ← List.append_assoc]
    by_cases hfull : s.full = true
    · rw [if_pos hfull, List.append_assoc]
      exact h.append hfull _
    rw [if_neg hfull]
    by_cases hafter : after.any (fun a => first = a.take 2 && decide (second < (a.drop 2).take 2))
        = true
    · rw [if_pos hafter]
      have hnone : Pages.beyond ObjectEntry.sha256 after (leafObjects first second leaf) = [] := by
        cases after with
        | none => cases hafter
        | some a =>
          rw [Option.any_some, Bool.and_eq_true, decide_eq_true_iff, decide_eq_true_iff] at hafter
          refine Pages.beyond_eq_nil fun o ho => ?_
          obtain ⟨-, -, -, hfirst, hsecond, -⟩ := mem_leafObjects.mp ho
          refine (lt_of_second_lt (hfirst.trans hafter.1) ?_).le
          rw [hsecond]
          exact hafter.2
      rw [hnone, List.append_nil]
      exact ih h
    · rw [if_neg hafter]
      exact ih (leafLoop_read first second _ h (Bool.eq_false_iff.mpr hfull))

theorem firstLoop_read (found : List (Text × Shard)) {s : Listing} {passed : List ObjectEntry}
    (h : s.Read limit passed) :
    (firstLoop limit after found s).Read limit
      (passed ++ Pages.beyond ObjectEntry.sha256 after
        (found.flatMap (fun e => shardObjects e.1 e.2))) := by
  induction found generalizing s passed with
  | nil => simpa [firstLoop, Pages.beyond] using h
  | cons e rest ih =>
    obtain ⟨first, shard⟩ := e
    unfold firstLoop
    rw [List.flatMap_cons, Pages.beyond_append, ← List.append_assoc]
    by_cases hfull : s.full = true
    · rw [if_pos hfull, List.append_assoc]
      exact h.append hfull _
    rw [if_neg hfull]
    by_cases hafter : after.any (fun a => decide (first < a.take 2)) = true
    · rw [if_pos hafter]
      have hnone : Pages.beyond ObjectEntry.sha256 after (shardObjects first shard) = [] := by
        cases after with
        | none => cases hafter
        | some a =>
          rw [Option.any_some, decide_eq_true_iff] at hafter
          refine Pages.beyond_eq_nil fun o ho => (lt_of_take_lt 2 ?_).le
          rw [mem_shardObjects ho]
          exact hafter
      rw [hnone, List.append_nil]
      exact ih h
    · rw [if_neg hafter]
      have hobjects : shardObjects first shard =
          (shards (joined (txt "sha256") first) shard s.problems).1.flatMap
            (fun e => leafObjects first e.1 e.2) := by
        rw [shards, shardsFrom_fst]
        rfl
      have hs : Listing.Read limit
          { s with problems := (shards (joined (txt "sha256") first) shard s.problems).2 } passed :=
        ⟨h.objects, h.next, h.full⟩
      dsimp only
      rw [hobjects]
      exact ih (secondLoop_read first _ hs)

end pages

/-- The limit is absent or one `listObjects` accepts. -/
def IsLimit (limit : Option ℤ) : Prop := ∀ l, limit = some l → 1 ≤ l ∧ l ≤ 9007199254740991

theorem boundedLimit_eq_ok {limit : Option ℤ} (h : IsLimit limit) :
    ∃ n, 0 < n ∧ boundedLimit limit = .ok n := by
  cases limit with
  | none => exact ⟨1000, by decide, rfl⟩
  | some l =>
    obtain ⟨hpos, hsafe⟩ := h l rfl
    refine ⟨min l.toNat 10000, ?_, if_neg ?_⟩
    · omega
    · omega

/-- The layout's directory is missing or a directory of its own. -/
def Root.Safe (root : Root) : Prop := ∀ e, root.objects = some e → ∃ d, e = .directory d

/-- A listing is the page of the objects of the root after its cursor. -/
theorem listObjects_eq_ok {root : Root} (hroot : root.Safe) {limit : Option ℤ} {n : ℕ}
    (hlimit : boundedLimit limit = .ok n) {after : Option Text}
    (hafter : ∀ a, after = some a → isSha256 a = true) :
    ∃ p, listObjects root limit after = .ok p ∧
      p.objects = (Pages.beyond ObjectEntry.sha256 after root.canonical).take n ∧
      p.next = Pages.cursor ObjectEntry.sha256 n
        (Pages.beyond ObjectEntry.sha256 after root.canonical) := by
  have hcheck : after.any (fun a => !isSha256 a) = false := by
    cases after with
    | none => rfl
    | some a => rw [Option.any_some, hafter a rfl, Bool.not_true]
  unfold listObjects Root.canonical
  rw [hlimit]
  cases hobjects : root.objects with
  | none => exact ⟨⟨[], none, []⟩, by simp [hcheck], by simp [Pages.beyond], by
      simp [Pages.beyond, Pages.cursor]⟩
  | some e =>
    obtain ⟨objectsDir, rfl⟩ := hroot e hobjects
    have hshards : (shards (txt "sha256") objectsDir []).1 = objectsDir.shards :=
      shardsFrom_fst _ _ _
    have hstart : Listing.Read n ⟨[], none, false, (shards (txt "sha256") objectsDir []).2⟩ [] :=
      ⟨by simp, by simp [Pages.cursor], by simp⟩
    obtain ⟨s, hs⟩ : ∃ s, s = firstLoop n after objectsDir.shards
        ⟨[], none, false, (shards (txt "sha256") objectsDir []).2⟩ := ⟨_, rfl⟩
    have hread : s.Read n (Pages.beyond ObjectEntry.sha256 after
        (objectsDir.shards.flatMap (fun e => shardObjects e.1 e.2))) := by
      rw [hs]
      exact firstLoop_read objectsDir.shards hstart
    refine ⟨⟨s.objects, s.next, s.problems⟩, ?_, hread.objects, hread.next⟩
    rw [hs, ← hshards]
    simp [hcheck, bind, Except.bind, pure, Except.pure]

/-! ### Unlinking an object -/

def Entry.map {D : Type} (f : D → D) : Entry D → Entry D
  | .directory content => .directory (f content)
  | e => e

/-- The directories of the name are changed by `f`. -/
def Directory.update {D : Type} (d : Directory D) (name : Text) (f : D → D) : Directory D where
  entries := d.entries.map (fun e => if e.1 = name then (e.1, e.2.map f) else e)
  distinct := by
    have hnames : (d.entries.map (fun e => if e.1 = name then (e.1, e.2.map f) else e)).map
        Prod.fst = d.entries.map Prod.fst := by
      rw [List.map_map]
      refine List.map_congr_left fun e _ => ?_
      rw [Function.comp_apply]
      split_ifs
      · rfl
      · rfl
    rw [hnames]
    exact d.distinct

def Directory.unlink {D : Type} (d : Directory D) (name : Text) : Directory D where
  entries := d.entries.filter (fun e => e.1 ≠ name)
  distinct := d.distinct.sublist ((List.filter_sublist.map Prod.fst).filter _)

/-- `unlinkSync(objectPath(hash))`. -/
def Root.unlink (root : Root) (hash : Text) : Root where
  objects := root.objects.map (Entry.map fun objectsDir =>
    objectsDir.update (hash.take 2) fun shard =>
      shard.update ((hash.drop 2).take 2) fun leaf => leaf.unlink hash)

theorem mem_update {D : Type} {d : Directory D} {name name' : Text} {f : D → D} {content : D} :
    (name', .directory content) ∈ (d.update name f).entries ↔
      ∃ content', (name', .directory content') ∈ d.entries ∧
        content = if name' = name then f content' else content' := by
  constructor
  · intro h
    obtain ⟨⟨name'', entry⟩, he, heq⟩ := List.mem_map.mp h
    dsimp only at heq
    split_ifs at heq with hname
    · cases entry with
      | directory content' =>
        cases heq
        exact ⟨content', he, by rw [if_pos hname]⟩
      | file stat => cases heq
      | symlink => cases heq
      | special => cases heq
    · cases heq
      exact ⟨content, he, by rw [if_neg hname]⟩
  · rintro ⟨content', he, rfl⟩
    refine List.mem_map.mpr ⟨_, he, ?_⟩
    dsimp only
    split_ifs
    · rfl
    · rfl

/-- Unlinking an object leaves every other regular file at its path. -/
theorem holds_unlink {root : Root} {hash hash' : Text} {stat : Stat} :
    (root.unlink hash).Holds hash' stat ↔ root.Holds hash' stat ∧ hash' ≠ hash := by
  constructor
  · rintro ⟨hsha, objectsDir, shard, leaf, hdir, hshard, hleaf, hfile⟩
    obtain ⟨e, he, heq⟩ := Option.map_eq_some_iff.mp hdir
    cases e with
    | file stat => cases heq
    | symlink => cases heq
    | special => cases heq
    | directory objectsDir' =>
      cases heq
      obtain ⟨shard', hshard', rfl⟩ := mem_update.mp hshard
      by_cases hfirst : hash'.take 2 = hash.take 2
      · rw [if_pos hfirst] at hleaf
        obtain ⟨leaf', hleaf', rfl⟩ := mem_update.mp hleaf
        by_cases hsecond : (hash'.drop 2).take 2 = (hash.drop 2).take 2
        · rw [if_pos hsecond] at hfile
          obtain ⟨hfile', hne⟩ := List.mem_filter.mp hfile
          exact ⟨⟨hsha, _, shard', leaf', he, hshard', hleaf', hfile'⟩, of_decide_eq_true hne⟩
        · rw [if_neg hsecond] at hfile
          exact ⟨⟨hsha, _, shard', leaf', he, hshard', hleaf', hfile⟩,
            fun heq => hsecond (by rw [heq])⟩
      · rw [if_neg hfirst] at hleaf
        exact ⟨⟨hsha, _, shard', leaf, he, hshard', hleaf, hfile⟩, fun heq => hfirst (by rw [heq])⟩
  · rintro ⟨⟨hsha, objectsDir, shard, leaf, hdir, hshard, hleaf, hfile⟩, hne⟩
    have hroot : (root.unlink hash).objects = some (.directory (objectsDir.update (hash.take 2)
        fun shard => shard.update ((hash.drop 2).take 2) fun leaf => leaf.unlink hash)) := by
      rw [Root.unlink, hdir]
      rfl
    by_cases hfirst : hash'.take 2 = hash.take 2
    · by_cases hsecond : (hash'.drop 2).take 2 = (hash.drop 2).take 2
      · exact ⟨hsha, _, _, _, hroot, mem_update.mpr ⟨shard, hshard, (if_pos hfirst).symm⟩,
          mem_update.mpr ⟨leaf, hleaf, (if_pos hsecond).symm⟩,
          List.mem_filter.mpr ⟨hfile, decide_eq_true hne⟩⟩
      · exact ⟨hsha, _, _, _, hroot, mem_update.mpr ⟨shard, hshard, (if_pos hfirst).symm⟩,
          mem_update.mpr ⟨leaf, hleaf, (if_neg hsecond).symm⟩, hfile⟩
    · exact ⟨hsha, _, _, _, hroot, mem_update.mpr ⟨shard, hshard, (if_neg hfirst).symm⟩, hleaf,
        hfile⟩

theorem canonical_unlink (root : Root) (hash : Text) :
    (root.unlink hash).canonical = root.canonical.filter (fun o => o.sha256 ≠ hash) := by
  have hmem : ∀ o, o ∈ (root.unlink hash).canonical ↔
      o ∈ root.canonical.filter (fun o => o.sha256 ≠ hash) := by
    intro o
    rw [List.mem_filter, mem_canonical, mem_canonical, decide_eq_true_iff]
    constructor
    · rintro ⟨stat, hholds, ho⟩
      obtain ⟨hholds, hne⟩ := holds_unlink.mp hholds
      exact ⟨⟨stat, hholds, ho⟩, hne⟩
    · rintro ⟨⟨stat, hholds, ho⟩, hne⟩
      exact ⟨stat, holds_unlink.mpr ⟨hholds, hne⟩, ho⟩
  exact Pages.Ascending.eq_of_mem (canonical_ascending _)
    ((canonical_ascending root).filter _) hmem

theorem Root.Safe.unlink {root : Root} (h : root.Safe) (hash : Text) : (root.unlink hash).Safe := by
  intro e he
  obtain ⟨e', he', rfl⟩ := Option.map_eq_some_iff.mp he
  obtain ⟨objectsDir, rfl⟩ := h e' he'
  exact ⟨_, rfl⟩

/-- What comes after an unlinked object is as before. -/
theorem beyond_unlink (root : Root) {hash c : Text} (h : hash ≤ c) :
    Pages.beyond ObjectEntry.sha256 (some c) (root.unlink hash).canonical =
      Pages.beyond ObjectEntry.sha256 (some c) root.canonical := by
  rw [canonical_unlink, Pages.beyond, Pages.beyond, List.filter_filter]
  refine List.filter_congr fun o _ => ?_
  by_cases ho : c < o.sha256
  · have hne : o.sha256 ≠ hash := (lt_of_le_of_lt h ho).ne'
    simp [ho, hne]
  · simp [ho]

/-! ### The walk -/

theorem listObjects_unsafe {root : Root} {e : Entry (Directory Shard)}
    (hroot : root.objects = some e) (he : ∀ d, e ≠ .directory d) {limit : Option ℤ}
    (hlimit : IsLimit limit) :
    listObjects root limit none = .error (unsafeEntry (txt "sha256") e) := by
  obtain ⟨n, -, hn⟩ := boundedLimit_eq_ok hlimit
  unfold listObjects
  rw [hn, hroot]
  cases e with
  | directory d => exact absurd rfl (he d)
  | file stat => rfl
  | symlink => rfl
  | special => rfl

/-- Where the layout's directory is missing or a directory, walking over a store that does not
change ends and gives every regular file at a path of the layout, once, in hash order, and
nothing else.  Where something else lies in its place, the first listing refuses it. -/
theorem walk_exact (root : Root) (limits : ℕ → Option ℤ) (hlimits : ∀ k, IsLimit (limits k)) :
    (root.Safe → ∃ pages, (∃ n, ∀ fuel, n ≤ fuel → walk root limits fuel = some (.ok pages)) ∧
      (pages.flatMap (·.objects)).Pairwise (fun a b => a.sha256 < b.sha256) ∧
      ∀ o, o ∈ pages.flatMap (·.objects) ↔
        ∃ stat, root.Holds o.sha256 stat ∧ o = objectEntry o.sha256 stat) ∧
    (∀ e, root.objects = some e → (∀ d, e ≠ .directory d) → ∀ fuel, 0 < fuel →
      walk root limits fuel = some (.error (unsafeEntry (txt "sha256") e))) := by
  constructor
  · intro hroot
    choose n hpos hn using fun k => boundedLimit_eq_ok (hlimits k)
    have hsha (after : Option Text) (h : ∀ c, after = some c → ∃ o ∈ root.canonical, c = o.sha256) :
        ∀ a, after = some a → isSha256 a = true := by
      intro a ha
      obtain ⟨o, ho, rfl⟩ := h a ha
      obtain ⟨stat, hholds, -⟩ := mem_canonical.mp ho
      exact hholds.1
    have hread := fun k after h => listObjects_eq_ok hroot (hn k) (hsha after h)
    obtain ⟨pages, hpages, hwalk⟩ := Pages.walk_eq_ok (canonical_ascending root) hpos hread 0 none
      (fun c hc => by cases hc)
    rw [Pages.beyond_none] at hpages hwalk
    refine ⟨pages, ⟨root.canonical.length + 1, fun fuel hfuel => hwalk fuel hfuel⟩, ?_, ?_⟩
    · rw [hpages]
      exact canonical_ascending root
    · intro o
      rw [hpages]
      exact mem_canonical
  · intro e he hkind fuel hfuel
    cases fuel with
    | zero => exact absurd hfuel (Nat.lt_irrefl 0)
    | succ fuel => rw [walk, Pages.walk, listObjects_unsafe he hkind (hlimits 0)]

/-- A root whose `sha256` is no directory is not walked at all. -/
theorem walk_special : ∃ e, ∀ fuel, 0 < fuel →
    walk ⟨some .special⟩ (fun _ => some 1) fuel = some (.error e) := by
  refine ⟨unsafeEntry (txt "sha256") (.special : Entry (Directory Shard)), fun fuel hfuel => ?_⟩
  cases fuel with
  | zero => exact absurd hfuel (Nat.lt_irrefl 0)
  | succ fuel => rfl

def sampleLeaf : Leaf :=
  ⟨[(txt "current", .symlink), (List.replicate 64 (unit 'a'), .file ⟨3, 0⟩)], by decide⟩

def sampleShard : Shard := ⟨[(txt "aa", .directory sampleLeaf)], by decide⟩

def laterLeaf : Leaf := ⟨[(List.replicate 64 (unit 'c'), .file ⟨3, 0⟩)], by decide⟩

def laterShard : Shard := ⟨[(txt "cc", .directory laterLeaf)], by decide⟩

/-- A store of two objects in two shards, with a file where a shard belongs. -/
def sampleRoot : Root :=
  ⟨some (.directory ⟨[(txt "cc", .directory laterShard), (txt "bb", .file ⟨1, 0⟩),
    (txt "aa", .directory sampleShard)], by decide⟩)⟩

/-- One object a page. -/
theorem walk_exact_sample : ∃ pages, (∃ n, ∀ fuel, n ≤ fuel →
      walk sampleRoot (fun _ => some 1) fuel = some (.ok pages)) ∧
    objectEntry (List.replicate 64 (unit 'a')) ⟨3, 0⟩ ∈ pages.flatMap (·.objects) ∧
    objectEntry (List.replicate 64 (unit 'c')) ⟨3, 0⟩ ∈ pages.flatMap (·.objects) := by
  obtain ⟨pages, hwalk, -, hmem⟩ := (walk_exact sampleRoot (fun _ => some 1)
    (fun _ l hl => by cases hl; decide)).1 (fun e he => by cases he; exact ⟨_, rfl⟩)
  have hfirst : sampleRoot.Holds (List.replicate 64 (unit 'a')) ⟨3, 0⟩ := by
    refine ⟨by decide, _, sampleShard, sampleLeaf, rfl, ?_, ?_, ?_⟩
    · exact List.mem_cons_of_mem _ (List.mem_cons_of_mem _ List.mem_cons_self)
    · exact List.mem_cons_self
    · exact List.mem_cons_of_mem _ List.mem_cons_self
  have hsecond : sampleRoot.Holds (List.replicate 64 (unit 'c')) ⟨3, 0⟩ := by
    refine ⟨by decide, _, laterShard, laterLeaf, rfl, ?_, ?_, ?_⟩
    · exact List.mem_cons_self
    · exact List.mem_cons_self
    · exact List.mem_cons_self
  exact ⟨pages, hwalk, (hmem _).mpr ⟨_, hfirst, rfl⟩, (hmem _).mpr ⟨_, hsecond, rfl⟩⟩

end BlobStore

end QeReport

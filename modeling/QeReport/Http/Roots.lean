import QeReport.Lib.Text
import Mathlib.Data.List.Infix
import Mathlib.Data.List.Basic
import Mathlib.Tactic.SplitIfs

/-! # The roots of the server

The staging root and the blob root must be apart, so that removing a request directory reaches no
durable bytes.  Containment is read off the text of a relative path; a name that begins with two
dots is taken there for a step up (`checkRoots_refuses_iff`). -/

namespace QeReport.Http

/-! ### Paths -/

/-- A name of a directory on the way from the root of the file system. -/
structure Segment where
  text : Text
  ne : text ≠ []
  noSeparator : unit '/' ∉ text
  /-- Nothing that is resolved away. -/
  resolved : text ≠ txt "." ∧ text ≠ txt ".."
deriving DecidableEq

/-- A resolved absolute path. -/
structure RealPath where
  segments : List Segment
deriving DecidableEq

/-- The names of a relative path with their separators. -/
def joined (names : List Text) : Text := [unit '/'].intercalate names

def RealPath.text (p : RealPath) : Text := unit '/' :: joined (p.segments.map Segment.text)

/-- What is left of two paths behind the directory they share. -/
def apart : List Segment → List Segment → List Segment × List Segment
  | s :: a, t :: b => if s = t then apart a b else (s :: a, t :: b)
  | a, b => (a, b)

/-- `path.relative(from, to)`: up to the directory the two share, and down from there. -/
def relative (source target : RealPath) : Text :=
  let (up, down) := apart source.segments target.segments
  joined (up.map (fun _ => txt "..") ++ down.map Segment.text)

/-- `path.isAbsolute(path)`. -/
def isAbsolute (path : Text) : Bool := path.head? == some (unit '/')

/-! ### The check -/

/-- What `lstat` says an entry is. -/
inductive EntryKind where
  | directory | symbolicLink | other
deriving DecidableEq

/-- The calls of the file system the check makes; a failure gives the message of its error. -/
structure FileSystem where
  lstatSync : Text → Except Text EntryKind
  realpathSync : Text → Except Text RealPath

/-- `within(outer, inner)`. -/
def within (outer inner : RealPath) : Bool :=
  let path := relative outer inner
  path == [] || (!(txt "..").isPrefixOf path && !isAbsolute path)

/-- `checkRoots(stagingRoot, blobRoot)`: the staging root, resolved, or the message of the
error. -/
def checkRoots (fs : FileSystem) (stagingRoot blobRoot : Text) : Except Text Text :=
  match fs.lstatSync stagingRoot with
  | .error message =>
      .error (txt "staging root " ++ stagingRoot ++ txt " cannot be read: " ++ message)
  | .ok kind =>
      if kind = .symbolicLink then
        .error (txt "staging root " ++ stagingRoot ++ txt " is a symbolic link")
      else if kind ≠ .directory then
        .error (txt "staging root " ++ stagingRoot ++ txt " is not a directory")
      else do
        let staging ← fs.realpathSync stagingRoot
        let blobs ← fs.realpathSync blobRoot
        if within staging blobs || within blobs staging then
          .error (txt "the staging root and the blob root must be separate, neither inside the other")
        else .ok staging.text

/-! ### What a relative path begins with -/

theorem apart_eq (a b : List Segment) : ∃ c, a = c ++ (apart a b).1 ∧ b = c ++ (apart a b).2 := by
  induction a generalizing b with
  | nil => exact ⟨[], by cases b <;> rfl, by cases b <;> rfl⟩
  | cons s a ih =>
      cases b with
      | nil => exact ⟨[], rfl, rfl⟩
      | cons t b =>
          rw [apart]
          split_ifs with h
          · subst h
            obtain ⟨c, ha, hb⟩ := ih b
            exact ⟨s :: c, by rw [List.cons_append, ← ha], by rw [List.cons_append, ← hb]⟩
          · exact ⟨[], rfl, rfl⟩

/-- Nothing is left of a directory and what is in it but the way down. -/
theorem apart_append (a b : List Segment) : apart a (a ++ b) = ([], b) := by
  induction a with
  | nil => cases b <;> rfl
  | cons s a ih => rw [List.cons_append, apart, if_pos rfl, ih]

theorem head?_joined {name : Text} (hne : name ≠ []) (names : List Text) :
    (joined (name :: names)).head? = name.head? := by
  obtain ⟨u, t, rfl⟩ := List.exists_cons_of_ne_nil hne
  cases names <;> simp [joined, List.intercalate]

/-- A relative path begins with two dots exactly when its first name does. -/
theorem dots_joined {name : Text} (hne : name ≠ []) (hdot : name ≠ txt ".") (names : List Text) :
    (txt "..").isPrefixOf (joined (name :: names)) = (txt "..").isPrefixOf name := by
  have hdots : txt ".." = [unit '.', unit '.'] := by decide
  obtain ⟨u, t, rfl⟩ := List.exists_cons_of_ne_nil hne
  cases names with
  | nil => simp [joined, List.intercalate]
  | cons other names =>
      have hjoined : joined ((u :: t) :: other :: names) =
          u :: (t ++ unit '/' :: joined (other :: names)) := by
        simp [joined, List.intercalate]
      rw [hjoined, hdots]
      cases t with
      | cons v t => simp [List.isPrefixOf]
      | nil =>
          have hu : (unit '.' == u) = false := by
            rw [beq_eq_false_iff_ne]
            rintro rfl
            exact hdot (by decide)
          simp [List.isPrefixOf, hu]

/-! ### Containment -/

/-- The names on the way down from one directory to another begin with one of two dots. -/
def Dotted (outer inner : RealPath) : Prop :=
  ∃ name rest, inner.segments = outer.segments ++ name :: rest ∧ txt ".." <+: name.text

theorem Segment.dots_joined (name : Segment) (names : List Segment) :
    (txt "..").isPrefixOf (joined ((name :: names).map Segment.text)) = true ↔
      txt ".." <+: name.text := by
  rw [List.map_cons, Http.dots_joined name.ne name.resolved.1, List.isPrefixOf_iff_prefix]

/-- A way down is no absolute path. -/
theorem Segment.not_isAbsolute (name : Segment) (names : List Segment) :
    isAbsolute (joined ((name :: names).map Segment.text)) = false := by
  rw [isAbsolute, List.map_cons, head?_joined name.ne, beq_eq_false_iff_ne]
  intro hhead
  obtain ⟨t, ht⟩ := List.head?_eq_some_iff.mp hhead
  apply name.noSeparator
  rw [ht]
  exact List.mem_cons_self

/-- One directory is within another as the text of the path tells it. -/
theorem within_iff (outer inner : RealPath) :
    within outer inner = true ↔ outer.segments <+: inner.segments ∧ ¬ Dotted outer inner := by
  by_cases hprefix : outer.segments <+: inner.segments
  · obtain ⟨down, hdown⟩ := hprefix
    have hpath : relative outer inner = joined (down.map Segment.text) := by
      rw [relative, ← hdown, apart_append]
      rfl
    rw [within, hpath]
    cases down with
    | nil =>
        refine iff_of_true rfl ⟨⟨[], hdown⟩, ?_⟩
        rintro ⟨name, rest, hinner, -⟩
        rw [← hdown, List.append_cancel_left_eq] at hinner
        exact absurd hinner (List.cons_ne_nil name rest).symm
    | cons name rest =>
        have hne : joined ((name :: rest).map Segment.text) ≠ [] := by
          intro hnil
          have hhead := head?_joined name.ne (rest.map Segment.text)
          rw [← List.map_cons, hnil, List.head?_nil, eq_comm, List.head?_eq_none_iff] at hhead
          exact name.ne hhead
        have hdotted : Dotted outer inner ↔ txt ".." <+: name.text := by
          constructor
          · rintro ⟨other, others, hinner, hdots⟩
            rw [← hdown, List.append_cancel_left_eq, List.cons.injEq] at hinner
            rwa [hinner.1]
          · intro hdots
            exact ⟨name, rest, hdown.symm, hdots⟩
        rw [hdotted, ← name.dots_joined rest]
        simp only [name.not_isAbsolute rest, beq_eq_false_iff_ne.mpr hne, Bool.false_or,
          Bool.not_false, Bool.and_true, Bool.not_eq_true']
        exact ⟨fun h => ⟨⟨_, hdown⟩, Bool.eq_false_iff.mp h⟩, fun h => Bool.eq_false_iff.mpr h.2⟩
  · refine iff_of_false ?_ (fun h => hprefix h.1)
    -- the path begins with a step up
    obtain ⟨c, houter, hinner⟩ := apart_eq outer.segments inner.segments
    cases hup : (apart outer.segments inner.segments).1 with
    | nil =>
        rw [hup, List.append_nil] at houter
        exact absurd ⟨_, by rw [houter]; exact hinner.symm⟩ hprefix
    | cons s up =>
        have hdots : txt ".." ≠ [] ∧ txt ".." ≠ txt "." := by decide
        have hpath : relative outer inner = joined (txt ".." ::
            (up.map (fun _ => txt "..") ++
              (apart outer.segments inner.segments).2.map Segment.text)) := by
          rw [relative]
          dsimp only
          rw [hup]
          rfl
        have hstep := dots_joined hdots.1 hdots.2 (up.map (fun _ => txt "..") ++
          (apart outer.segments inner.segments).2.map Segment.text)
        rw [← hpath, List.isPrefixOf_iff_prefix.mpr (List.prefix_refl _)] at hstep
        have hne : relative outer inner ≠ [] := by
          intro hnil
          rw [hnil] at hstep
          exact absurd hstep (by decide)
        rw [within, hstep, beq_eq_false_iff_ne.mpr hne]
        simp

/-! ### The decision -/

/-- Two directories of which one is the other or lies in it. -/
def Nested (s b : RealPath) : Prop := s.segments <+: b.segments ∨ b.segments <+: s.segments

/-- Existing directories, under their own names. -/
structure FileSystem.Resolves (fs : FileSystem) (s b : RealPath) : Prop where
  lstat : fs.lstatSync s.text = .ok .directory
  staging : fs.realpathSync s.text = .ok s
  blobs : fs.realpathSync b.text = .ok b

theorem checkRoots_refuses {fs : FileSystem} {s b : RealPath} (h : fs.Resolves s b) :
    (∃ message, checkRoots fs s.text b.text = .error message) ↔
      within s b = true ∨ within b s = true := by
  have hcheck : checkRoots fs s.text b.text =
      if within s b || within b s then
        .error (txt "the staging root and the blob root must be separate, neither inside the other")
      else .ok s.text := by
    rw [checkRoots, h.lstat]
    dsimp only
    rw [if_neg (by decide), if_neg (by decide), h.staging, h.blobs]
    rfl
  rw [hcheck]
  split_ifs with hwithin
  · exact iff_of_true ⟨_, rfl⟩ ((Bool.or_eq_true _ _).mp hwithin)
  · refine iff_of_false (fun ⟨_, hm⟩ => by cases hm) (fun hor => hwithin ?_)
    exact (Bool.or_eq_true _ _).mpr hor

/-- The check refuses nested roots and no others, unless one lies in the other beneath a name that
begins with two dots. -/
theorem checkRoots_refuses_iff {fs : FileSystem} {s b : RealPath} (h : fs.Resolves s b) :
    ((∃ message, checkRoots fs s.text b.text = .error message) ↔ Nested s b) ↔
      ¬ Dotted s b ∧ ¬ Dotted b s := by
  have hnested : ∀ {outer inner : RealPath}, Dotted outer inner →
      outer.segments <+: inner.segments ∧ ¬ inner.segments <+: outer.segments := by
    rintro outer inner ⟨name, rest, hinner, -⟩
    refine ⟨⟨_, hinner.symm⟩, fun hprefix => ?_⟩
    have hlength := hprefix.length_le
    rw [hinner, List.length_append, List.length_cons] at hlength
    omega
  rw [checkRoots_refuses h, within_iff, within_iff, Nested]
  constructor
  · intro hiff
    constructor
    · intro hdotted
      obtain ⟨hin, hout⟩ := hnested hdotted
      rcases hiff.mpr (.inl hin) with hs | hb
      · exact hs.2 hdotted
      · exact hout hb.1
    · intro hdotted
      obtain ⟨hin, hout⟩ := hnested hdotted
      rcases hiff.mpr (.inr hin) with hs | hb
      · exact hout hs.1
      · exact hb.2 hdotted
  · rintro ⟨hs, hb⟩
    constructor
    · rintro (h | h)
      · exact .inl h.1
      · exact .inr h.1
    · rintro (h | h)
      · exact .inl ⟨h, hs⟩
      · exact .inr ⟨h, hb⟩

namespace Roots.Sample

def srv : Segment := ⟨txt "srv", by decide, by decide, by decide⟩

def blobs : Segment := ⟨txt "blobs", by decide, by decide, by decide⟩

def dottedBlobs : Segment := ⟨txt "..blobs", by decide, by decide, by decide⟩

/-- A file system of two directories. -/
def fileSystem (s b : RealPath) : FileSystem where
  lstatSync _ := .ok .directory
  realpathSync path := if path = s.text then .ok s else .ok b

theorem resolves {s b : RealPath} (h : b.text ≠ s.text) : (fileSystem s b).Resolves s b :=
  ⟨rfl, if_pos rfl, if_neg h⟩

end Roots.Sample

open Roots.Sample in
theorem checkRoots_refuses_srv :
    ((∃ message, checkRoots (fileSystem ⟨[srv]⟩ ⟨[srv, blobs]⟩) (RealPath.text ⟨[srv]⟩)
      (RealPath.text ⟨[srv, blobs]⟩) = .error message) ↔ Nested ⟨[srv]⟩ ⟨[srv, blobs]⟩) ↔
      ¬ Dotted ⟨[srv]⟩ ⟨[srv, blobs]⟩ ∧ ¬ Dotted ⟨[srv, blobs]⟩ ⟨[srv]⟩ :=
  checkRoots_refuses_iff (resolves (by decide))

open Roots.Sample in
/-- Blobs in the staging root, beneath a name that begins with two dots. -/
theorem checkRoots_accepts_dotted :
    (fileSystem ⟨[srv]⟩ ⟨[srv, dottedBlobs]⟩).Resolves ⟨[srv]⟩ ⟨[srv, dottedBlobs]⟩ ∧
      checkRoots (fileSystem ⟨[srv]⟩ ⟨[srv, dottedBlobs]⟩) (RealPath.text ⟨[srv]⟩)
        (RealPath.text ⟨[srv, dottedBlobs]⟩) = .ok (txt "/srv") ∧
      Nested ⟨[srv]⟩ ⟨[srv, dottedBlobs]⟩ :=
  ⟨resolves (by decide), by decide, .inl ⟨[dottedBlobs], rfl⟩⟩

end QeReport.Http

import QeReport.Lib.Sha256
import Mathlib.Data.List.Perm.Subperm
import Mathlib.Logic.Function.Basic
import Mathlib.Logic.Relation

/-! # Migrations

Any number of processes call `migrate`, each with the migrations of its own release, and any
statement of a call can fail, a `COMMIT` also after it took effect.  The list of migrations is only
ever appended to, so that a release has the first migrations of one list; whatever the order of the
steps, the database holds the first migrations of that list, each executed and recorded once
(`migrated_once`). -/

namespace QeReport.Migrations

structure Migration where
  version : ℕ
  name : Text
  sql : Text
deriving DecidableEq

/-- `migrationChecksum(migration)`. -/
def migrationChecksum (m : Migration) : Text :=
  Sha256.digest (utf8 (natText m.version ++ unit ':' :: m.name ++ txt "\n") ++ utf8 m.sql)

/-- A row of `qe_schema_migrations`. -/
structure Recorded where
  version : ℕ
  name : Text
  checksum : Text
deriving DecidableEq

structure AppliedMigration extends Recorded where
  appliedNow : Bool
deriving DecidableEq

/-- The row of a migration. -/
def Migration.row (m : Migration) : Recorded := ⟨m.version, m.name, migrationChecksum m⟩

/-- The entry of a migration in the result. -/
def Migration.applied (m : Migration) (now : Bool) : AppliedMigration := ⟨m.row, now⟩

structure Db (ι : Type) where
  /-- The table `qe_schema_migrations` exists. -/
  created : Bool
  recorded : List Recorded
  /-- The SQL of the committed migrations, in their order. -/
  executed : List Text
  /-- The connection that holds `MIGRATION_LOCK_KEY`. -/
  lock : Option ι

/-- `SELECT … FROM qe_schema_migrations ORDER BY version`. -/
def Db.rows {ι : Type} (db : Db ι) : List Recorded :=
  sortBy (fun a b => compare a.version b.version) db.recorded

/-- `recorded.get(version)`; the versions of the rows differ. -/
def recordedAt (rows : List Recorded) (version : ℕ) : Option Recorded :=
  rows.find? (fun r => r.version = version)

/-! ### A call -/

/-- What `migrate` throws about a migration that was changed. -/
def changed (m : Migration) (known : Recorded) : Text :=
  txt "migration " ++ natText m.version ++ txt " (" ++ known.name ++
    txt ") was applied with checksum " ++ known.checksum ++ txt " but the code now has " ++
    migrationChecksum m ++ txt "; applied migrations are never rewritten"

/-- The variables of the loop, with the migrations that are left. -/
structure Loop where
  known : List Recorded
  rest : List Migration
  result : List AppliedMigration

/-- What a call of `migrate` is about to do. -/
inductive Migrate where
  | connecting
  | creating
  | reading
  | choosing (l : Loop)
  | executing (m : Migration) (l : Loop)
  | inserting (m : Migration) (l : Loop)
  | committing (m : Migration) (l : Loop)
  | unlocking (outcome : Except Text (List AppliedMigration))
  | returned (outcome : Except Text (List AppliedMigration))

namespace Migrate

/-- The connection holds the lock. -/
def holdsLock : Migrate → Bool
  | .connecting => false
  | .returned _ => false
  | _ => true

/-- A statement inside the lock is under way. -/
def isRunning : Migrate → Bool
  | .connecting => false
  | .unlocking _ => false
  | .returned _ => false
  | _ => true

/-- The result so far. -/
def result : Migrate → List AppliedMigration
  | .choosing l => l.result
  | .executing _ l => l.result
  | .inserting _ l => l.result
  | .committing _ l => l.result
  | .unlocking (.ok result) => result
  | .returned (.ok result) => result
  | _ => []

/-- The versions that the result says were applied by this call. -/
def appliedNow (pc : Migrate) : List ℕ :=
  (pc.result.filter (fun a => a.appliedNow)).map (fun a => a.version)

end Migrate

section steps
variable {ι : Type}

/-- The effect of a migration and of its row. -/
def Db.commit (db : Db ι) (m : Migration) : Db ι :=
  { db with recorded := db.recorded ++ [m.row], executed := db.executed ++ [m.sql] }

/-- A statement of `migrate` on the connection `p`, with the migrations of its release. -/
inductive MigrateStep (p : ι) (migrations : List Migration) (db : Db ι) :
    Migrate → Db ι → Migrate → Prop where
  | locks : db.lock = none →
      MigrateStep p migrations db .connecting { db with lock := some p } .creating
  | cannotLock {message : Text} :
      MigrateStep p migrations db .connecting db (.returned (.error message))
  | creates : MigrateStep p migrations db .creating { db with created := true } .reading
  | createsUnheard {message : Text} :
      MigrateStep p migrations db .creating { db with created := true }
        (.unlocking (.error message))
  | reads : MigrateStep p migrations db .reading db (.choosing ⟨db.rows, migrations, []⟩)
  | finds {known : List Recorded} {m : Migration} {rest : List Migration}
      {result : List AppliedMigration} {row : Recorded} : recordedAt known m.version = some row →
      row.checksum = migrationChecksum m →
      MigrateStep p migrations db (.choosing ⟨known, m :: rest, result⟩) db
        (.choosing ⟨known, rest, result ++ [m.applied false]⟩)
  | refuses {known : List Recorded} {m : Migration} {rest : List Migration}
      {result : List AppliedMigration} {row : Recorded} : recordedAt known m.version = some row →
      row.checksum ≠ migrationChecksum m →
      MigrateStep p migrations db (.choosing ⟨known, m :: rest, result⟩) db
        (.unlocking (.error (changed m row)))
  | begins {known : List Recorded} {m : Migration} {rest : List Migration}
      {result : List AppliedMigration} : recordedAt known m.version = none →
      MigrateStep p migrations db (.choosing ⟨known, m :: rest, result⟩) db
        (.executing m ⟨known, rest, result⟩)
  | executes {m : Migration} {l : Loop} :
      MigrateStep p migrations db (.executing m l) db (.inserting m l)
  -- the primary key
  | inserts {m : Migration} {l : Loop} : m.version ∉ db.recorded.map Recorded.version →
      MigrateStep p migrations db (.inserting m l) db (.committing m l)
  | commits {m : Migration} {l : Loop} : m.version ∉ db.recorded.map Recorded.version →
      MigrateStep p migrations db (.committing m l) (db.commit m)
        (.choosing ⟨l.known, l.rest, l.result ++ [m.applied true]⟩)
  -- the answer of the `COMMIT` is lost
  | commitsUnheard {m : Migration} {l : Loop} {message : Text} :
      m.version ∉ db.recorded.map Recorded.version →
      MigrateStep p migrations db (.committing m l) (db.commit m) (.unlocking (.error message))
  | ends {known : List Recorded} {result : List AppliedMigration} :
      MigrateStep p migrations db (.choosing ⟨known, [], result⟩) db (.unlocking (.ok result))
  -- a statement throws, and its transaction is rolled back
  | throws {pc : Migrate} {message : Text} : pc.isRunning = true →
      MigrateStep p migrations db pc db (.unlocking (.error message))
  -- `pg_advisory_unlock`, or the end of a connection that could not be unlocked
  | unlocks {outcome : Except Text (List AppliedMigration)} :
      MigrateStep p migrations db (.unlocking outcome) { db with lock := none } (.returned outcome)

structure State (ι : Type) where
  db : Db ι
  calls : ι → Migrate

/-- A database that was never migrated, before any call. -/
def State.fresh : State ι := ⟨⟨false, [], [], none⟩, fun _ => .connecting⟩

/-- A step of one of the calls, each with the migrations of its release. -/
inductive Step [DecidableEq ι] (releases : ι → List Migration) (s : State ι) : State ι → Prop where
  | call {p : ι} {db : Db ι} {pc : Migrate} :
      MigrateStep p (releases p) s.db (s.calls p) db pc →
      Step releases s ⟨db, Function.update s.calls p pc⟩

end steps

/-! ### The status of a schema -/

structure SchemaStatus where
  current : Bool
  expectedVersion : Option ℕ
  appliedVersions : List ℕ
  problems : List Text

/-- What is said of a migration that the code knows. -/
def missing (rows : List Recorded) (m : Migration) : Option Text :=
  match recordedAt rows m.version with
  | none => some (txt "migration " ++ natText m.version ++ txt " is not applied")
  | some row =>
      if row.checksum ≠ migrationChecksum m then
        some (txt "migration " ++ natText m.version ++
          txt " was applied with a different checksum")
      else none

/-- What is said of a row that the code does not know. -/
def unknown (migrations : List Migration) (row : Recorded) : Option Text :=
  if migrations.any (fun m => m.version = row.version) then none
  else some (txt "migration " ++ natText row.version ++ txt " is applied but unknown to this code")

/-- `schemaStatus(pool)`. -/
def schemaStatus {ι : Type} (migrations : List Migration) (db : Db ι) : SchemaStatus :=
  let expectedVersion := (migrations.map Migration.version).max?
  if db.created = false then
    ⟨false, expectedVersion, [], [txt "the database has never been migrated"]⟩
  else
    let problems := migrations.filterMap (missing db.rows) ++ db.rows.filterMap (unknown migrations)
    ⟨problems.isEmpty, expectedVersion, db.rows.map Recorded.version, problems⟩

/-! ### What a step keeps -/

theorem recordedAt_eq_none {rows : List Recorded} {v : ℕ} :
    recordedAt rows v = none ↔ ∀ r ∈ rows, r.version ≠ v := by
  simp [recordedAt, List.find?_eq_none]

theorem recordedAt_eq_some {rows : List Recorded} {v : ℕ} {r : Recorded}
    (h : recordedAt rows v = some r) : r ∈ rows ∧ r.version = v :=
  ⟨List.mem_of_find?_eq_some h, by simpa using List.find?_some h⟩

theorem mem_take_iff {done tail : List Migration} {m : Migration}
    (hnodup : ((done ++ m :: tail).map Migration.version).Nodup) (n : ℕ) :
    m ∈ (done ++ m :: tail).take n ↔ done.length < n := by
  rw [List.take_append, List.mem_append]
  constructor
  · intro hmem
    by_contra hle
    have hzero : n - done.length = 0 := by omega
    rw [hzero, List.take_zero] at hmem
    rcases hmem with hmem | hmem
    · have hdistinct := List.Nodup.of_map _ hnodup
      exact (List.nodup_append.mp hdistinct).2.2 m (List.mem_of_mem_take hmem) m
        List.mem_cons_self rfl
    · cases hmem
  · intro hlt
    obtain ⟨j, hj⟩ : ∃ j, n - done.length = j + 1 := ⟨n - done.length - 1, by omega⟩
    rw [hj]
    exact .inr List.mem_cons_self

section invariant
variable {ι : Type} {L release : List Migration} {k : ℕ}

/-- The database holds the first `k` migrations. -/
structure Db.At (L : List Migration) (k : ℕ) (db : Db ι) : Prop where
  le : k ≤ L.length
  recorded : db.recorded = (L.take k).map Migration.row
  executed : db.executed = (L.take k).map Migration.sql

/-- The loop has gone through `done`: the rows that it has read, or its own, are all there are. -/
structure Loop.Behind (L release : List Migration) (k : ℕ) (done rest : List Migration) (l : Loop) :
    Prop where
  release : release = done ++ rest
  result : l.result.map AppliedMigration.toRecorded = done.map Migration.row
  known : ∃ k₀, (∀ r, r ∈ l.known ↔ r ∈ (L.take k₀).map Migration.row) ∧ k = max k₀ done.length

/-- What a call knows of the first `k` migrations that the database holds. -/
def Migrate.At (L release : List Migration) (k : ℕ) : Migrate → Prop
  | .choosing l => ∃ done, l.Behind L release k done l.rest
  | .executing m l => ∃ done, l.Behind L release k done (m :: l.rest) ∧ k = done.length
  | .inserting m l => ∃ done, l.Behind L release k done (m :: l.rest) ∧ k = done.length
  | .committing m l => ∃ done, l.Behind L release k done (m :: l.rest) ∧ k = done.length
  | .unlocking (.ok result) =>
      result.map AppliedMigration.toRecorded = release.map Migration.row ∧ release.length ≤ k
  | .returned (.ok result) =>
      result.map AppliedMigration.toRecorded = release.map Migration.row ∧ release.length ≤ k
  | _ => True

/-- A call without the lock may be overtaken. -/
theorem Migrate.At.mono {pc : Migrate} (h : pc.At L release k) (hlock : pc.holdsLock = false)
    {k' : ℕ} (hk : k ≤ k') : pc.At L release k' := by
  cases pc with
  | connecting => trivial
  | returned outcome =>
      cases outcome with
      | error message => trivial
      | ok result => exact ⟨h.1, h.2.trans hk⟩
  | _ => cases hlock

theorem Db.At.mem_rows {db : Db ι} (h : db.At L k) {r : Recorded} :
    r ∈ db.rows ↔ r ∈ (L.take k).map Migration.row := by
  rw [Db.rows, mem_sortBy, h.recorded]

/-- A migration that is found was there when the rows were read. -/
theorem Loop.Behind.finds {done rest : List Migration} {m : Migration} {l : Loop} {r : Recorded}
    (h : l.Behind L release k done (m :: rest)) (hL : (L.map Migration.version).Nodup)
    (hrelease : release <+: L) (hfound : recordedAt l.known m.version = some r) {now : Bool} :
    (⟨l.known, rest, l.result ++ [m.applied now]⟩ : Loop).Behind L release k (done ++ [m])
      rest := by
  obtain ⟨k₀, hknown, hk⟩ := h.known
  obtain ⟨tail, rfl⟩ := hrelease
  rw [h.release] at hknown hL ⊢
  rw [List.append_assoc, List.cons_append] at hL
  have hlt : done.length < k₀ := by
    rw [← mem_take_iff hL]
    obtain ⟨hmem, hversion⟩ := recordedAt_eq_some hfound
    obtain ⟨m', hm', rfl⟩ := List.mem_map.mp ((hknown r).mp hmem)
    rw [List.append_assoc, List.cons_append] at hm'
    have hsame : m' = m := List.inj_on_of_nodup_map hL (List.mem_of_mem_take hm') (by simp) hversion
    rwa [hsame] at hm'
  refine ⟨by simp, ?_, k₀, hknown, ?_⟩
  · rw [List.map_append, List.map_append, h.result]
    rfl
  · rw [hk, List.length_append, List.length_singleton]
    omega

/-- A migration that is not found is the next one. -/
theorem Loop.Behind.missing {done rest : List Migration} {m : Migration} {l : Loop}
    (h : l.Behind L release k done (m :: rest)) (hL : (L.map Migration.version).Nodup)
    (hrelease : release <+: L) (hnone : recordedAt l.known m.version = none) : k = done.length := by
  obtain ⟨k₀, hknown, hk⟩ := h.known
  obtain ⟨tail, rfl⟩ := hrelease
  rw [h.release, List.append_assoc, List.cons_append] at hL
  have hle : ¬ done.length < k₀ := by
    rw [← mem_take_iff hL]
    intro hmem
    refine recordedAt_eq_none.mp hnone m.row ((hknown _).mpr (List.mem_map.mpr ⟨m, ?_, rfl⟩)) rfl
    rwa [h.release, List.append_assoc, List.cons_append]
  omega

/-- Committing the next migration. -/
theorem Loop.Behind.commits {done rest : List Migration} {m : Migration} {l : Loop} {db : Db ι}
    (h : l.Behind L release k done (m :: rest)) (hk : k = done.length) (hrelease : release <+: L)
    (hdb : db.At L k) :
    (db.commit m).At L (k + 1) ∧ (L.take (k + 1)).map Migration.version =
      (L.take k).map Migration.version ++ [m.version] ∧
      (⟨l.known, rest, l.result ++ [m.applied true]⟩ : Loop).Behind L release (k + 1)
        (done ++ [m]) rest := by
  obtain ⟨tail, rfl⟩ := hrelease
  have hsplit : release ++ tail = done ++ m :: (rest ++ tail) := by
    rw [h.release, List.append_assoc, List.cons_append]
  have htake : (release ++ tail).take k = done := by
    rw [hsplit, hk, List.take_left']
    rfl
  have hnext : (release ++ tail).take (k + 1) = done ++ [m] := by
    rw [hsplit, hk, List.take_append, List.take_of_length_le (by omega)]
    simp
  refine ⟨⟨?_, ?_, ?_⟩, ?_, ?_, ?_, ?_⟩
  · rw [hsplit, hk]
    simp
  · rw [Db.commit, hdb.recorded, hnext, htake, List.map_append]
    rfl
  · rw [Db.commit, hdb.executed, hnext, htake, List.map_append]
    rfl
  · rw [hnext, htake, List.map_append]
    rfl
  · rw [h.release]
    simp
  · rw [List.map_append, List.map_append, h.result]
    rfl
  · obtain ⟨k₀, hknown, hk'⟩ := h.known
    refine ⟨k₀, hknown, ?_⟩
    rw [List.length_append, List.length_singleton]
    omega

/-- A statement that leaves the rows alone. -/
theorem Db.At.kept {db db' : Db ι} {pc pc' : Migrate} (hdb : db.At L k)
    (hrecorded : db'.recorded = db.recorded) (hexecuted : db'.executed = db.executed)
    (hpc : pc'.At L release k) (hnow : ∀ v ∈ pc'.appliedNow, v ∈ pc.appliedNow) :
    ∃ k', k ≤ k' ∧ db'.At L k' ∧ pc'.At L release k' ∧ (k' ≠ k → pc.holdsLock = true) ∧
      ∃ new, (L.take k').map Migration.version = (L.take k).map Migration.version ++ new ∧
        ∀ v ∈ pc'.appliedNow, v ∈ pc.appliedNow ∨ v ∈ new :=
  ⟨k, le_rfl, ⟨hdb.le, hrecorded.trans hdb.recorded, hexecuted.trans hdb.executed⟩, hpc,
    fun hne => absurd rfl hne, [], (List.append_nil _).symm, fun v hv => .inl (hnow v hv)⟩

/-- A call without a result tells of nothing. -/
theorem appliedNow_of_result {pc pc' : Migrate} (h : pc.result = []) :
    ∀ v ∈ pc.appliedNow, v ∈ pc'.appliedNow := by
  simp [Migrate.appliedNow, h]

/-- What a statement keeps: the database holds the first migrations, perhaps one more, which only
the holder of the lock adds and says that it added. -/
theorem MigrateStep.keeps {p : ι} {db db' : Db ι} {pc pc' : Migrate}
    (h : MigrateStep p release db pc db' pc') (hL : (L.map Migration.version).Nodup)
    (hrelease : release <+: L) (hdb : db.At L k) (hpc : pc.At L release k) :
    ∃ k', k ≤ k' ∧ db'.At L k' ∧ pc'.At L release k' ∧ (k' ≠ k → pc.holdsLock = true) ∧
      ∃ new, (L.take k').map Migration.version = (L.take k).map Migration.version ++ new ∧
        ∀ v ∈ pc'.appliedNow, v ∈ pc.appliedNow ∨ v ∈ new := by
  cases h with
  | locks _ => exact hdb.kept rfl rfl trivial (appliedNow_of_result rfl)
  | cannotLock => exact hdb.kept rfl rfl trivial (appliedNow_of_result rfl)
  | creates => exact hdb.kept rfl rfl trivial (appliedNow_of_result rfl)
  | createsUnheard => exact hdb.kept rfl rfl trivial (appliedNow_of_result rfl)
  | reads =>
      refine hdb.kept rfl rfl ⟨[], rfl, rfl, k, fun r => hdb.mem_rows, ?_⟩
        (appliedNow_of_result rfl)
      exact (max_eq_left (Nat.zero_le k)).symm
  | finds hfound _ =>
      obtain ⟨done, hbehind⟩ := hpc
      refine hdb.kept rfl rfl ⟨_, hbehind.finds hL hrelease hfound⟩ fun v hv => ?_
      simpa [Migrate.appliedNow, Migrate.result, Migration.applied] using hv
  | refuses _ _ => exact hdb.kept rfl rfl trivial (appliedNow_of_result rfl)
  | begins hnone =>
      obtain ⟨done, hbehind⟩ := hpc
      exact hdb.kept rfl rfl ⟨done, ⟨hbehind.release, hbehind.result, hbehind.known⟩,
        hbehind.missing hL hrelease hnone⟩ fun v hv => hv
  | executes => exact hdb.kept rfl rfl hpc fun v hv => hv
  | inserts _ => exact hdb.kept rfl rfl hpc fun v hv => hv
  | @commits m l _ =>
      obtain ⟨done, hbehind, hk⟩ := hpc
      obtain ⟨hdb', hversions, hbehind'⟩ := hbehind.commits hk hrelease hdb
      refine ⟨k + 1, Nat.le_succ k, hdb', ⟨_, hbehind'⟩, fun _ => rfl, [m.version], hversions,
        fun v hv => ?_⟩
      simpa [Migrate.appliedNow, Migrate.result, Migration.applied, Migration.row, or_and_right,
        exists_or] using hv
  | @commitsUnheard m l message _ =>
      obtain ⟨done, hbehind, hk⟩ := hpc
      obtain ⟨hdb', hversions, -⟩ := hbehind.commits hk hrelease hdb
      exact ⟨k + 1, Nat.le_succ k, hdb', trivial, fun _ => rfl, [m.version], hversions,
        fun v hv => .inl (appliedNow_of_result rfl v hv)⟩
  | ends =>
      obtain ⟨done, hbehind⟩ := hpc
      obtain ⟨k₀, -, hk⟩ := hbehind.known
      have hdone : release = done := by rw [hbehind.release, List.append_nil]
      refine hdb.kept rfl rfl ⟨?_, ?_⟩ fun v hv => hv
      · rw [hdone]
        exact hbehind.result
      · rw [hdone, hk]
        exact le_max_right k₀ _
  | throws _ => exact hdb.kept rfl rfl trivial (appliedNow_of_result rfl)
  | @unlocks outcome =>
      cases outcome with
      | error message => exact hdb.kept rfl rfl trivial fun v hv => hv
      | ok result => exact hdb.kept rfl rfl hpc fun v hv => hv

/-- The lock is held by the call that took it, and by no other. -/
theorem MigrateStep.lock {p : ι} {db db' : Db ι} {pc pc' : Migrate}
    (h : MigrateStep p release db pc db' pc') (hlock : pc.holdsLock = true → db.lock = some p) :
    (pc'.holdsLock = true → db'.lock = some p) ∧
      ∀ q, q ≠ p → db.lock = some q → db'.lock = some q := by
  cases h with
  | locks hfree => exact ⟨fun _ => rfl, fun q _ hq => by cases hfree.symm.trans hq⟩
  | cannotLock => exact ⟨fun hholds => absurd hholds Bool.false_ne_true, fun _ _ hq => hq⟩
  | commits _ => exact ⟨fun _ => hlock rfl, fun _ _ hq => hq⟩
  | commitsUnheard _ => exact ⟨fun _ => hlock rfl, fun _ _ hq => hq⟩
  | throws hrunning =>
      refine ⟨fun _ => hlock ?_, fun _ _ hq => hq⟩
      cases pc <;> first | rfl | cases hrunning
  | unlocks =>
      refine ⟨fun hholds => absurd hholds Bool.false_ne_true, fun q hne hq => ?_⟩
      exact absurd (Option.some.inj (hq.symm.trans (hlock rfl))) hne
  | _ => exact ⟨fun _ => hlock rfl, fun _ _ hq => hq⟩

/-! ### Runs -/

/-- The database holds the first `k` migrations, each told as its own by one call at most. -/
structure Sound (L : List Migration) (releases : ι → List Migration) (k : ℕ) (s : State ι) :
    Prop where
  db : s.db.At L k
  lock : ∀ p, (s.calls p).holdsLock = true → s.db.lock = some p
  calls : ∀ p, (s.calls p).At L (releases p) k
  applied : ∀ p, ∀ v ∈ (s.calls p).appliedNow, v ∈ (L.take k).map Migration.version
  once : ∀ p q v, v ∈ (s.calls p).appliedNow → v ∈ (s.calls q).appliedNow → p = q

theorem sound_fresh (releases : ι → List Migration) : Sound L releases 0 State.fresh where
  db := ⟨Nat.zero_le _, rfl, rfl⟩
  lock p hholds := by cases hholds
  calls p := trivial
  applied p v hv := by simp [State.fresh, Migrate.appliedNow, Migrate.result] at hv
  once p q v hv := by simp [State.fresh, Migrate.appliedNow, Migrate.result] at hv

theorem Step.sound [DecidableEq ι] {releases : ι → List Migration} {s s' : State ι}
    (h : Step releases s s') (hL : (L.map Migration.version).Nodup)
    (hreleases : ∀ p, releases p <+: L) (hs : Sound L releases k s) :
    ∃ k', k ≤ k' ∧ Sound L releases k' s' := by
  obtain @⟨p, db, pc, hstep⟩ := h
  obtain ⟨k', hk, hdb, hpc, hholds, new, hversions, hnew⟩ :=
    hstep.keeps hL (hreleases p) hs.db (hs.calls p)
  obtain ⟨hown, hothers⟩ := hstep.lock (hs.lock p)
  have hdistinct : ((L.take k').map Migration.version).Nodup :=
    hL.sublist ((List.take_sublist k' L).map _)
  rw [hversions] at hdistinct
  have hold : ∀ q, ∀ v ∈ (s.calls q).appliedNow, v ∉ new := fun q v hv hmem =>
    (List.nodup_append.mp hdistinct).2.2 v (hs.applied q v hv) v hmem rfl
  refine ⟨k', hk, hdb, fun q hq => ?_, fun q => ?_, fun q v hv => ?_, fun q q' v hv hv' => ?_⟩
  · dsimp only at hq ⊢
    rcases eq_or_ne q p with rfl | hne
    · rw [Function.update_self] at hq
      exact hown hq
    · rw [Function.update_of_ne hne] at hq
      exact hothers q hne (hs.lock q hq)
  · dsimp only
    rcases eq_or_ne q p with rfl | hne
    · rwa [Function.update_self]
    · rw [Function.update_of_ne hne]
      rcases eq_or_ne k' k with rfl | hgrown
      · exact hs.calls q
      · refine (hs.calls q).mono ?_ hk
        by_contra hheld
        rw [Bool.not_eq_false] at hheld
        have hsame := (hs.lock q hheld).symm.trans (hs.lock p (hholds hgrown))
        exact hne (Option.some.inj hsame)
  · dsimp only at hv
    rw [hversions, List.mem_append]
    rcases eq_or_ne q p with rfl | hne
    · rw [Function.update_self] at hv
      exact (hnew v hv).imp_left (hs.applied q v)
    · rw [Function.update_of_ne hne] at hv
      exact .inl (hs.applied q v hv)
  · dsimp only at hv hv'
    rcases eq_or_ne q p with rfl | hne
    · rcases eq_or_ne q' q with rfl | hne'
      · rfl
      · rw [Function.update_self] at hv
        rw [Function.update_of_ne hne'] at hv'
        rcases hnew v hv with hv | hv
        · exact hs.once q q' v hv hv'
        · exact absurd hv (hold q' v hv')
    · rw [Function.update_of_ne hne] at hv
      rcases eq_or_ne q' p with rfl | hne'
      · rw [Function.update_self] at hv'
        rcases hnew v hv' with hv' | hv'
        · exact hs.once q q' v hv hv'
        · exact absurd hv' (hold q v hv)
      · rw [Function.update_of_ne hne'] at hv'
        exact hs.once q q' v hv hv'

theorem sound_of_run [DecidableEq ι] {releases : ι → List Migration} {s : State ι}
    (hL : (L.map Migration.version).Nodup) (hreleases : ∀ p, releases p <+: L)
    (h : Relation.ReflTransGen (Step releases) State.fresh s) : ∃ k, Sound L releases k s := by
  induction h with
  | refl => exact ⟨0, sound_fresh releases⟩
  | tail _ hstep ih =>
      obtain ⟨k, hs⟩ := ih
      obtain ⟨k', -, hs'⟩ := hstep.sound hL hreleases hs
      exact ⟨k', hs'⟩

/-! ### The status of a database that `migrate` has left -/

theorem missing_eq_none {rows : List Recorded} {m : Migration} :
    missing rows m = none ↔
      ∃ row, recordedAt rows m.version = some row ∧ row.checksum = migrationChecksum m := by
  unfold missing
  cases recordedAt rows m.version with
  | none => simp
  | some row => simp

theorem unknown_eq_none {migrations : List Migration} {row : Recorded} :
    unknown migrations row = none ↔ ∃ m ∈ migrations, m.version = row.version := by
  simp [unknown]

/-- A schema is current for a release when the database holds its migrations and no others. -/
theorem current_iff {db : Db ι} (hL : (L.map Migration.version).Nodup) (hrelease : release <+: L)
    (hdb : db.At L k) : (schemaStatus release db).current = true ↔
      db.created = true ∧ db.recorded = release.map Migration.row := by
  have hversion : ∀ m ∈ L, ∀ m' ∈ L, m.version = m'.version → m = m' :=
    fun m hm m' hm' hsame => List.inj_on_of_nodup_map hL hm hm' hsame
  have hproblems : release.filterMap (missing db.rows) ++ db.rows.filterMap (unknown release) = [] ↔
      db.recorded = release.map Migration.row := by
    rw [List.append_eq_nil_iff, List.filterMap_eq_nil_iff, List.filterMap_eq_nil_iff]
    simp only [missing_eq_none, unknown_eq_none]
    constructor
    · rintro ⟨hall, hnone⟩
      have hsub : release ⊆ L.take k := by
        intro m hm
        obtain ⟨row, hrow, -⟩ := hall m hm
        obtain ⟨hmem, hv⟩ := recordedAt_eq_some hrow
        obtain ⟨m', hm', rfl⟩ := List.mem_map.mp (hdb.mem_rows.mp hmem)
        rwa [← hversion m' (List.mem_of_mem_take hm') m (hrelease.subset hm) hv]
      have hsup : L.take k ⊆ release := by
        intro m hm
        obtain ⟨m', hm', hv⟩ := hnone m.row (hdb.mem_rows.mpr (List.mem_map_of_mem hm))
        rwa [hversion m (List.mem_of_mem_take hm) m' (hrelease.subset hm') hv.symm]
      have hdistinct : L.Nodup := List.Nodup.of_map _ hL
      have hle := (List.Nodup.subperm (hdistinct.sublist hrelease.sublist) hsub).length_le
      have hge := (List.Nodup.subperm (hdistinct.sublist (List.take_sublist k L)) hsup).length_le
      have htake : L.take k = release :=
        (List.prefix_of_prefix_length_le (List.take_prefix k L) hrelease hge).eq_of_length
          (le_antisymm hge hle)
      rw [hdb.recorded, htake]
    · intro heq
      have hrows : ∀ r, r ∈ db.rows ↔ r ∈ release.map Migration.row := by
        intro r
        rw [Db.rows, mem_sortBy, heq]
      refine ⟨fun m hm => ?_, fun r hr => ?_⟩
      · cases hfound : recordedAt db.rows m.version with
        | none =>
            exact absurd rfl (recordedAt_eq_none.mp hfound m.row
              ((hrows _).mpr (List.mem_map_of_mem hm)))
        | some row =>
            obtain ⟨hmem, hv⟩ := recordedAt_eq_some hfound
            obtain ⟨m', hm', rfl⟩ := List.mem_map.mp ((hrows row).mp hmem)
            refine ⟨_, rfl, ?_⟩
            rw [hversion m' (hrelease.subset hm') m (hrelease.subset hm) hv]
            rfl
      · obtain ⟨m, hm, rfl⟩ := List.mem_map.mp ((hrows r).mp hr)
        exact ⟨m, hm, rfl⟩
  unfold schemaStatus
  dsimp only
  cases hcreated : db.created with
  | false => simp
  | true =>
      rw [if_neg (by decide), ← hproblems]
      simp

end invariant

/-- However the statements of any number of calls interleave, fail or lose their answer, the
database holds the first migrations of the list, each executed and recorded once and in order; a
call that returns has its release applied and lists all of it; a migration is told to be applied
now by one call at most; and the status of a schema is current exactly when the database holds
the migrations of the release and no others. -/
theorem migrated_once {ι : Type} [DecidableEq ι] {L : List Migration}
    {releases : ι → List Migration} {s : State ι} (hL : (L.map Migration.version).Nodup)
    (hreleases : ∀ p, releases p <+: L)
    (h : Relation.ReflTransGen (Step releases) State.fresh s) :
    (∃ k, s.db.recorded = (L.take k).map Migration.row ∧
      s.db.executed = (L.take k).map Migration.sql) ∧
    (∀ p result, s.calls p = .returned (.ok result) →
      result.map AppliedMigration.toRecorded = (releases p).map Migration.row ∧
        (releases p).map Migration.row <+: s.db.recorded) ∧
    (∀ p q result result' a a', s.calls p = .returned (.ok result) →
      s.calls q = .returned (.ok result') → a ∈ result → a' ∈ result' → a.appliedNow = true →
      a'.appliedNow = true → a.version = a'.version → p = q) ∧
    ∀ release, release <+: L → ((schemaStatus release s.db).current = true ↔
      s.db.created = true ∧ s.db.recorded = release.map Migration.row) := by
  obtain ⟨k, hs⟩ := sound_of_run hL hreleases h
  refine ⟨⟨k, hs.db.recorded, hs.db.executed⟩, fun p result hp => ?_,
    fun p q result result' a a' hp hq ha ha' hnow hnow' hversion => ?_,
    fun release hrelease => current_iff hL hrelease hs.db⟩
  · have hat := hs.calls p
    rw [hp] at hat
    refine ⟨hat.1, ?_⟩
    rw [hs.db.recorded]
    refine List.IsPrefix.map _
      (List.prefix_of_prefix_length_le (hreleases p) (List.take_prefix k L) ?_)
    rw [List.length_take]
    exact le_min hat.2 (hreleases p).length_le
  · refine hs.once p q a.version ?_ ?_
    · rw [hp]
      exact List.mem_map.mpr ⟨a, List.mem_filter.mpr ⟨ha, hnow⟩, rfl⟩
    · rw [hq, hversion]
      exact List.mem_map.mpr ⟨a', List.mem_filter.mpr ⟨ha', hnow'⟩, rfl⟩

namespace Sample

def runs : Migration := ⟨1, txt "runs", txt "CREATE TABLE qe_runs ()"⟩

def lines : Migration := ⟨2, txt "lines", txt "CREATE TABLE qe_lines ()"⟩

/-- A call of an earlier release and one of the next. -/
def releases : Bool → List Migration
  | false => [runs]
  | true => [runs, lines]

/-- The database after both calls. -/
def migrated : Db Bool := ⟨true, [runs.row, lines.row], [runs.sql, lines.sql], none⟩

/-- A call goes on. -/
theorem goes {s s' : State Bool} (p : Bool) {db : Db Bool} {pc : Migrate}
    (h : Relation.ReflTransGen (Step releases) s' s)
    (hstep : MigrateStep p (releases p) s.db (s.calls p) db pc) :
    Relation.ReflTransGen (Step releases) s' ⟨db, Function.update s.calls p pc⟩ :=
  h.tail (.call hstep)

/-- The earlier release applies the first migration; the next one, which waited for the lock, finds
it and applies the second. -/
theorem run : ∃ s : State Bool, Relation.ReflTransGen (Step releases) State.fresh s ∧
    s.db = migrated ∧ s.calls false = .returned (.ok [runs.applied true]) ∧
    s.calls true = .returned (.ok [runs.applied false, lines.applied true]) := by
  have hfresh : Relation.ReflTransGen (Step releases) State.fresh State.fresh := .refl
  have hread := goes false (goes false (goes false hfresh (.locks rfl)) .creates) .reads
  have hruns := goes false (goes false (goes false (goes false hread (.begins rfl)) .executes)
    (.inserts (by decide))) (.commits (by decide))
  have hfirst := goes false (goes false hruns .ends) .unlocks
  have hread := goes true (goes true (goes true hfirst (.locks rfl)) .creates) .reads
  have hfound := goes true hread (.finds (show recordedAt _ _ = some runs.row from rfl) rfl)
  have hlines := goes true (goes true (goes true (goes true hfound (.begins rfl)) .executes)
    (.inserts (by decide))) (.commits (by decide))
  exact ⟨_, goes true (goes true hlines .ends) .unlocks, rfl, rfl, rfl⟩

end Sample

/-- Behind both calls the schema is current for the next release and not for the earlier one. -/
theorem migrated_once_twice :
    (schemaStatus [Sample.runs, Sample.lines] Sample.migrated).current = true ∧
      (schemaStatus [Sample.runs] Sample.migrated).current = false := by
  obtain ⟨s, hrun, hdb, -, -⟩ := Sample.run
  have hreleases : ∀ p, Sample.releases p <+: [Sample.runs, Sample.lines] := by
    intro p
    cases p with
    | false => exact List.prefix_append [Sample.runs] [Sample.lines]
    | true => exact List.prefix_rfl
  have hcurrent := (migrated_once (by decide) hreleases hrun).2.2.2
  rw [hdb] at hcurrent
  refine ⟨(hcurrent _ (hreleases true)).mpr ⟨rfl, rfl⟩, ?_⟩
  rw [Bool.eq_false_iff]
  intro h
  have hlength := congrArg List.length ((hcurrent _ (hreleases false)).mp h).2
  exact absurd hlength (by decide)

end QeReport.Migrations

import ReplicaRing.Proofs.Catalog.Plan
import ReplicaRing.Proofs.Log.Plan
import ReplicaRing.Store

/-!
# The accesses of a store

The accesses of its catalog and of its log, one after the other: a write changes the catalog
first and then appends the value (`Store.writePlan`). So a process that stops in between leaves
a key that is listed without a value.

Left alone, the plans do what the operations of the store do (`Store.run_putPlan` and so on).
-/

namespace ReplicaRing.Store

open FileTree Log

variable {α β : Type}

/-- The log of a store. -/
def logFocus : Focus Store Log where
  get := log
  set log s := { s with log }
  get_set _ _ := rfl
  set_get _ := rfl
  set_set _ _ _ := rfl

/-- The files of a store. -/
def diskFocus : Focus Store FileTree where
  get := disk
  set disk s := { s with log := { s.log with disk } }
  get_set _ _ := rfl
  set_get _ := rfl
  set_set _ _ _ := rfl

/-! ## Operations -/

/-- Accesses that may change the catalog. Its memory is replaced at their end. -/
def catalogPlan (change : Catalog → Plan FileTree (Except StorageError α × Catalog)) :
    Plan Store (Except StorageError α) := do
  let c ← .ask catalog
  let r ← (change c).within diskFocus
  .touch fun s => { s with catalog := r.2 }
  return r.1

/-- The accesses of `Store.get`. -/
def getPlan (key : String) : Plan Store (Except StorageError (Option Bytes)) := do
  .touch (·.count .storeGets)
  (readLatestPlan key).within logFocus

/-- The accesses of `Store.getAsOf`. -/
def getAsOfPlan (key : String) (t : Time) : Plan Store (Except StorageError (Option Bytes)) := do
  .touch (·.count .storeGets)
  (readAsOfPlan key t).within logFocus

/-- The accesses of `Store.getRange`. -/
def getRangePlan (key : String) (first final : Time) :
    Plan Store (Except StorageError (List Bytes)) := do
  .touch (·.count .storeGets)
  (readRangePlan key first final).within logFocus

/-- The accesses of `Store.appendListed`. -/
def appendListedPlan (key : String) (value : Bytes) (now : Time) :
    Plan Store (Except StorageError Time) := do
  match ← (appendNowPlan key value now).within logFocus with
  | .error e => return .error e
  | .ok tip =>
    .touch (·.count .storePuts)
    return .ok tip.time

/-- A change to the catalog and, if it is made, the write of a value. -/
def writePlan (change : Catalog → Plan FileTree (Except StorageError α × Catalog))
    (key : String) (value : Bytes) (now : Time) : Plan Store (Except StorageError Time) := do
  match ← catalogPlan change with
  | .error e => return .error e
  | .ok _ => appendListedPlan key value now

/-- The accesses of `Store.put`. -/
def putPlan (r : Replica) (value : Bytes) (now : Time) : Plan Store (Except StorageError Time) :=
  writePlan (·.insertPlan r) r.name value now

/-- The accesses of `Store.putReplica`. -/
def putReplicaPlan (r : Replica) (value : Bytes) (now : Time) :
    Plan Store (Except StorageError Time) :=
  writePlan (·.upsertPlan r) r.name value now

/-- The accesses of `Store.delete`. -/
def deletePlan (key : String) (now : Time) : Plan Store (Except StorageError Bool) := do
  match ← (publishedTipPlan key).within logFocus with
  | .error e => return .error e
  | .ok none => return .ok false
  | .ok (some _) =>
    match ← (appendNowPlan key [] now).within logFocus with
    | .error e => return .error e
    | .ok _ =>
      .touch (·.count .storeDeletes)
      return .ok true

/-- The accesses of `Store.setRank`. -/
def setRankPlan (key : String) (rank : Rank) : Plan Store (Except StorageError Bool) :=
  catalogPlan (·.setRankPlan key rank)

/-- The directories of a store, each made if it is missing. -/
def folders (root : Path) : List Step :=
  [.makeDirs root, .makeDirs (root ++ ["data"]), .makeDirs (root ++ ["index"])]

/-- The accesses of `Store.openAt`. -/
def openPlan (options : StoreOptions) (tally : Tally) :
    Plan FileTree (Except StorageError Store) := do
  match ← attemptAll (folders options.dataDir) with
  | .error e => return .error (.ofStep e)
  | .ok () =>
    match ← Catalog.loadPlan (options.dataDir ++ [Catalog.fileName]) with
    | .error e => return .error e
    | .ok catalog =>
      let disk ← .ask id
      return .ok ⟨⟨disk, options.dataDir, options.indexFanout, options.flush,
        .empty options.cacheCapacity, tally⟩, catalog⟩

/-! ## Operations that are left alone -/

theorem run_logFocus (p : Plan Log (Except StorageError α)) (s : Store) :
    (p.within logFocus).run s = s.ofLog (p.run s.log) :=
  Plan.run_within logFocus p s

theorem run_catalogPlan {change : Catalog → Plan FileTree (Except StorageError α × Catalog)}
    {s : Store} {r : Except StorageError α × Catalog × FileTree}
    (h : (change s.catalog).run s.disk = ((r.1, r.2.1), r.2.2)) :
    (catalogPlan change).run s = s.ofCatalog r := by
  simp only [catalogPlan, Plan.run_bind, Plan.run_ask, Plan.run_within, diskFocus, h, Plan.run_touch]
  rfl

theorem run_getPlan (s : Store) (key : String) : (getPlan key).run s = s.get key := by
  rw [getPlan, Plan.run_bind, Plan.run_touch, run_logFocus, run_readLatestPlan]
  rfl

theorem run_getAsOfPlan (s : Store) (key : String) (t : Time) :
    (getAsOfPlan key t).run s = s.getAsOf key t := by
  rw [getAsOfPlan, Plan.run_bind, Plan.run_touch, run_logFocus, run_readAsOfPlan]
  rfl

theorem run_getRangePlan (s : Store) (key : String) (first final : Time) :
    (getRangePlan key first final).run s = s.getRange key first final := by
  rw [getRangePlan, Plan.run_bind, Plan.run_touch, run_logFocus, run_readRangePlan]
  rfl

theorem run_appendListedPlan (s : Store) (key : String) (value : Bytes) (now : Time) :
    (appendListedPlan key value now).run s = s.appendListed key value now := by
  rw [appendListedPlan, appendListed, Plan.run_bind, run_logFocus, run_appendNowPlan]
  cases s.ofLog (s.log.appendNow key value now) with
  | mk r s => cases r <;> rfl

theorem run_putPlan (s : Store) (r : Replica) (value : Bytes) (now : Time) :
    (putPlan r value now).run s = s.put r value now := by
  rw [putPlan, writePlan, put, Plan.run_bind,
    run_catalogPlan (Catalog.run_insertPlan s.catalog r s.disk)]
  cases s.ofCatalog (s.catalog.insert s.disk r) with
  | mk res s =>
    cases res with
    | error e => rfl
    | ok a => exact run_appendListedPlan _ _ _ _

theorem run_putReplicaPlan (s : Store) (r : Replica) (value : Bytes) (now : Time) :
    (putReplicaPlan r value now).run s = s.putReplica r value now := by
  rw [putReplicaPlan, writePlan, putReplica, Plan.run_bind,
    run_catalogPlan (Catalog.run_upsertPlan s.catalog r s.disk)]
  cases s.ofCatalog (s.catalog.upsert s.disk r) with
  | mk res s =>
    cases res with
    | error e => rfl
    | ok a => exact run_appendListedPlan _ _ _ _

theorem run_deletePlan (s : Store) (key : String) (now : Time) :
    (deletePlan key now).run s = s.delete key now := by
  rw [deletePlan, delete, Plan.run_bind, run_logFocus, run_publishedTipPlan]
  cases s.ofLog (s.log.publishedTip key) with
  | mk r s =>
    cases r with
    | error e => rfl
    | ok tip =>
      cases tip with
      | none => rfl
      | some tip =>
        dsimp only
        rw [Plan.run_bind, run_logFocus, run_appendNowPlan]
        cases s.ofLog (s.log.appendNow key [] now) with
        | mk r s => cases r <;> rfl

theorem run_setRankPlan (s : Store) (key : String) (rank : Rank) :
    (setRankPlan key rank).run s = s.setRank key rank :=
  run_catalogPlan (Catalog.run_setRankPlan s.catalog key rank s.disk)

theorem run_openPlan (t : FileTree) (options : StoreOptions) (tally : Tally) :
    (openPlan options tally).run t = openAt t options tally := by
  rw [openPlan, openAt, Plan.run_bind, run_attemptAll, folders, FileTree.run, Step.apply]
  cases t.makeDirs options.dataDir with
  | error e => rfl
  | ok t =>
    dsimp only [ioStep, Log.openAt]
    cases t.run
      [.makeDirs (options.dataDir ++ ["data"]), .makeDirs (options.dataDir ++ ["index"])] with
    | mk r t =>
      cases r with
      | error e => rfl
      | ok u =>
        dsimp only
        rw [Plan.run_bind, Catalog.run_loadPlan]
        cases Catalog.load t (options.dataDir ++ [Catalog.fileName]) <;> rfl

end ReplicaRing.Store

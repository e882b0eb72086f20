import ReplicaRing.Log
import ReplicaRing.Proofs.FileTree.Access

/-!
# The accesses of a log

What a log does to its files and its cache, one access after the other. Reads take no locks, so
that anything may happen between their accesses; between those of a write, anything but another
write to the same key.

Every plan is that of a function of the log, and does the same if it is left alone
(`Log.run_appendPlan`, `Log.run_readLatestPlan` and so on).
-/

namespace ReplicaRing.Log

open FileTree

variable {α β : Type}

/-! ## Accesses -/

/-- The files of a log. -/
def diskFocus : Focus Log FileTree where
  get := disk
  set disk log := { log with disk }
  get_set _ _ := rfl
  set_get _ := rfl
  set_set _ _ _ := rfl

/-- The index file of a key is looked at, its tail only. -/
def tipAccess (key : String) : Access Log (Except StorageError (Option Index.Tip)) where
  run log := log.storedTip key
  fails _ log r log' := (∃ e, r = .error (.io e)) ∧ log' = log.enter "index_read"

/-- The index file of a key is read. -/
def indexAccess (key : String) : Access Log (Except StorageError (Option Index)) where
  run log := log.loadIndex key
  fails _ log r log' := (∃ e, r = .error (.io e)) ∧ log' = log.enter "index_read"

/-- The data file of a key is opened for reading. -/
def openAccess (key : String) : Access Log (Except StorageError Unit) where
  run log :=
    let log := log.enter "data_read"
    match log.disk.read (log.dataPath key) with
    | .error e => (.error (.io e), log)
    | .ok _ => (.ok (), log)
  fails _ log r log' := (∃ e, r = .error (.io e)) ∧ log' = log.enter "data_read"

/-- The bytes of a span are read off the data file of a key. -/
def spanAccess (key : String) (span : Index.Span) : Access Log (Except StorageError Bytes) where
  run log :=
    match log.disk.read (log.dataPath key) with
    | .error e => (.error (.io e), log)
    | .ok bs => (slice bs span, log)
  fails _ log r log' := (∃ e, r = .error (.io e)) ∧ log' = log

/-- What an index file with one more record begins with is read. -/
def baseAccess (path : Path) (hasTip : Bool) : Access Log (Except IoError Bytes) where
  run log := (log.indexBase path hasTip, log)
  fails _ log r log' := (∃ e, r = .error e) ∧ log' = log

/-! ## Reading -/

/-- The accesses of `Log.latestTip`. -/
def latestTipPlan (key : String) : Plan Log (Except StorageError (Option Index.Tip)) := do
  match ← .act fun log => log.cached key with
  | some tip => return .ok (some tip)
  | none => .access (tipAccess key)

/-- The value of a span; tombstones are not looked for in the file. -/
def spanPlan (key : String) (s : Index.Span) : Plan Log (Except StorageError Bytes) :=
  if s.isEmpty then return .ok [] else .access (spanAccess key s)

/-- The accesses of `Log.valuesIn`, span by span. -/
def valuesInPlan (key : String) : List Index.Span → Plan Log (Except StorageError (List Bytes))
  | [] => return .ok []
  | s :: ss => do
    match ← spanPlan key s with
    | .error e => return .error e
    | .ok v => return (← valuesInPlan key ss).map (v :: ·)

/-- The accesses of `Log.valuesAt`. -/
def valuesAtPlan (key : String) (spans : List Index.Span) :
    Plan Log (Except StorageError (List Bytes)) :=
  if spans.all (·.isEmpty) then return .ok (spans.map fun _ => [])
  else do
    match ← .access (openAccess key) with
    | .error e => return .error e
    | .ok () => valuesInPlan key spans

/-- The accesses of `Log.valueAt?`. -/
def valueAt?Plan (key : String) :
    Option Index.Span → Plan Log (Except StorageError (Option Bytes))
  | none => return .ok none
  | some span => do return (← valuesAtPlan key [span]).map fun vs => some (vs.headD [])

/-- The accesses of `Log.readLatest`. -/
def readLatestPlan (key : String) : Plan Log (Except StorageError (Option Bytes)) := do
  match ← latestTipPlan key with
  | .error e => return .error e
  | .ok tip => valueAt?Plan key (tip.map (·.span))

/-- The accesses of `Log.readAsOfIndex`. -/
def readAsOfIndexPlan (key : String) (t : Time) :
    Plan Log (Except StorageError (Option Bytes)) := do
  match ← .access (indexAccess key) with
  | .error e => return .error e
  | .ok x => valueAt?Plan key (x.bind (·.asOf t))

/-- The accesses of `Log.readAsOf`. -/
def readAsOfPlan (key : String) (t : Time) : Plan Log (Except StorageError (Option Bytes)) := do
  match ← .act fun log => log.cached key with
  | some tip => if tip.time ≤ t then valueAt?Plan key (some tip.span) else readAsOfIndexPlan key t
  | none => readAsOfIndexPlan key t

/-- The accesses of `Log.readRange`. -/
def readRangePlan (key : String) (first final : Time) :
    Plan Log (Except StorageError (List Bytes)) := do
  match ← .access (indexAccess key) with
  | .error e => return .error e
  | .ok none => return .ok []
  | .ok (some x) => valuesAtPlan key (x.range first final)

/-! ## Writing -/

/-- The cache learns of a tip. -/
def publish (key : String) (tip : Index.Tip) : Plan Log Unit :=
  .touch fun log => { log with cache := log.cache.publish key tip }

/-- The accesses of `Log.publishedTip`. -/
def publishedTipPlan (key : String) : Plan Log (Except StorageError (Option Index.Tip)) := do
  match ← .access (tipAccess key) with
  | .ok (some tip) =>
    publish key tip
    return .ok (some tip)
  | r => return r

/-- The accesses of `Log.writeData`. -/
def writeDataPlan (key : String) (start : Offset) (value : Bytes) :
    Plan Log (Except StorageError Unit) := do
  .touch fun log => log.enter "data_write"
  let path ← .ask fun log => log.dataPath key
  match ← (attemptAll (dataSteps path start value)).within diskFocus with
  | .ok () => return .ok ()
  | .error e => return .error (.ofStep e)

/-- The accesses of `Log.writeIndex` once it is known what the file begins with. -/
def recordPlan (path : Path) (old : Bytes) (e : Index.Entry) (temp : Path) :
    Plan Log (Except StorageError Unit) := do
  match ← (attemptAll (indexSteps temp path old e)).within diskFocus with
  | .ok () => return .ok ()
  | .error err =>
    .access ((FileTree.discard temp).within diskFocus)
    return .error (.ofStep err)

/-- The accesses of `Log.writeIndex`. -/
def writeIndexPlan (key : String) (e : Index.Entry) (hasTip : Bool) :
    Plan Log (Except StorageError Unit) := do
  .touch fun log => log.enter "index_write"
  let path ← .ask fun log => log.indexPath key
  match ← .access ((attempt (.makeDirs (folderOf path))).within diskFocus) with
  | .error e => return .error (.ofStep e)
  | .ok () =>
    let temp ← .ask fun log => log.disk.freshTemp path
    match ← .access (baseAccess path hasTip) with
    | .error err => return .error (.io err)
    | .ok old => recordPlan path old e temp

/-- The accesses of `Log.writeSpan`. -/
def writeSpanPlan (key : String) (hasTip : Bool) (value : Bytes) (new : Index.Tip) :
    Plan Log (Except StorageError Index.Tip) := do
  match ← writeDataPlan key new.span.start value with
  | .error e => return .error e
  | .ok () =>
    match ← writeIndexPlan key ⟨new.time, new.span.stop⟩ hasTip with
    | .error e => return .error e
    | .ok () =>
      publish key new
      return .ok new

/-- The accesses of `Log.write`. -/
def writePlan (key : String) (tip : Option Index.Tip) (value : Bytes) (t : Time) :
    Plan Log (Except StorageError Index.Tip) :=
  match wordAfter? (startBehind tip) value.length with
  | none => return .error .overflow
  | some stop => writeSpanPlan key tip.isSome value ⟨t, startBehind tip, stop⟩

/-- The accesses of `Log.append`. -/
def appendPlan (key : String) (value : Bytes) (t : Time) :
    Plan Log (Except StorageError Index.Tip) := do
  match ← publishedTipPlan key with
  | .error e => return .error e
  | .ok tip =>
    match tip.filter fun tip => t ≤ tip.time with
    | some tip => return .error (.index (.nonMonotonic tip.time t))
    | none => writePlan key tip value t

/-- The accesses of `Log.appendNow`. -/
def appendNowPlan (key : String) (value : Bytes) (now : Time) :
    Plan Log (Except StorageError Index.Tip) := do
  match ← publishedTipPlan key with
  | .error e => return .error e
  | .ok tip =>
    match stamp tip now with
    | none => return .error .overflow
    | some t => writePlan key tip value t

/-! ## Plans that are left alone -/

theorem run_latestTipPlan (log : Log) (key : String) :
    (latestTipPlan key).run log = log.latestTip key := by
  rw [latestTipPlan, latestTip, Plan.run_bind, Plan.run_act]
  cases log.cached key with
  | mk tip log => cases tip <;> rfl

theorem run_valuesInPlan {log : Log} {key : String} {bs : Bytes}
    (h : log.disk.read (log.dataPath key) = .ok bs) (spans : List Index.Span) :
    (valuesInPlan key spans).run log = (valuesIn bs spans, log) := by
  induction spans with
  | nil => rfl
  | cons s ss ih =>
    have hspan : (spanPlan key s).run log = (if s.isEmpty then .ok [] else slice bs s, log) := by
      rw [spanPlan]
      split
      · rfl
      · simp only [Plan.run_access, spanAccess, h]
    rw [valuesInPlan, valuesIn, Plan.run_bind, hspan]
    cases (if s.isEmpty then .ok [] else slice bs s : Except StorageError Bytes) with
    | error e => rfl
    | ok v => simp [ih]

theorem run_valuesAtPlan (log : Log) (key : String) (spans : List Index.Span) :
    (valuesAtPlan key spans).run log = log.valuesAt key spans := by
  rw [valuesAtPlan, valuesAt]
  split
  · rfl
  · rw [Plan.run_bind, Plan.run_access]
    simp only [openAccess]
    cases h : (log.enter "data_read").disk.read ((log.enter "data_read").dataPath key) with
    | error e => rfl
    | ok bs => exact run_valuesInPlan h spans

theorem run_valueAt?Plan (log : Log) (key : String) (span : Option Index.Span) :
    (valueAt?Plan key span).run log = log.valueAt? key span := by
  cases span with
  | none => rfl
  | some span =>
    rw [valueAt?Plan, valueAt?, valueAt, Plan.run_bind, run_valuesAtPlan]
    cases log.valuesAt key [span] with
    | mk r log => cases r <;> rfl

theorem run_readLatestPlan (log : Log) (key : String) :
    (readLatestPlan key).run log = log.readLatest key := by
  rw [readLatestPlan, readLatest, Plan.run_bind, run_latestTipPlan]
  cases log.latestTip key with
  | mk r log =>
    cases r with
    | error e => rfl
    | ok tip => exact run_valueAt?Plan _ _ _

theorem run_readAsOfIndexPlan (log : Log) (key : String) (t : Time) :
    (readAsOfIndexPlan key t).run log = log.readAsOfIndex key t := by
  rw [readAsOfIndexPlan, readAsOfIndex, Plan.run_bind, Plan.run_access]
  simp only [indexAccess]
  cases log.loadIndex key with
  | mk r log =>
    cases r with
    | error e => rfl
    | ok x => exact run_valueAt?Plan _ _ _

theorem run_readAsOfPlan (log : Log) (key : String) (t : Time) :
    (readAsOfPlan key t).run log = log.readAsOf key t := by
  rw [readAsOfPlan, readAsOf, Plan.run_bind, Plan.run_act]
  cases log.cached key with
  | mk tip log =>
    cases tip with
    | none => exact run_readAsOfIndexPlan _ _ _
    | some tip =>
      dsimp only
      split
      · exact run_valueAt?Plan _ _ _
      · exact run_readAsOfIndexPlan _ _ _

theorem run_readRangePlan (log : Log) (key : String) (first final : Time) :
    (readRangePlan key first final).run log = log.readRange key first final := by
  rw [readRangePlan, readRange, Plan.run_bind, Plan.run_access]
  simp only [indexAccess]
  cases log.loadIndex key with
  | mk r log =>
    cases r with
    | error e => rfl
    | ok x =>
      cases x with
      | none => rfl
      | some x => exact run_valuesAtPlan _ _ _

theorem run_publishedTipPlan (log : Log) (key : String) :
    (publishedTipPlan key).run log = log.publishedTip key := by
  rw [publishedTipPlan, publishedTip, Plan.run_bind, Plan.run_access]
  simp only [tipAccess]
  cases log.storedTip key with
  | mk r log =>
    cases r with
    | error e => rfl
    | ok tip => cases tip <;> rfl

theorem run_writeDataPlan (log : Log) (key : String) (start : Offset) (value : Bytes) :
    (writeDataPlan key start value).run log = log.writeData key start value := by
  rw [writeDataPlan, writeData]
  simp only [Plan.run_bind, Plan.run_touch, Plan.run_ask, Plan.run_within, diskFocus, run_attemptAll]
  cases (log.enter "data_write").disk.run
    (dataSteps ((log.enter "data_write").dataPath key) start value) with
  | mk r t => cases r <;> rfl

theorem run_writeIndexPlan (log : Log) (key : String) (e : Index.Entry) (hasTip : Bool) :
    (writeIndexPlan key e hasTip).run log = log.writeIndex key e hasTip := by
  rw [writeIndexPlan, writeIndex]
  simp only [Plan.run_bind, Plan.run_touch, Plan.run_ask, Plan.run_access, Access.within,
    diskFocus, attempt, Step.apply]
  cases (log.enter "index_write").disk.makeDirs
    (folderOf ((log.enter "index_write").indexPath key)) with
  | error err => rfl
  | ok disk =>
    simp only [ioStep, Plan.run_bind, Plan.run_ask, Plan.run_access, baseAccess]
    cases Log.indexBase { log.enter "index_write" with disk }
      ((log.enter "index_write").indexPath key) hasTip with
    | error err => rfl
    | ok old =>
      simp only [recordPlan, Plan.run_bind, Plan.run_within, diskFocus, run_attemptAll]
      cases disk.run (indexSteps (disk.freshTemp ((log.enter "index_write").indexPath key))
        ((log.enter "index_write").indexPath key) old e) with
      | mk r t => cases r <;> rfl

theorem run_writeSpanPlan (log : Log) (key : String) (hasTip : Bool) (value : Bytes)
    (new : Index.Tip) :
    (writeSpanPlan key hasTip value new).run log = log.writeSpan key hasTip value new := by
  rw [writeSpanPlan, writeSpan, Plan.run_bind, run_writeDataPlan]
  cases log.writeData key new.span.start value with
  | mk r log =>
    cases r with
    | error e => rfl
    | ok u =>
      dsimp only
      rw [Plan.run_bind, run_writeIndexPlan]
      cases log.writeIndex key ⟨new.time, new.span.stop⟩ hasTip with
      | mk r log => cases r <;> rfl

theorem run_writePlan (log : Log) (key : String) (tip : Option Index.Tip) (value : Bytes)
    (t : Time) : (writePlan key tip value t).run log = log.write key tip value t := by
  rw [writePlan, write]
  cases wordAfter? (startBehind tip) value.length with
  | none => rfl
  | some stop => exact run_writeSpanPlan _ _ _ _ _

theorem run_appendPlan (log : Log) (key : String) (value : Bytes) (t : Time) :
    (appendPlan key value t).run log = log.append key value t := by
  rw [appendPlan, append, Plan.run_bind, run_publishedTipPlan]
  cases log.publishedTip key with
  | mk r log =>
    cases r with
    | error e => rfl
    | ok tip =>
      dsimp only
      cases tip.filter fun tip => decide (t ≤ tip.time) with
      | some tip => rfl
      | none => exact run_writePlan _ _ _ _ _

theorem run_appendNowPlan (log : Log) (key : String) (value : Bytes) (now : Time) :
    (appendNowPlan key value now).run log = log.appendNow key value now := by
  rw [appendNowPlan, appendNow, Plan.run_bind, run_publishedTipPlan]
  cases log.publishedTip key with
  | mk r log =>
    cases r with
    | error e => rfl
    | ok tip =>
      dsimp only
      cases stamp tip now with
      | none => rfl
      | some t => exact run_writePlan _ _ _ _ _

end ReplicaRing.Log

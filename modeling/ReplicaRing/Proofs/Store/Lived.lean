import ReplicaRing.Proofs.Store.Effect
import ReplicaRing.Proofs.Store.Kept

/-!
# Stores that were opened and used

A store is opened in an empty directory; calls are made, keys are read as of some time, and values
are appended to its log at any times. Any access may fail meanwhile, the process may stop at any
point, and the store may be opened again (`Store.Lived`). Nothing is asked for but that keys have
distinct digests: a call that finds no time or no room for its value breaks off.

The files of such a store tell some histories, and its cache has one slot for each key that it
knows (`Store.Lived.steady`). The steps are `Store.Keeps.safe_use` and `Store.preserves_use`.
-/

namespace ReplicaRing.Store

open FileTree Log

variable {K : Set String} {late : Bool} {root : Path} {H : String → History} {s : Store} {α : Type}

/-! ## Uses -/

/-- What is done with an open store and with its log. -/
inductive Use
  | call (c : Call)
  | getAsOf (key : String) (t : Time)
  | getRange (key : String) (first final : Time)
  | append (key : String) (value : Bytes) (t : Time)
  | appendNow (key : String) (value : Bytes) (now : Time)

namespace Use

/-- The key that a use is about. -/
def about : Use → String
  | call c => c.about
  | getAsOf key _ | getRange key _ _ | append key _ _ | appendNow key _ _ => key

/-- What is answered. -/
def Answer : Use → Type
  | call c => c.Answer
  | getAsOf .. => Option Bytes
  | getRange .. => List Bytes
  | append .. | appendNow .. => Index.Tip

/-- The answer of a store, and the store after it. -/
def run (s : Store) : (u : Use) → Except StorageError u.Answer × Store
  | call c => c.run s
  | getAsOf key t => s.getAsOf key t
  | getRange key first final => s.getRange key first final
  | append key value t => s.ofLog (s.log.append key value t)
  | appendNow key value now => s.ofLog (s.log.appendNow key value now)

/-- The accesses of a use. -/
def plan : (u : Use) → Plan Store (Except StorageError u.Answer)
  | call c => c.plan
  | getAsOf key t => getAsOfPlan key t
  | getRange key first final => getRangePlan key first final
  | append key value t => (appendPlan key value t).within logFocus
  | appendNow key value now => (appendNowPlan key value now).within logFocus

/-- Left alone, the accesses of a use do what the use does. -/
theorem run_plan (s : Store) (u : Use) : u.plan.run s = u.run s := by
  cases u with
  | call c => exact c.run_plan s
  | getAsOf key t => exact run_getAsOfPlan s key t
  | getRange key first final => exact run_getRangePlan s key first final
  | append key value t =>
    exact (run_logFocus _ s).trans (congrArg s.ofLog (run_appendPlan s.log key value t))
  | appendNow key value now =>
    exact (run_logFocus _ s).trans (congrArg s.ofLog (run_appendNowPlan s.log key value now))

end Use

/-- What can come to be of the store in the directory `root`, whatever fails. -/
inductive Lived (K : Set String) (late : Bool) (root : Path) : Phase → Prop
  /-- There is nothing yet. -/
  | fresh {t : FileTree} (hv : Vacant t root) : Lived K late root (.closed t)
  /-- The store is opened, with any settings. -/
  | opened {t t' : FileTree} {s : Store} {options : StoreOptions} {tally : Tally}
      (hs : Lived K late root (.closed t)) (ho : options.dataDir = root)
      (h : Plan.Ends late (openPlan options tally) t (.ok s) t') : Lived K late root (.opened s)
  /-- It cannot be opened, or the process stops in the middle of that. -/
  | unopened {t t' : FileTree} {options : StoreOptions} {tally : Tally}
      (hs : Lived K late root (.closed t)) (ho : options.dataDir = root)
      (h : Plan.Stops late (openPlan options tally) t t') : Lived K late root (.closed t')
  /-- The store is used, and anything may fail. -/
  | used {s s' : Store} (u : Use) (hkey : u.about ∈ K) {a : Except StorageError u.Answer}
      (hs : Lived K late root (.opened s)) (h : Plan.Ends late u.plan s a s') :
      Lived K late root (.opened s')
  /-- The process stops, in the middle of a use or before it. -/
  | stopped {s s' : Store} (u : Use) (hkey : u.about ∈ K) (hs : Lived K late root (.opened s))
      (h : Plan.Stops late u.plan s s') : Lived K late root (.closed s'.disk)

/-- A use that is left alone leads on. -/
theorem Lived.run (hs : Lived K late root (.opened s)) (u : Use) (hkey : u.about ∈ K) :
    Lived K late root (.opened (u.run s).2) := by
  have h := Plan.ends_run late u.plan s
  rw [u.run_plan] at h
  exact .used u hkey hs h

/-! ## Histories -/

/-- Whatever fails when a store is used, its files tell some histories. -/
theorem Keeps.safe_use (hk : Keeps K root (fun _ => True) H s) (hK : Distinct K) (u : Use)
    (hkey : u.about ∈ K) :
    Plan.Safe late (fun s' => Left K root (fun _ => True) s'.disk)
      (fun _ s' => ∃ H', Keeps K root (fun _ => True) H' s') u.plan s := by
  cases u with
  | call c => exact hk.safe_call hK c hkey c.rankIn_true
  | getAsOf key t => exact hk.safe_look (preserves_readAsOfPlan (fun _ _ h h₀ => h₀.trans h) key t)
  | getRange key first final =>
    exact hk.safe_look (preserves_readRangePlan (fun _ _ h h₀ => h₀.trans h) key first final)
  | append key value t =>
    exact hk.safe_within (hk.tells.safe_append_telling hK hkey value t)
      (safe_appendPlan s.log key value t)
  | appendNow key value now => exact hk.safe_appendNow hK hkey value now

/-! ## Slots -/

/-- The cache of the log has one slot for each key that it knows. -/
def Fitting (s : Store) : Prop := s.log.Fits

theorem preserves_count (m : Metric) : (Plan.touch fun s : Store => s.count m).Preserves Fitting :=
  Plan.preserves_act fun _ => id

theorem preserves_logFocus {p : Plan Log α} (h : p.Preserves Log.Fits) :
    (p.within logFocus).Preserves Fitting :=
  h.within logFocus

/-- A change to the catalog does not matter here. -/
theorem preserves_catalogPlan (change : Catalog → Plan FileTree (Except StorageError α × Catalog)) :
    (catalogPlan change).Preserves Fitting := by
  refine (Plan.preserves_ask _).bind fun c => ?_
  refine (Plan.preserves_within diskFocus (fun _ _ => id) _).bind fun r => ?_
  exact (Plan.preserves_act fun _ => id).bind fun _ => Plan.preserves_pure _

theorem preserves_writePlan (change : Catalog → Plan FileTree (Except StorageError α × Catalog))
    (key : String) (value : Bytes) (now : Time) :
    (writePlan change key value now).Preserves Fitting := by
  refine (preserves_catalogPlan change).bind fun r => ?_
  cases r with
  | error e => exact Plan.preserves_pure _
  | ok a =>
    refine (preserves_logFocus (preserves_appendNowPlan key value now)).bind fun r => ?_
    cases r with
    | error e => exact Plan.preserves_pure _
    | ok tip => exact (preserves_count _).bind fun _ => Plan.preserves_pure _

theorem preserves_deletePlan (key : String) (now : Time) :
    (deletePlan key now).Preserves Fitting := by
  refine (preserves_logFocus (preserves_publishedTipPlan key)).bind fun r => ?_
  rcases r with e | - | tip
  · exact Plan.preserves_pure _
  · exact Plan.preserves_pure _
  · refine (preserves_logFocus (preserves_appendNowPlan key [] now)).bind fun r => ?_
    cases r with
    | error e => exact Plan.preserves_pure _
    | ok tip => exact (preserves_count _).bind fun _ => Plan.preserves_pure _

/-- Whatever fails when a store is used, its cache fits. -/
theorem preserves_use (u : Use) : u.plan.Preserves Fitting := by
  have hlook : ∀ log log', Looked log log' → log.Fits → log'.Fits := fun _ _ h hf => hf.looked h
  cases u with
  | call c =>
    cases c with
    | put r value now => exact preserves_writePlan _ r.name value now
    | putReplica r value now => exact preserves_writePlan _ r.name value now
    | delete key now => exact preserves_deletePlan key now
    | setRank key rank => exact preserves_catalogPlan _
    | get key =>
      exact (preserves_count _).bind fun _ =>
        preserves_logFocus (preserves_readLatestPlan hlook key)
  | getAsOf key t =>
    exact (preserves_count _).bind fun _ => preserves_logFocus (preserves_readAsOfPlan hlook key t)
  | getRange key first final =>
    exact (preserves_count _).bind fun _ =>
      preserves_logFocus (preserves_readRangePlan hlook key first final)
  | append key value t => exact preserves_logFocus (preserves_appendPlan key value t)
  | appendNow key value now => exact preserves_logFocus (preserves_appendNowPlan key value now)

/-! ## Runs -/

/-- The cache fits, and the files tell histories. -/
def Phase.Telling (K : Set String) (root : Path) : Phase → Prop
  | closed t => Left K root (fun _ => True) t
  | opened s => Fitting s ∧ ∃ H, Keeps K root (fun _ => True) H s

theorem Lived.telling {p : Phase} (hs : Lived K late root p) (hK : Distinct K) :
    p.Telling K root := by
  induction hs with
  | fresh hv => exact left_of_vacant hv
  | opened _ ho h ih =>
    obtain ⟨hcache, hk⟩ := (ih.safe_openPlan ho _).ends _ _ h _ rfl
    refine ⟨?_, hk⟩
    rw [Fitting, Log.Fits, hcache]
    exact Cache.fits_empty _
  | unopened _ ho h ih => exact (ih.safe_openPlan ho _).stops _ h
  | used u hkey _ h ih =>
    obtain ⟨hf, H, hk⟩ := ih
    exact ⟨((preserves_use u).safe hf).ends _ _ h, (hk.safe_use hK u hkey).ends _ _ h⟩
  | stopped u hkey _ h ih =>
    obtain ⟨-, H, hk⟩ := ih
    exact (hk.safe_use hK u hkey).stops _ h

/-- Such a store tells histories. -/
theorem Lived.steady (hs : Lived K late root (.opened s)) (hK : Distinct K) :
    ∃ H, Steady K root H s := by
  obtain ⟨hf, H, hk⟩ := hs.telling hK
  exact ⟨H, hk.tells, hf, hk.path_eq, hk.ranks.sorted⟩

end ReplicaRing.Store

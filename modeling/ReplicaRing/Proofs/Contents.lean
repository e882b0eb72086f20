import ReplicaRing.Proofs.Catalog
import ReplicaRing.Proofs.Log.Refinement
import ReplicaRing.Store

/-!
# What a store holds

Of each key a store has two things, the replica that its catalog lists and the history that its
log keeps. Both together are its `Contents`. They need not agree: a key may be listed that has no
value yet, and a value may be kept whose key is not listed any more; any rank may be listed.

A store *holds* contents (`Store.Holds`) if it lists the replicas and keeps the histories. Its
operations are operations of the contents: `Store.Holds.get` leaves them as they are,
`Store.Holds.putReplica` is `Contents.put` and `Store.Holds.setRank` is `Contents.setRank`.

Nothing is said here of how many values there is room for; a write is one that the log is made
for (`Log.Call.Admissible`).
-/

namespace ReplicaRing

open Log

/-- What is known of each key: the replica that is listed, and the values that are kept. -/
structure Contents where
  listed : String → Option Replica
  history : String → History

namespace Contents

/-- The key of `r` is listed as `r`, unless it is listed under that rank already. -/
def enlist (C : Contents) (r : Replica) : Contents :=
  { C with
    listed := Function.update C.listed r.name
      (((C.listed r.name).filter fun held => held.rank = r.rank).or (some r)) }

/-- A value is written to `key` at `now`. -/
def write (C : Contents) (key : String) (value : Bytes) (now : Time) : Contents :=
  { C with history := ((Call.appendNow key value now).onHistories C.history).2 }

/-- A replica is listed and its value is written. -/
def put (C : Contents) (r : Replica) (value : Bytes) (now : Time) : Contents :=
  (C.enlist r).write r.name value now

/-- A listed key gets another rank. -/
def setRank (C : Contents) (key : String) (rank : Rank) : Contents :=
  { C with listed := Function.update C.listed key ((C.listed key).map fun r => { r with rank }) }

/-- A value came to `key` and is its last one now, and the key is listed under `rank`. Of other
    keys nothing has changed. -/
structure Gains (key : String) (rank : Nat) (value : Bytes) (C C' : Contents) : Prop where
  rank : (C'.listed key).map (·.rank.toNat) = some rank
  history : ∃ time, C'.history key = C.history key ++ [⟨time, value⟩]
  listed_of_ne : ∀ k, k ≠ key → C'.listed k = C.listed k
  history_of_ne : ∀ k, k ≠ key → C'.history k = C.history k

variable {C C' : Contents} {r : Replica} {key : String} {rank : Nat} {value : Bytes} {now : Time}

theorem Gains.latest (h : Gains key rank value C C') : (C'.history key).latest = some value := by
  obtain ⟨time, hh⟩ := h.history
  rw [hh, History.latest_concat]

/-- The time that a write to a key is stamped with, if it is given `now`. -/
def stampOf (C : Contents) (key : String) (now : Time) : Time :=
  match (C.history key).getLast? with
  | some l => max now (l.time + 1)
  | none => now

theorem history_write (C : Contents) (key : String) (value : Bytes) (now : Time) :
    (C.write key value now).history =
      Function.update C.history key (C.history key ++ [⟨C.stampOf key now, value⟩]) := by
  rw [write, stampOf]
  simp only [Call.onHistories]
  cases (C.history key).getLast? <;> rfl

theorem history_put (C : Contents) (r : Replica) (value : Bytes) (now : Time) :
    (C.put r value now).history = Function.update C.history r.name
      (C.history r.name ++ [⟨C.stampOf r.name now, value⟩]) :=
  history_write (C.enlist r) r.name value now

theorem listed_put (C : Contents) (r : Replica) (value : Bytes) (now : Time) :
    (C.put r value now).listed = Function.update C.listed r.name
      (((C.listed r.name).filter fun held => held.rank = r.rank).or (some r)) := rfl

theorem listed_setRank (C : Contents) (key : String) (rank : Rank) :
    (C.setRank key rank).listed =
      Function.update C.listed key ((C.listed key).map fun r => { r with rank }) := rfl

theorem gains_put (C : Contents) (r : Replica) (value : Bytes) (now : Time) :
    Gains r.name r.rank.toNat value C (C.put r value now) where
  rank := by
    rw [listed_put, Function.update_self]
    cases hf : (C.listed r.name).filter fun held => held.rank = r.rank with
    | none => rfl
    | some held =>
      have hrank := (Option.filter_eq_some_iff.1 hf).2
      rw [decide_eq_true_eq] at hrank
      rw [Option.some_or, Option.map_some, hrank]
  history := ⟨_, by rw [history_put, Function.update_self]⟩
  listed_of_ne _ hk := by rw [listed_put, Function.update_of_ne hk]
  history_of_ne _ hk := by rw [history_put, Function.update_of_ne hk]

end Contents

/-- The store lists and keeps these contents, for the keys in `K`. -/
structure Store.Holds (K : Set String) (s : Store) (C : Contents) : Prop where
  log : Keeps K s.log C.history
  path : s.catalog.path = s.log.root ++ [Catalog.fileName]
  sorted : Catalog.Sorted s.catalog.entries
  listed : ∀ k, s.replica? k = C.listed k

namespace Store.Holds

variable {K : Set String} {s : Store} {C : Contents} {key : String}

/-- What is counted does not matter. -/
theorem tally (hs : s.Holds K C) (tally : Tally) :
    Holds K { s with log := { s.log with tally } } C :=
  ⟨⟨hs.log.onDisk, hs.log.cached⟩, hs.path, hs.sorted, hs.listed⟩

/-- A read tells the last value, and changes nothing. -/
theorem get (hs : s.Holds K C) (hkey : key ∈ K) :
    ∃ s', s.get key = (.ok (C.history key).latest, s') ∧ s'.Holds K C := by
  obtain ⟨log', hr, hstill⟩ := (hs.tally (s.log.tally.add .storeGets 1)).log.readLatest hkey
  have hr' : (s.count .storeGets).log.readLatest key = (.ok (C.history key).latest, log') := hr
  refine ⟨{ s with log := log' }, ?_, hstill.keeps, ?_, hs.sorted, hs.listed⟩
  · rw [Store.get]
    simp only [Store.ofLog, hr']
    rfl
  · rw [hs.path, hstill.root]

/-! ## The catalog -/

/-- Other entries are stored. -/
theorem exists_store (hs : s.Holds K C) {es : List Replica} (hes : Catalog.Sorted es) :
    ∃ t, s.catalog.store s.disk es = (.ok (), { s.catalog with entries := es }, t) ∧
      Holds K ⟨{ s.log with disk := t }, { s.catalog with entries := es }⟩
        { C with listed := Catalog.find? es } := by
  obtain ⟨t, hst, hd⟩ := Catalog.exists_store hs.log.onDisk hs.path es
  exact ⟨t, hst, ⟨hd, hs.log.cached⟩, hs.path, hes, fun _ => rfl⟩

/-- A replica is put in its place among the entries. -/
theorem exists_place (hs : s.Holds K C) (r : Replica) :
    ∃ t, s.catalog.store s.disk (Catalog.place r s.catalog.entries) =
        (.ok (), { s.catalog with entries := Catalog.place r s.catalog.entries }, t) ∧
      Holds K ⟨{ s.log with disk := t },
          { s.catalog with entries := Catalog.place r s.catalog.entries }⟩
        { C with listed := Function.update C.listed r.name (some r) } := by
  obtain ⟨t, hst, hs'⟩ := hs.exists_store (Catalog.sorted_place hs.sorted r)
  have hfind : Catalog.find? (Catalog.place r s.catalog.entries) =
      Function.update C.listed r.name (some r) := by
    funext k
    rw [Catalog.find?_place hs.sorted, Function.update_apply, ← hs.listed k]
    rfl
  rw [hfind] at hs'
  exact ⟨t, hst, hs'⟩

/-- A key is listed under a rank, whatever it was listed under. -/
theorem upsert (hs : s.Holds K C) (r : Replica) :
    ∃ previous s', s.ofCatalog (s.catalog.upsert s.disk r) = (.ok previous, s') ∧
      s'.Holds K (C.enlist r) := by
  have hfind : Catalog.find? s.catalog.entries r.name = C.listed r.name := hs.listed r.name
  rw [Store.ofCatalog, Catalog.upsert, hfind, Contents.enlist]
  by_cases hp : (C.listed r.name).map (·.rank) = some r.rank
  · obtain ⟨held, hheld, hrank⟩ := Option.map_eq_some_iff.1 hp
    -- It is listed under this rank already, and nothing is stored.
    refine ⟨_, s, by simp only [if_pos hp]; rfl, ?_⟩
    rw [hheld, Option.filter_some, if_pos (by simpa using hrank), Option.some_or,
      Function.update_eq_self_iff.2 hheld.symm]
    exact hs
  · obtain ⟨t, hst, hs'⟩ := hs.exists_place r
    have hnone : (C.listed r.name).filter (fun held => held.rank = r.rank) = none := by
      rw [Option.filter_eq_none_iff]
      intro held hheld hrank
      rw [decide_eq_true_eq] at hrank
      exact hp (by rw [hheld, Option.map_some, hrank])
    rw [hnone, Option.none_or]
    exact ⟨_, _, by simp only [if_neg hp, hst]; rfl, hs'⟩

/-- A listed key gets another rank; of a key that is not listed nothing is known afterwards
    either. -/
theorem setRank (hs : s.Holds K C) (key : String) (rank : Rank) :
    ∃ s', s.setRank key rank = (.ok (C.listed key).isSome, s') ∧
      s'.Holds K (C.setRank key rank) := by
  have hfind : Catalog.find? s.catalog.entries key = C.listed key := hs.listed key
  rw [Store.setRank, Store.ofCatalog, Catalog.setRank, hfind, Contents.setRank]
  cases hc : C.listed key with
  | none =>
    refine ⟨s, rfl, ?_⟩
    rw [Option.map_none, Function.update_eq_self_iff.2 hc.symm]
    exact hs
  | some r =>
    have hname : r.name = key := (Catalog.mem_of_find? (hfind.trans hc)).2
    by_cases hr : r.rank = rank
    · refine ⟨s, by simp only [if_pos hr]; rfl, ?_⟩
      subst hr
      rw [Option.map_some, Function.update_eq_self_iff.2 hc.symm]
      exact hs
    · obtain ⟨t, hst, hs'⟩ := hs.exists_place { r with rank }
      refine ⟨_, by simp only [if_neg hr, hst]; rfl, ?_⟩
      have hn : ({ r with rank } : Replica).name = key := hname
      rw [hn] at hs'
      exact hs'

/-! ## Writes -/

/-- A value is written behind the others of its key. -/
theorem appendListed (hs : s.Holds K C) (hK : Distinct K) {value : Bytes} {now : Time}
    (ha : (Call.appendNow key value now).Admissible K C.history) :
    ∃ t s', s.appendListed key value now = (.ok t, s') ∧
      s'.Holds K (C.write key value now) := by
  obtain ⟨hans, hk, hroot⟩ := hs.log.call hK (.appendNow key value now) ha
  -- A history takes every write, and the log answers as its histories do.
  obtain ⟨tip, happ⟩ : ∃ tip, (s.log.appendNow key value now).1 = .ok tip := by
    have hout : ((Call.appendNow key value now).run s.log).1 =
        .written (s.log.appendNow key value now).1 := rfl
    rw [hout, Call.onHistories] at hans
    split at hans <;> exact ⟨_, Answer.written.inj hans⟩
  have hs' : Holds K { s with log := (s.log.appendNow key value now).2 } (C.write key value now) :=
    ⟨hk, hs.path.trans (congrArg (· ++ [Catalog.fileName]) hroot.symm), hs.sorted, hs.listed⟩
  refine ⟨tip.time, Store.count { s with log := (s.log.appendNow key value now).2 } .storePuts, ?_,
    hs'.tally _⟩
  rw [Store.appendListed, Store.ofLog, happ]

/-- A replica is listed and its value is written. -/
theorem putReplica (hs : s.Holds K C) (hK : Distinct K) {r : Replica} {value : Bytes} {now : Time}
    (ha : (Call.appendNow r.name value now).Admissible K C.history) :
    ∃ t s', s.putReplica r value now = (.ok t, s') ∧ s'.Holds K (C.put r value now) := by
  obtain ⟨previous, s₁, hup, hs₁⟩ := hs.upsert r
  obtain ⟨t, s₂, happ, hs₂⟩ := hs₁.appendListed hK ha
  refine ⟨t, s₂, ?_, hs₂⟩
  rw [Store.putReplica, hup]
  exact happ

end Store.Holds

/-! ## New stores -/

/-- A new store holds nothing. -/
theorem Store.exists_opened (K : Set String) (options : StoreOptions) (tally : Tally) :
    ∃ s, (Store.openAt .empty options tally).1 = .ok s ∧
      s.Holds K ⟨fun _ => none, fun _ => []⟩ := by
  have hv := vacant_empty options.dataDir
  obtain ⟨t, ht, hm⟩ := FileTree.exists_makeDirs hv.clear
  obtain ⟨log, ho, hk, hroot, hnone⟩ := (hv.makes hm).openAt (K := K) options.indexFanout
    options.cacheCapacity options.flush tally
  have hload : Catalog.load log.disk (options.dataDir ++ [Catalog.fileName]) =
      .ok ⟨options.dataDir ++ [Catalog.fileName], []⟩ := by
    have hn := hnone _ Catalog.not_isFolder_fileName
    have hclear : log.disk.Clear (options.dataDir ++ [Catalog.fileName]) := by
      have hl := hk.onDisk.layout.rooted_beside Catalog.fileName
      rw [hroot] at hl
      exact hl.clear (by simp [hn])
    rw [Catalog.load, FileTree.read_missing hclear hn]
  refine ⟨⟨log, ⟨options.dataDir ++ [Catalog.fileName], []⟩⟩, ?_, hk, ?_, .nil, fun _ => rfl⟩
  · rw [Store.openAt, ht]
    simp only [ho, hload]
  · rw [hroot]

end ReplicaRing

import ReplicaRing.Proofs.Arrivals
import ReplicaRing.Proofs.Store.Kept

/-!
# Deletions

A store by itself decides by the log whether there is something to delete: it writes a tombstone
to a key that has been written to, and leaves any other alone. A node looks at its list first. A
listed key it deletes without a look at the log, and sends the tombstone on along the chain; only
of a key that is not listed it asks for the value.

No key is written to that is not listed, so the two decide alike, but for a key that is listed and
was never written to. That is what is left of a write that failed half way: there the node makes a
tombstone of nothing.

Main statement: `Node.deletes`, of every node that its store has been of service to, whatever has
failed meanwhile.
-/

namespace ReplicaRing

open Log

variable {K : Set String} {late : Bool} {root : Path} {n : Rank} {s s' : Store}
  {P : Rank → Prop} {H : String → History} {key : String} {value : Bytes} {now : Time} {r : Replica}

/-! ## Stores -/

namespace Store

/-- Nothing has changed but what is counted, and what was looked up last. -/
structure Unchanged (s s' : Store) : Prop where
  log : Untouched s.log s'.log
  catalog : s'.catalog = s.catalog

/-- A value is written behind the history of the key, and the same keys are listed. -/
structure Writes (K : Set String) (root : Path) (H : String → History) (key : String)
    (value : Bytes) (now : Time) (s s' : Store) : Prop where
  tells : Tells K root s'.log (grown H key ((H key).next value now))
  catalog : s'.catalog = s.catalog

/-- A key that is not listed was never written to. -/
theorem eq_nil_of_unlisted (hl : Lists K late root s) (hk : Keeps K root P H s) (hkey : key ∈ K)
    (hnone : s.replica? key = none) : H key = [] := by
  rcases (hk.tells.onDisk.stored key hkey).index with ⟨-, hnil⟩ | ⟨-, fanout, hfile⟩
  · exact hnil
  · refine absurd hnone (hl.indexed.listed key hkey ?_)
    rw [show s.disk.get? _ = _ from hfile]
    simp

namespace Keeps

variable (hk : Keeps K root P H s) (hkey : key ∈ K)

include hk hkey

/-- A key has a value just if it has been written to. -/
theorem exists_get :
    ∃ v s', s.get key = (.ok v, s') ∧ (v = none ↔ H key = []) ∧ s.Unchanged s' := by
  obtain ⟨g, log', hread, hu, hg, hnil⟩ := (hk.count .storeGets).tells.exists_readLatest hkey
  refine ⟨History.latest g, { s with log := log' }, ?_, ?_, ⟨hu.root, hu.disk, hu.cache⟩, rfl⟩
  · rw [get]
    simp only [ofLog, hread]
    rfl
  · rw [History.latest, Option.map_eq_none_iff, List.getLast?_eq_none_iff]
    refine ⟨hnil, fun h => ?_⟩
    rw [h] at hg
    exact List.prefix_nil.1 hg

/-- A value is written to a listed key. -/
theorem exists_appendListed (hK : Distinct K) (hroom : s.HasRoom key value) (now : Time) :
    ∃ t s', s.appendListed key value now = (.ok t, s') ∧ s.Writes K root H key value now s' := by
  obtain ⟨tip, log', happ, ht⟩ := hk.tells.exists_appendNow hK hkey (hk.hasRoom hkey hroom) now
  refine ⟨tip.time, Store.count { s with log := log' } .storePuts, ?_, ht.untouched ?_, rfl⟩
  · rw [appendListed, ofLog, happ]
  · exact ⟨rfl, rfl, fun _ => rfl⟩

/-- A store by itself writes a tombstone to just the keys that have been written to. -/
theorem exists_delete (hK : Distinct K) (hroom : s.HasRoom key []) (now : Time) :
    ∃ s', s.delete key now = (.ok (decide (H key ≠ [])), s') ∧ (H key = [] → s.Unchanged s') ∧
      (H key ≠ [] → s.Writes K root H key [] now s') := by
  obtain ⟨log₁, hp, ht₁, hu⟩ := hk.tells.exists_publishedTip hkey
  rw [delete, ofLog, hp]
  by_cases hnil : H key = []
  · rw [hnil] at hu ⊢
    exact ⟨_, rfl, fun _ => ⟨hu rfl, rfl⟩, fun h => absurd rfl h⟩
  · obtain ⟨tip, htip⟩ := Option.ne_none_iff_exists'.1 (mt History.tip_eq_none.1 hnil)
    obtain ⟨tip', log₂, happ, ht₂⟩ := ht₁.exists_appendNow hK hkey (hk.hasRoom hkey hroom) now
    rw [htip, decide_eq_true hnil]
    refine ⟨Store.count { s with log := log₂ } .storeDeletes, ?_, fun h => absurd h hnil,
      fun _ => ⟨ht₂.untouched ⟨rfl, rfl, fun _ => rfl⟩, rfl⟩⟩
    simp only [ofLog, happ]

end Keeps

/-- A replica that is listed is stored under its rank. -/
theorem Keeps.exists_putListed (hk : Keeps K root P H s) (hK : Distinct K) (hkey : r.name ∈ K)
    (hr : s.replica? r.name = some r) (hroom : s.HasRoom r.name value) (now : Time) :
    ∃ t s', s.putReplica r value now = (.ok t, s') ∧ s.Writes K root H r.name value now s' := by
  obtain ⟨t, s', happ, hw⟩ := hk.exists_appendListed hkey hK hroom now
  refine ⟨t, s', ?_, hw⟩
  have hfind : Catalog.find? s.catalog.entries r.name = some r := hr
  rw [putReplica, Catalog.upsert, hfind, Option.map_some, if_pos rfl]
  exact happ

end Store

/-! ## Nodes -/

namespace Node

variable {node : Node} {view : View}

/-- A replica that is listed is stored, and the next copy of it is passed on. -/
theorem exists_makeReplicas_listed (hk : Store.Keeps K root (ChainRank node.copies) H node.store)
    (hK : Distinct K) (hkey : r.name ∈ K) (hr : node.store.replica? r.name = some r)
    (hroom : node.store.HasRoom r.name value) (view : View) (now : Time) (reply : Reply) :
    ∃ s', node.makeReplicas view now [(r, value)] reply =
        (passOn view (if r.rank < node.copies then [({ r with rank := r.rank + 1 }, value)] else [])
          reply, { node with store := s' }) ∧
      node.store.Writes K root H r.name value now s' := by
  obtain ⟨t, s', hput, hw⟩ := hk.exists_putListed hK hkey hr hroom now
  have hrank := hk.ranks.memory r (Catalog.mem_of_find? hr).1
  have hnone : node.rankError? [(r, value)] = none :=
    rankError?_eq_none (by simpa [ChainRank] using hrank)
  -- What is held is of no lower rank.
  have hlower : node.lowerHeld? view r = none := by
    rw [lowerHeld?, hr]
    split
    · rfl
    · simp
  refine ⟨s', ?_, hw⟩
  rw [makeReplicas, hnone]
  simp only [storeReplicas, storeReplica, hlower, hput]
  by_cases hlt : r.rank < node.copies
  · simp only [Except.map, hlt, decide_true, if_true, Batch.insert, passOn, reduceCtorEq, if_false]
    cases view.nextHop <;> rfl
  · simp only [Except.map, hlt, decide_false, if_false, passOn, if_true]
    rfl

/-- What comes of deleting a key with the value `v`, if any. -/
structure Deletes (K : Set String) (root : Path) (H : String → History) (view : View) (now : Time)
    (key : String) (v : Option Bytes) (node : Node) : Prop where
  value : (node.store.get key).1 = .ok v
  written : v = none ↔ H key = []
  /-- The store by itself goes by the value. -/
  store : ∃ s', node.store.delete key now = (.ok v.isSome, s') ∧
    (v = none → node.store.Unchanged s') ∧ (v ≠ none → node.store.Writes K root H key [] now s')
  /-- A key that is not listed has no value. It is left alone, and nobody is asked. -/
  unlisted : node.store.replica? key = none → v = none ∧
    ∃ s', node.delete view now key = (.done (.ok (.flag false)), { node with store := s' }) ∧
      node.store.Unchanged s'
  /-- A listed key gets a tombstone, whether or not it has a value, and the next copy in its chain
      is passed on. -/
  listed : ∀ r, node.store.replica? key = some r → ∃ s', node.delete view now key =
      (passOn view (if r.rank < node.copies then [({ r with rank := r.rank + 1 }, [])] else [])
        (.flag true), { node with store := s' }) ∧
    node.store.Writes K root H key [] now s'
  /-- So the node decides as its store does, unless the key is listed without a value. -/
  alike : ((node.delete view now key).1 = .done (.ok (.flag false)) ↔ v = none) ↔
    ¬(node.store.replica? key ≠ none ∧ v = none)

theorem passOn_ne (view : View) (onward : Batch) {b c : Bool} (h : b ≠ c) :
    passOn view onward (.flag b) ≠ .done (.ok (.flag c)) := by
  have hflag : Step.done (.ok (.flag b)) ≠ .done (.ok (.flag c)) := by simpa using h
  rw [passOn]
  split
  · exact hflag
  · cases view.nextHop with
    | none => exact hflag
    | some peer => simp [forward]

/-- **A node deletes what it lists.** Whatever was done to its store and whatever failed, a node
    that is asked to delete a key leaves it alone if it is not listed; then the key has no value
    either. A listed key gets a tombstone, here and along its chain. The store by itself would go
    by the value; so the two decide alike unless the key is listed and has no value. -/
theorem deletes (hK : Distinct K)
    (hs : Store.Served K late root node.copies (.opened node.store)) (hkey : key ∈ K)
    (hroom : node.store.HasRoom key []) (view : View) (now : Time) :
    ∃ H v, Tells K root node.store.log H ∧ node.Deletes K root H view now key v := by
  obtain ⟨hl, H, hk⟩ := hs.fit hK
  obtain ⟨v, s₁, hget, hv, hs₁⟩ := hk.exists_get hkey
  obtain ⟨s₂, hdelete, hs₂, hw₂⟩ := hk.exists_delete hkey hK hroom now
  have hunlisted : node.store.replica? key = none → v = none ∧
      node.delete view now key = (.done (.ok (.flag false)), { node with store := s₁ }) := by
    intro hnone
    have hnil := hv.2 (Store.eq_nil_of_unlisted hl hk hkey hnone)
    refine ⟨hnil, ?_⟩
    rw [delete, deletable, hnone]
    simp only [hget, hnil]
    rfl
  have hlisted : ∀ r, node.store.replica? key = some r → ∃ s', node.delete view now key =
      (passOn view (if r.rank < node.copies then [({ r with rank := r.rank + 1 }, [])] else [])
        (.flag true), { node with store := s' }) ∧
      node.store.Writes K root H key [] now s' := by
    intro r hr
    obtain rfl : r.name = key := (Catalog.mem_of_find? hr).2
    obtain ⟨s', hmake, hw⟩ := exists_makeReplicas_listed hk hK hkey hr hroom view now (.flag true)
    refine ⟨s', ?_, hw⟩
    rw [delete, deletable, hr]
    exact hmake
  refine ⟨H, v, hk.tells, by rw [hget], hv, ⟨s₂, ?_, fun h => hs₂ (hv.1 h), fun h => hw₂ (mt hv.2 h)⟩,
    fun hnone => ?_, hlisted, ?_⟩
  · rw [hdelete]
    cases v with
    | none => simp [hv.1 rfl]
    | some v => simp [← hv]
  · exact ⟨(hunlisted hnone).1, s₁, (hunlisted hnone).2, hs₁⟩
  · cases hr : node.store.replica? key with
    | none =>
      obtain ⟨hnil, hdel⟩ := hunlisted hr
      simp [hdel, hnil]
    | some r =>
      obtain ⟨s', hdel, -⟩ := hlisted r hr
      have hne := passOn_ne view (if r.rank < node.copies then [({ r with rank := r.rank + 1 }, [])]
        else []) (b := true) (c := false) (by simp)
      simp [hdel, hne]

/-! ## Samples -/

theorem served_sampleStore (late : Bool) (n : Rank) :
    Store.Served {"a"} late ["n"] n (.opened Store.sampleStore) := by
  have hopen : Store.openAt .empty { dataDir := ["n"] } .zero =
      (.ok Store.sampleStore, Store.sampleStore.disk) := rfl
  have h := Plan.ends_run late (Store.openPlan { dataDir := ["n"] } .zero) .empty
  rw [Store.run_openPlan, hopen] at h
  exact .opened (.fresh (vacant_empty _)) rfl h

/-- A node of a ring of 8 bits, with this store. -/
def sampleNode (copies : Rank) (store : Store) : Node :=
  ⟨⟨8, by decide, by decide⟩, copies, 1000, store⟩

/-- The second of three copies of a key is deleted: the successor is sent the third. -/
theorem deletes_second_copy :
    ∃ s s', Distinct {"a"} ∧ Store.Served {"a"} true ["n"] 3 (.opened s) ∧ s.HasRoom "a" [] ∧
      (s.get "a").1 = .ok (some [1]) ∧ (sampleNode 3 s).delete ownerView 6 "a" =
        (forward (.ofNat 2) [(⟨⟨"a", .ofNat 7⟩, 3⟩, [])] (.flag true), sampleNode 3 s') := by
  have hK : Distinct {"a"} := Set.injOn_singleton _ _
  have hkey : "a" ∈ ({"a"} : Set String) := Set.mem_singleton "a"
  have hfits : Store.sampleCall.Fits 3 Store.sampleStore :=
    ⟨⟨by decide, by decide⟩, by decide +kernel⟩
  have hcall := Plan.ends_run true Store.sampleCall.plan Store.sampleStore
  rw [Store.Call.run_plan] at hcall
  obtain ⟨s, hs, hroom, hget, hr⟩ : ∃ s, Store.Served {"a"} true ["n"] 3 (.opened s) ∧
      s.HasRoom "a" [] ∧ (s.get "a").1 = .ok (some [1]) ∧
      s.replica? "a" = some ⟨⟨"a", .ofNat 7⟩, 2⟩ :=
    ⟨_, .call Store.sampleCall hkey hfits (served_sampleStore true 3) hcall, by decide +kernel,
      by decide +kernel, by decide +kernel⟩
  have hs' : Store.Served {"a"} true ["n"] (sampleNode 3 s).copies (.opened (sampleNode 3 s).store) :=
    hs
  obtain ⟨H, v, -, hd⟩ := deletes hK hs' hkey hroom ownerView 6
  obtain ⟨s', hdel, -⟩ := hd.listed _ hr
  exact ⟨s, s', hK, hs, hroom, hget, hdel⟩

/-- The first of two copies of a key was to be stored. It was listed, and then the write of its
    value failed. -/
def sampleUnwritten : Node := sampleNode 2 (Store.sampleStore.listedOnly ⟨⟨"a", .ofNat 7⟩, 1⟩)

/-- A key may be listed that has no value. The store by itself would leave it alone; but the node
    writes a tombstone, which is read as a value then, and sends it on to the successor. -/
theorem deletes_unwritten :
    Distinct {"a"} ∧ Store.Served {"a"} false ["n"] 2 (.opened sampleUnwritten.store) ∧
      (sampleUnwritten.store.get "a").1 = .ok none ∧
      (sampleUnwritten.store.delete "a" 6).1 = .ok false ∧
      (sampleUnwritten.delete ownerView 6 "a").1 =
        forward (.ofNat 2) [(⟨⟨"a", .ofNat 7⟩, 2⟩, [])] (.flag true) ∧
      ((sampleUnwritten.delete ownerView 6 "a").2.store.get "a").1 = .ok (some []) := by
  have hK : Distinct {"a"} := Set.injOn_singleton _ _
  have hs : Store.Served {"a"} false ["n"] 2 (.opened sampleUnwritten.store) := by
    have hfits : (Store.Call.putReplica ⟨⟨"a", .ofNat 7⟩, 1⟩ [1] 5).Fits 2 Store.sampleStore :=
      ⟨⟨by decide, by decide⟩, by decide +kernel⟩
    have hup : (Store.sampleStore.catalog.upsert Store.sampleStore.disk
        ⟨⟨"a", .ofNat 7⟩, 1⟩).1 = .ok none := by decide +kernel
    exact (served_sampleStore false 2).listedOnly rfl hfits hup
  have hr : sampleUnwritten.store.replica? "a" = some ⟨⟨"a", .ofNat 7⟩, 1⟩ := by decide +kernel
  refine ⟨hK, hs, by decide +kernel, by decide +kernel, ?_, by decide +kernel⟩
  obtain ⟨-, H, hk⟩ := hs.fit hK
  have hkeeps : Store.Keeps {"a"} ["n"] (ChainRank sampleUnwritten.copies) H
      sampleUnwritten.store := hk
  have hroom : sampleUnwritten.store.HasRoom "a" [] := by decide +kernel
  obtain ⟨s', hmake, -⟩ := exists_makeReplicas_listed (r := ⟨⟨"a", .ofNat 7⟩, 1⟩) hkeeps hK rfl hr
    hroom ownerView 6 (.flag true)
  rw [delete, deletable, hr]
  exact congrArg Prod.fst hmake

end Node

end ReplicaRing

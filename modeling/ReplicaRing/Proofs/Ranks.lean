import ReplicaRing.Node
import ReplicaRing.Proofs.Catalog

/-!
# Ranks stay within the chain

In a ring with `n` copies of each key a rank is one of `1, …, n` (`ChainRank`). A node that lists
only such ranks, whatever it is asked, told or replied, goes on to list only such ranks, sends only
such ranks, and finds no fault with a batch that has only such ranks (`Node.Orderly`).

Ranks come about in five ways: a write starts at the first, a batch that is carried on and a copy
that is sent to a new successor go up by one, a copy that was handed over is the second, and one
that is taken over the first. `Node.mem_storeReplicas` and `Node.mem_latestValues` tell where what
a node sends is from.
-/

namespace ReplicaRing

/-- The rank is one of a chain of `n` copies. -/
def ChainRank (n rank : Rank) : Prop := 1 ≤ rank.toNat ∧ rank.toNat ≤ n.toNat

/-- The batch has only ranks of the chain. -/
def Batch.InChain (n : Rank) (b : Batch) : Prop := ∀ x ∈ b, ChainRank n x.1.rank

/-- The request brings only ranks of the chain. -/
def Request.InChain (n : Rank) : Request → Prop
  | .putObjects b | .makeReplicas b => b.InChain n
  | _ => True

/-- No fault is found with a rank. -/
def Faultless {α : Type} (r : Except ReplicationError α) : Prop :=
  ∀ key rank max, r ≠ .error (.invalidRank key rank max)

/-- The step is not one of fault with a rank, and brings a peer only ranks of the chain. -/
def Step.InChain (n : Rank) : Step → Prop
  | .done r => Faultless r
  | .ask _ request _ => request.InChain n

/-- A store lists only ranks of the chain. -/
def Store.InChain (n : Rank) (s : Store) : Prop := ∀ r ∈ s.keySet, ChainRank n r.rank

/-- A node with chains of `n` copies, that lists only their ranks. -/
structure Node.InChain (n : Rank) (node : Node) : Prop where
  copies : node.copies = n
  store : node.store.InChain n

/-- What a node does next is within the chain, and so is the node then. -/
structure Node.Orderly (n : Rank) (s : Step × Node) : Prop where
  step : s.1.InChain n
  node : s.2.InChain n

variable {n rank : Rank}

/-! ## Ranks -/

theorem ChainRank.succ (h : rank < n) : ChainRank n (rank + 1) := by
  have hlt : rank.toNat < n.toNat := UInt32.lt_iff_toNat_lt.1 h
  rw [ChainRank, Rank.toNat_succ_of_lt h]
  omega

theorem chainRank_one (hn : 1 ≤ n.toNat) : ChainRank n 1 := ⟨le_rfl, hn⟩

theorem ChainRank.two (hn : 2 ≤ n) : ChainRank n 2 :=
  ⟨by decide, UInt32.le_iff_toNat_le.1 hn⟩

theorem faultless_ok {α : Type} (a : α) : Faultless (.ok a) := by
  rintro key rank max h
  cases h

theorem faultless_storage {α : Type} (e : StorageError) :
    Faultless (.error (.storage e) : Except ReplicationError α) := by
  rintro key rank max h
  cases h

theorem faultless_peer {α : Type} (e : PeerError) :
    Faultless (.error (.peer e) : Except ReplicationError α) := by
  rintro key rank max h
  cases h

theorem faultless_lift {α β : Type} (r : Except StorageError α) (f : α → β) :
    Faultless ((ReplicationError.lift r).map f) := by
  cases r with
  | ok a => exact faultless_ok _
  | error e => exact faultless_storage e

/-! ## Batches -/

/-- A batch with one more replica has no other replicas. -/
theorem Batch.mem_insert {r : Replica} {value : Bytes} {b : Batch} {x : Replica × Bytes}
    (h : x ∈ Batch.insert r value b) : x.1 = r ∨ ∃ y ∈ b, y.1 = x.1 := by
  induction b with
  | nil => exact .inl (congrArg Prod.fst (List.mem_singleton.1 h))
  | cons y b ih =>
    obtain ⟨s, v⟩ := y
    rw [Batch.insert] at h
    split_ifs at h
    · rcases List.mem_cons.1 h with rfl | h
      · exact .inl rfl
      · exact .inr ⟨x, h, rfl⟩
    · rcases List.mem_cons.1 h with rfl | h
      · exact .inr ⟨_, List.mem_cons_self, rfl⟩
      · exact .inr ⟨x, List.mem_cons_of_mem _ h, rfl⟩
    · rcases List.mem_cons.1 h with rfl | h
      · exact .inr ⟨_, List.mem_cons_self, rfl⟩
      · rcases ih h with h | ⟨y, hy, h⟩
        · exact .inl h
        · exact .inr ⟨y, List.mem_cons_of_mem _ hy, h⟩

/-! ## Catalogs and stores -/

namespace Catalog

variable {c : Catalog} {disk : FileTree} {r s : Replica} {name : String}

/-- The catalog has what was stored, or if that failed what it had. -/
theorem store_cases (c : Catalog) (disk : FileTree) (entries : List Replica) :
    (∃ t, c.store disk entries = (.ok (), { c with entries }, t)) ∨
      ∃ e t, c.store disk entries = (.error e, c, t) := by
  rw [store]
  cases disk.run (replaceSteps (disk.freshTemp c.path) c.path (encode entries)) with
  | mk result t =>
    cases result with
    | ok u => exact .inl ⟨t, rfl⟩
    | error e => exact .inr ⟨_, _, rfl⟩

theorem mem_upsert (h : s ∈ (c.upsert disk r).2.1.entries) : s = r ∨ s ∈ c.entries := by
  rw [upsert] at h
  split_ifs at h
  · exact .inr h
  · rcases store_cases c disk (place r c.entries) with ⟨t, hst⟩ | ⟨e, t, hst⟩
    · rw [hst] at h
      exact mem_place h
    · rw [hst] at h
      exact .inr h

theorem mem_setRank (h : s ∈ (c.setRank disk name rank).2.1.entries) :
    s.rank = rank ∨ s ∈ c.entries := by
  rw [setRank] at h
  cases hf : find? c.entries name with
  | none =>
    rw [hf] at h
    exact .inr h
  | some held =>
    simp only [hf] at h
    split_ifs at h
    · exact .inr h
    · rcases store_cases c disk (place { held with rank } c.entries) with ⟨t, hst⟩ | ⟨e, t, hst⟩
      · rw [hst] at h
        exact (mem_place h).imp (fun h => by rw [h]) id
      · rw [hst] at h
        exact .inr h

end Catalog

namespace Store

variable {s : Store} {r : Replica}

@[simp] theorem keySet_get (s : Store) (key : String) : (s.get key).2.keySet = s.keySet := rfl

@[simp] theorem keySet_appendListed (s : Store) (key : String) (value : Bytes) (now : Time) :
    (s.appendListed key value now).2.keySet = s.keySet := by
  rw [appendListed, ofLog]
  cases s.log.appendNow key value now with
  | mk result log => cases result <;> rfl

namespace InChain

theorem putReplica (hs : s.InChain n) (hr : ChainRank n r.rank) (value : Bytes)
    (now : Time) : (s.putReplica r value now).2.InChain n := by
  have hup : (s.ofCatalog (s.catalog.upsert s.disk r)).2.InChain n := fun q hq =>
    (Catalog.mem_upsert hq).elim (fun h => h ▸ hr) (hs q)
  rw [Store.putReplica]
  cases hc : s.ofCatalog (s.catalog.upsert s.disk r) with
  | mk result s' =>
    rw [hc] at hup
    cases result with
    | error e => exact hup
    | ok previous =>
      rw [InChain]
      simp only [keySet_appendListed]
      exact hup

theorem setRank (hs : s.InChain n) (hr : ChainRank n rank) (key : String) :
    (s.setRank key rank).2.InChain n := fun q hq =>
  (Catalog.mem_setRank hq).elim (fun h => h ▸ hr) (hs q)

end InChain

theorem mem_of_replica? {key : String} (h : s.replica? key = some r) : r ∈ s.keySet :=
  List.mem_of_find?_eq_some h

end Store

/-! ## Nodes -/

namespace Node

variable {node : Node} {view : View} {now : Time} {r : Replica} {value : Bytes} {batch : Batch}

theorem InChain.rankError? (hn : node.InChain n) (hb : batch.InChain n) :
    node.rankError? batch = none :=
  rankError?_eq_none fun x hx => hn.copies.symm ▸ hb x hx

theorem InChain.done (hn : node.InChain n) {result : Except ReplicationError Reply}
    (hr : Faultless result) : Orderly n (.done result, node) := ⟨hr, hn⟩

/-! ### Storing -/

theorem mem_keySet_of_lowerHeld? {held : Replica} (h : node.lowerHeld? view r = some held) :
    held ∈ node.store.keySet := by
  rw [lowerHeld?] at h
  split_ifs at h
  exact Store.mem_of_replica? (Option.filter_eq_some_iff.1 h).1

theorem inChain_refresh {s : Store} {held : Replica} (hs : s.InChain n)
    (hheld : ChainRank n held.rank) (value : Bytes) (now : Time) :
    (refresh s held value now).2.InChain n := by
  have hget : (s.get held.name).2.InChain n := hs
  rw [refresh]
  cases hg : s.get held.name with
  | mk result s' =>
    rw [hg] at hget
    cases result with
    | error e => exact hget
    | ok v =>
      dsimp only
      split
      · exact hget
      · exact hget.putReplica hheld value now

theorem InChain.storeReplica (hn : node.InChain n) (hr : ChainRank n r.rank)
    (view : View) (value : Bytes) (now : Time) :
    (node.storeReplica view r value now).2.InChain n := by
  rw [Node.storeReplica]
  cases hl : node.lowerHeld? view r with
  | some held =>
    exact inChain_refresh hn.store (hn.store _ (mem_keySet_of_lowerHeld? hl)) value now
  | none => exact hn.store.putReplica hr value now

/-- A chain goes on only below its last rank. -/
theorem lt_of_storeReplica (h : (node.storeReplica view r value now).1 = .ok true) :
    r.rank < node.copies := by
  rw [storeReplica] at h
  cases hl : node.lowerHeld? view r with
  | some held =>
    simp only [hl] at h
    cases hr : (refresh node.store held value now).1 <;> rw [hr] at h <;> cases h
  | none =>
    simp only [hl] at h
    cases hr : (node.store.putReplica r value now).1 with
    | error e =>
      rw [hr] at h
      cases h
    | ok time =>
      rw [hr] at h
      exact of_decide_eq_true (Except.ok.inj h)

/-- What holds of the batch that is left to store and of what is gathered, step by step: a replica
    is stored and that is it, or the next one of its chain is gathered. -/
theorem storeReplicas_rec {P : Batch → Batch → Prop} {onward onward' : Batch}
    (h : (node.storeReplicas view now onward batch).1 = .ok onward') (hP : P batch onward)
    (hends : ∀ x rest onward, P (x :: rest) onward → P rest onward)
    (hgoes : ∀ x rest onward, x.1.rank < node.copies → P (x :: rest) onward →
      P rest (Batch.insert { x.1 with rank := x.1.rank + 1 } x.2 onward)) : P [] onward' := by
  induction batch generalizing node onward with
  | nil =>
    rw [storeReplicas] at h
    exact Except.ok.inj h ▸ hP
  | cons y batch ih =>
    obtain ⟨r, value⟩ := y
    rw [storeReplicas] at h
    cases hs : node.storeReplica view r value now with
    | mk result store =>
      cases result with
      | error e =>
        rw [hs] at h
        cases h
      | ok goesOn =>
        simp only [hs] at h
        cases goesOn with
        | false => exact ih h (hends _ _ _ hP) hgoes
        | true =>
          have hlt : r.rank < node.copies := lt_of_storeReplica (congrArg Prod.fst hs)
          exact ih h (hgoes (r, value) batch onward hlt hP) hgoes

/-- What is carried on is one of the batch, one rank higher. -/
theorem mem_storeReplicas {onward onward' : Batch}
    (h : (node.storeReplicas view now onward batch).1 = .ok onward') {x : Replica × Bytes}
    (hx : x ∈ onward') : (∃ y ∈ onward, y.1 = x.1) ∨
      ∃ y ∈ batch, y.1.rank < node.copies ∧ x.1 = { y.1 with rank := y.1.rank + 1 } := by
  have hof := storeReplicas_rec (P := fun rest onward₁ => rest ⊆ batch ∧ ∀ x ∈ onward₁,
      (∃ y ∈ onward, y.1 = x.1) ∨
        ∃ y ∈ batch, y.1.rank < node.copies ∧ x.1 = { y.1 with rank := y.1.rank + 1 }) h
    ⟨List.Subset.refl _, fun x hx => .inl ⟨x, hx, rfl⟩⟩
    (fun y rest _ hP => ⟨List.subset_of_cons_subset hP.1, hP.2⟩)
    fun y rest onward₁ hlt hP => ⟨List.subset_of_cons_subset hP.1, fun x hx => by
      rcases Batch.mem_insert hx with hxy | ⟨z, hz, hzx⟩
      · exact .inr ⟨y, hP.1 List.mem_cons_self, hlt, hxy⟩
      · exact hzx ▸ hP.2 z hz⟩
  exact hof.2 x hx

theorem InChain.storeReplicas (hn : node.InChain n) (hb : batch.InChain n) (view : View)
    (now : Time) (onward : Batch) : (node.storeReplicas view now onward batch).2.InChain n := by
  induction batch generalizing node onward with
  | nil => exact hn
  | cons y batch ih =>
    obtain ⟨r, value⟩ := y
    have hstore := hn.storeReplica (hb _ List.mem_cons_self) view value now
    rw [Node.storeReplicas]
    cases hs : node.storeReplica view r value now with
    | mk result store =>
      rw [hs] at hstore
      have hn' : InChain n { node with store } := ⟨hn.copies, hstore⟩
      cases result with
      -- What was stored before stays.
      | error e => exact hn'
      | ok goesOn => exact ih hn' (fun x hx => hb x (List.mem_cons_of_mem _ hx)) _

theorem inChain_storeAll {s : Store} (hs : s.InChain n) (hb : batch.InChain n) (now : Time) :
    (storeAll s now batch).2.InChain n := by
  induction batch generalizing s with
  | nil => exact hs
  | cons y batch ih =>
    obtain ⟨r, value⟩ := y
    have hput := hs.putReplica (hb _ List.mem_cons_self) value now
    rw [storeAll]
    cases hp : s.putReplica r value now with
    | mk result s' =>
      rw [hp] at hput
      cases result with
      | error e => exact hput
      | ok time => exact ih hput fun x hx => hb x (List.mem_cons_of_mem _ hx)

theorem InChain.makeReplicas (hn : node.InChain n) (hb : batch.InChain n) (view : View)
    (now : Time) (reply : Reply) : Orderly n (node.makeReplicas view now batch reply) := by
  have hstore := hn.storeReplicas hb view now []
  rw [Node.makeReplicas, hn.rankError? hb]
  cases hs : node.storeReplicas view now [] batch with
  | mk result node' =>
    rw [hs] at hstore
    cases result with
    | error e => exact hstore.done (faultless_storage e)
    | ok onward =>
      -- Only what was below the last rank goes on.
      have honward : onward.InChain n := by
        intro x hx
        rcases mem_storeReplicas (congrArg Prod.fst hs) hx with ⟨y, hy, -⟩ | ⟨y, -, hlt, hyx⟩
        · exact absurd hy List.not_mem_nil
        · rw [hyx]
          exact .succ (hn.copies ▸ hlt)
      cases onward with
      | nil => exact hstore.done (faultless_ok _)
      | cons x onward =>
        dsimp only
        cases view.nextHop with
        | none => exact hstore.done (faultless_ok _)
        | some peer => exact ⟨honward, hstore⟩

theorem InChain.finish {α : Type} (hn : node.InChain n) (reply : α → Reply)
    {r : Except StorageError α × Store} (hr : r.2.InChain n) : Orderly n (node.finish reply r) :=
  ⟨faultless_lift _ _, hn.copies, hr⟩

theorem InChain.putObjects (hn : node.InChain n) (hb : batch.InChain n) (now : Time) :
    Orderly n (node.putObjects now batch) := by
  rw [Node.putObjects, hn.rankError? hb]
  exact hn.finish _ (inChain_storeAll hn.store hb now)

/-! ### Requests -/

/-- What a deletion starts from is listed, or a first copy. -/
theorem rank_of_deletable {key : String} (h : (node.deletable key).1 = .ok (some r)) :
    r ∈ node.store.keySet ∨ r.rank = 1 := by
  rw [deletable] at h
  cases hl : node.store.replica? key with
  | some held =>
    simp only [hl] at h
    rw [← Option.some.inj (Except.ok.inj h)]
    exact .inl (Store.mem_of_replica? hl)
  | none =>
    simp only [hl] at h
    cases hg : (node.store.get key).1 with
    | error e =>
      rw [hg] at h
      cases h
    | ok v =>
      rw [hg] at h
      obtain ⟨value, -, hv⟩ := Option.map_eq_some_iff.1 (Except.ok.inj h)
      exact .inr (by rw [← hv]; rfl)

theorem keySet_deletable (node : Node) (key : String) :
    (node.deletable key).2.keySet = node.store.keySet := by
  rw [deletable]
  cases node.store.replica? key <;> rfl

theorem InChain.deletable (hn : node.InChain n) (hone : 1 ≤ n.toNat) {key : String}
    (h : (node.deletable key).1 = .ok (some r)) : ChainRank n r.rank := by
  rcases rank_of_deletable h with hr | hr
  · exact hn.store r hr
  · rw [hr]
    exact chainRank_one hone

/-- The batch that a request has the node store. -/
def batchOf (node : Node) : Request → Option Batch
  | .putObject key value => some [(.primary (node.space.key key), value)]
  | .delete key =>
    match (node.deletable key).1 with
    | .ok (some r) => some [(r, [])]
    | _ => none
  | .putObjects batch | .makeReplicas batch => some batch
  | _ => none

theorem InChain.batchOf (hn : node.InChain n) (hone : 1 ≤ n.toNat) {request : Request}
    (hr : request.InChain n) (h : node.batchOf request = some batch) : batch.InChain n := by
  cases request with
  | putObject key value =>
    rw [← Option.some.inj h]
    exact List.forall_mem_singleton.2 (chainRank_one hone)
  | delete key =>
    rw [Node.batchOf] at h
    split at h
    · rename_i r hd
      rw [← Option.some.inj h]
      exact List.forall_mem_singleton.2 (hn.deletable hone hd)
    · cases h
  | putObjects b =>
    rw [← Option.some.inj h]
    exact hr
  | makeReplicas b =>
    rw [← Option.some.inj h]
    exact hr
  | getObject key => cases h
  | getObjectAsOf key t => cases h
  | getObjectRange key first final => cases h
  | keySet => cases h

theorem InChain.delete (hn : node.InChain n) (hone : 1 ≤ n.toNat) (view : View) (now : Time)
    (key : String) : Orderly n (node.delete view now key) := by
  have hstore : (node.deletable key).2.InChain n := by
    rw [Store.InChain, keySet_deletable]
    exact hn.store
  rw [Node.delete]
  cases hd : node.deletable key with
  | mk result store =>
    rw [hd] at hstore
    have hn' : InChain n { node with store } := ⟨hn.copies, hstore⟩
    cases result with
    | error e => exact hn'.done (faultless_storage e)
    | ok held =>
      cases held with
      | none => exact hn'.done (faultless_ok _)
      | some r =>
        have hr := hn.deletable hone (congrArg Prod.fst hd)
        exact hn'.makeReplicas (List.forall_mem_singleton.2 hr) view now _

/-- Whatever a node is asked, if no rank is out of place none will be. -/
theorem InChain.start (hn : node.InChain n) (hone : 1 ≤ n.toNat) {request : Request}
    (hr : request.InChain n) (view : View) (now : Time) :
    Orderly n (node.start view now request) := by
  cases request with
  | putObject key value =>
    exact hn.makeReplicas (List.forall_mem_singleton.2 (chainRank_one hone)) view now _
  | getObject key => exact hn.finish _ hn.store
  | getObjectAsOf key t => exact hn.finish _ hn.store
  | getObjectRange key first final => exact hn.finish _ hn.store
  | delete key => exact hn.delete hone view now key
  | keySet => exact hn.done (faultless_ok _)
  | putObjects batch => exact hn.putObjects hr now
  | makeReplicas batch => exact hn.makeReplicas hr view now _

/-! ### Events -/

/-- What is gathered is what was asked for. -/
theorem mem_latestValues {s : Store} {rs : List Replica} {gathered : Batch}
    (h : (latestValues s batch rs).1 = .ok gathered) {x : Replica × Bytes} (hx : x ∈ gathered) :
    (∃ y ∈ batch, y.1 = x.1) ∨ x.1 ∈ rs := by
  induction rs generalizing s batch with
  | nil => exact .inl ⟨x, Except.ok.inj h ▸ hx, rfl⟩
  | cons r rs ih =>
    rw [latestValues] at h
    cases hg : s.get r.name with
    | mk result s' =>
      cases result with
      | error e =>
        rw [hg] at h
        cases h
      | ok v =>
        cases v with
        | none =>
          rw [hg] at h
          exact (ih h).imp_right (List.mem_cons_of_mem r)
        | some value =>
          rw [hg] at h
          rcases ih h with ⟨y, hy, hyx⟩ | hmem
          · rcases Batch.mem_insert hy with hyr | ⟨z, hz, hzy⟩
            · exact .inr (by rw [← hyx, hyr]; exact List.mem_cons_self)
            · exact .inl ⟨z, hz, hzy.trans hyx⟩
          · exact .inr (List.mem_cons_of_mem r hmem)

theorem keySet_latestValues (s : Store) (batch : Batch) (rs : List Replica) :
    (latestValues s batch rs).2.keySet = s.keySet := by
  induction rs generalizing s batch with
  | nil => rfl
  | cons r rs ih =>
    have hget := s.keySet_get r.name
    rw [latestValues]
    cases hg : s.get r.name with
    | mk result s' =>
      rw [hg] at hget
      cases result with
      | error e => exact hget
      | ok v =>
        cases v with
        | none => exact (ih s' batch).trans hget
        | some value => exact (ih s' _).trans hget

theorem InChain.sendLatest (hn : node.InChain n) {rs : List Replica} {ask : Batch → Step}
    (hask : ∀ batch : Batch, (∀ x ∈ batch, x.1 ∈ rs) → (ask batch).InChain n) :
    Orderly n (node.sendLatest rs ask) := by
  have hkeys := keySet_latestValues node.store [] rs
  rw [Node.sendLatest]
  cases hl : latestValues node.store [] rs with
  | mk result store =>
    rw [hl] at hkeys
    have hstore : store.InChain n := by
      rw [Store.InChain, hkeys]
      exact hn.store
    have hn' : InChain n { node with store } := ⟨hn.copies, hstore⟩
    cases result with
    | error e => exact hn'.done (faultless_storage e)
    | ok batch =>
      cases batch with
      | nil => exact hn'.done (faultless_ok _)
      | cons x batch =>
        refine ⟨hask _ fun y hy => ?_, hn'⟩
        rcases mem_latestValues (congrArg Prod.fst hl) hy with ⟨z, hz, -⟩ | hmem
        · exact absurd hz List.not_mem_nil
        · exact hmem

theorem InChain.migrate (hn : node.InChain n) (view : View) (lower current : Point) :
    Orderly n (node.migrate view lower current) := by
  rw [Node.migrate]
  split_ifs
  · exact hn.done (faultless_ok _)
  · exact hn.sendLatest fun batch hb x hx => hn.store _ (List.mem_of_mem_filter (hb x hx))

theorem InChain.replicateTo (hn : node.InChain n) (view : View) (peer : Point) :
    Orderly n (node.replicateTo view peer) := by
  rw [Node.replicateTo]
  split_ifs
  · exact hn.done (faultless_ok _)
  · refine hn.sendLatest fun batch hb x hx => ?_
    obtain ⟨r, hr, hrx⟩ := List.mem_map.1 (hb x hx)
    rw [← hrx]
    exact .succ (hn.copies ▸ of_decide_eq_true (List.mem_filter.1 hr).2)

theorem inChain_setRanks {s : Store} (hs : s.InChain n) (hr : ChainRank n rank)
    (rs : List Replica) : (setRanks s rank rs).2.InChain n := by
  induction rs generalizing s with
  | nil => exact hs
  | cons r rs ih =>
    have hset := hs.setRank hr r.name
    rw [setRanks]
    cases hq : s.setRank r.name rank with
    | mk result s' =>
      rw [hq] at hset
      cases result with
      | error e => exact hset
      | ok b => exact ih hset

theorem InChain.takeOver (hn : node.InChain n) (hone : 1 ≤ n.toNat) (view : View) :
    Orderly n (node.takeOver view) := by
  rw [Node.takeOver]
  have hset := inChain_setRanks hn.store (chainRank_one hone)
    (node.store.keySet.filter fun r => r.rank = 2)
  cases hs : setRanks node.store 1 (node.store.keySet.filter fun r => r.rank = 2) with
  | mk result store =>
    rw [hs] at hset
    have hn' : InChain n { node with store } := ⟨hn.copies, hset⟩
    cases result with
    | error e => exact hn'.done (faultless_storage e)
    | ok u =>
      dsimp only
      cases view.nextHop with
      | none => exact hn'.done (faultless_ok _)
      | some peer =>
        -- A second copy was listed, so a chain has one.
        exact hn'.sendLatest fun batch hb x hx => hn.store _ (List.mem_of_mem_filter (hb x hx))

/-- Whatever a node is told. -/
theorem InChain.react (hn : node.InChain n) (hone : 1 ≤ n.toNat) (view : View) (event : Event) :
    Orderly n (node.react view event) := by
  have hn' : (node.countEvent event.kind).InChain n := ⟨hn.copies, hn.store⟩
  cases event with
  | newPredecessor previous current => exact hn'.migrate view _ current
  | newSuccessor previous current => exact hn'.replicateTo view current
  | successorFailed failed replacement =>
    cases replacement with
    | none => exact hn'.done (faultless_ok _)
    | some peer => exact hn'.replicateTo view peer
  | predecessorFailed failed replacement => exact hn'.takeOver hone view

/-- Whatever a node is replied. -/
theorem InChain.resume (hn : node.InChain n) (after : After) (reply : Except PeerError Reply) :
    Faultless (node.resume after reply).1 ∧ (node.resume after reply).2.InChain n := by
  have hcount : ∀ metric i, (node.count metric i).InChain n := fun _ _ => ⟨hn.copies, hn.store⟩
  cases reply with
  | error e => exact ⟨faultless_peer e, hcount _ _⟩
  | ok r =>
    cases after with
    | forwarded i reply => exact ⟨faultless_ok _, hcount _ _⟩
    | migrated moved =>
      rw [Node.resume]
      dsimp only
      split_ifs with htwo
      -- Copies are made second ones only where a chain has a second one.
      · exact ⟨faultless_lift _ _, hn.copies,
          inChain_setRanks (hcount _ _).store (.two (hn.copies ▸ htwo)) moved⟩
      · exact ⟨faultless_ok _, hcount _ _⟩

end Node

end ReplicaRing

import ReplicaRing.Proofs.Arrivals
import ReplicaRing.Proofs.Log.Stamps

/-!
# Batches that arrive again

A batch whose reply was lost is sent a second time, and by then the node has taken it in. Every
replica of it *has arrived* (`Contents.HasArrived`): its value is the last one of its key, and the
key is listed under its rank, unless the chain had come round and is listed under a lower one. That
is all the second delivery goes by:

* a replica that came round comes round again, and as its value is there nothing is written;
* any other one is listed already, so nothing is stored in the catalog, and its value is written
  behind the same value;
* the same replicas go on.

Main statement: `Node.takes_in_again`.
-/

namespace ReplicaRing

open Log

/-! ## What has arrived -/

namespace Contents

variable {C D : Contents} {view : View} {now now' : Time} {r : Replica} {k : String}
  {x : Replica × Bytes} {batch : Batch}

/-- The node has what the replica brings. -/
structure HasArrived (view : View) (C : Contents) (x : Replica × Bytes) : Prop where
  rank : C.ComesRound view x.1 ∨ (C.listed x.1.name).map (·.rank) = some x.1.rank
  latest : (C.history x.1.name).latest = some x.2

theorem Agrees.hasArrived (h : Agrees x.1.name C D) (hx : C.HasArrived view x) :
    D.HasArrived view x :=
  ⟨hx.rank.imp h.comesRound_iff.1 fun hr => h.listed ▸ hr, h.history ▸ hx.latest⟩

/-- A key that is listed under the rank of a replica does not come round with it. -/
theorem not_comesRound (h : (C.listed r.name).map (·.rank) = some r.rank) :
    ¬C.ComesRound view r := by
  rintro ⟨-, -, hlt⟩
  obtain ⟨held, hheld, hrank⟩ := Option.map_eq_some_iff.1 h
  rw [hheld, Option.any_some, decide_eq_true_eq, hrank] at hlt
  exact UInt32.lt_irrefl _ hlt

/-- A replica that is brought is there. -/
theorem hasArrived_arrive (C : Contents) (view : View) (now : Time) (x : Replica × Bytes) :
    (C.arrive view now x).HasArrived view x := by
  rw [arrive]
  split
  · rename_i hr
    split
    · rename_i hl
      exact ⟨.inl hr, hl⟩
    · refine ⟨.inl hr, ?_⟩
      rw [history_write, Function.update_self, History.latest_concat]
  · exact ⟨.inr (map_rank_put C x.1 x.2 now), (gains_put C x.1 x.2 now).latest⟩

/-- It comes round again if it did the first time. -/
theorem comesRound_arrive :
    (C.arrive view now x).ComesRound view x.1 ↔ C.ComesRound view x.1 := by
  rw [arrive]
  split
  · split <;> exact Iff.rfl
  · rename_i hr
    exact iff_of_false (not_comesRound (map_rank_put C x.1 x.2 now)) hr

theorem hasArrived_settle (hnodup : (batch.map (·.1.name)).Nodup) (hx : x ∈ batch) :
    (C.settle view now batch).HasArrived view x :=
  (agrees_settle hnodup hx).symm.hasArrived (hasArrived_arrive C view now x)

theorem comesRound_settle (hnodup : (batch.map (·.1.name)).Nodup) (hx : x ∈ batch) :
    (C.settle view now batch).ComesRound view x.1 ↔ C.ComesRound view x.1 :=
  (agrees_settle hnodup hx).comesRound_iff.trans comesRound_arrive

/-- What goes on after a batch is what went on before. -/
theorem goesOn_settle {n : Rank} {y : Replica × Bytes} (hnodup : (batch.map (·.1.name)).Nodup) :
    (C.settle view now batch).GoesOn view n batch y ↔ C.GoesOn view n batch y :=
  exists_congr fun _ => and_congr_right fun hx => by rw [comesRound_settle hnodup hx]

/-! ## What arrives again -/

namespace HasArrived

variable (hx : C.HasArrived view x)

include hx

theorem arrive_of_comesRound (hr : C.ComesRound view x.1) (now : Time) :
    C.arrive view now x = C := by
  rw [arrive, if_pos hr, if_pos hx.latest]

/-- The rank that is listed stays. -/
theorem listed_arrive (now : Time) : (C.arrive view now x).listed = C.listed := by
  by_cases hr : C.ComesRound view x.1
  · rw [hx.arrive_of_comesRound hr]
  · obtain ⟨held, hheld, hrank⟩ := Option.map_eq_some_iff.1 (hx.rank.resolve_left hr)
    rw [arrive, if_neg hr, listed_put, hheld, Option.filter_some, if_pos (by simpa using hrank),
      Option.some_or, Function.update_eq_self_iff.2 hheld.symm]

end HasArrived

/-- What changes if a batch arrives again, after `C` has become `C₁`: nothing is listed otherwise,
    and of a key that is written to the last value is the same. -/
structure Again (view : View) (now : Time) (batch : Batch) (C C₁ C₂ : Contents) : Prop where
  listed : C₂.listed = C₁.listed
  latest : ∀ k, (C₂.history k).latest = (C₁.history k).latest
  /-- A chain that came round the first time comes round again, and nothing is written. -/
  round : ∀ x ∈ batch, C.ComesRound view x.1 →
    C₁.ComesRound view x.1 ∧ C₂.history x.1.name = C₁.history x.1.name
  /-- Any other replica is stored again. -/
  stored : ∀ x ∈ batch, ¬C.ComesRound view x.1 → ¬C₁.ComesRound view x.1 ∧
    C₂.history x.1.name = C₁.history x.1.name ++ [⟨C₁.stampOf x.1.name now, x.2⟩]
  other : ∀ k, k ∉ batch.map (·.1.name) → C₂.history k = C₁.history k

theorem again_settle (hnodup : (batch.map (·.1.name)).Nodup) :
    Again view now' batch C (C.settle view now batch)
      ((C.settle view now batch).settle view now' batch) := by
  set C₁ := C.settle view now batch
  have harrived : ∀ x ∈ batch, C₁.HasArrived view x := fun _ => hasArrived_settle hnodup
  have hround : ∀ x ∈ batch, (C₁.ComesRound view x.1 ↔ C.ComesRound view x.1) := fun _ =>
    comesRound_settle hnodup
  -- Of a key of the batch it does what its replica does alone, and nothing to others.
  have hagrees : ∀ x ∈ batch, Agrees x.1.name (C₁.settle view now' batch) (C₁.arrive view now' x) :=
    fun _ => agrees_settle hnodup
  have hother : ∀ k, k ∉ batch.map (·.1.name) → Agrees k (C₁.settle view now' batch) C₁ := fun _ =>
    agrees_settle_of_not_mem
  refine ⟨funext fun k => ?_, fun k => ?_, fun x hx hr => ?_, fun x hx hr => ?_,
    fun k hk => (hother k hk).history⟩
  · by_cases hk : k ∈ batch.map (·.1.name)
    · obtain ⟨x, hx, rfl⟩ := List.mem_map.1 hk
      rw [(hagrees x hx).listed, (harrived x hx).listed_arrive]
    · exact (hother k hk).listed
  · by_cases hk : k ∈ batch.map (·.1.name)
    · obtain ⟨x, hx, rfl⟩ := List.mem_map.1 hk
      rw [(hagrees x hx).history, (hasArrived_arrive C₁ view now' x).latest, (harrived x hx).latest]
    · rw [(hother k hk).history]
  · have hr₁ := (hround x hx).2 hr
    exact ⟨hr₁, by rw [(hagrees x hx).history, (harrived x hx).arrive_of_comesRound hr₁]⟩
  · have hr₁ := mt (hround x hx).1 hr
    refine ⟨hr₁, ?_⟩
    rw [(hagrees x hx).history, arrive, if_neg hr₁, history_put, Function.update_self]

end Contents

/-! ## The catalog -/

/-- The catalog is as it was, in memory and on disk. -/
structure Store.SameCatalog (s s' : Store) : Prop where
  catalog : s'.catalog = s.catalog
  root : s'.log.root = s.log.root
  file : s'.disk.get? s.catalog.path = s.disk.get? s.catalog.path

namespace Store

variable {K : Set String} {s s' s'' : Store} {C : Contents} {key : String} {r : Replica}

theorem SameCatalog.refl (s : Store) : SameCatalog s s := ⟨rfl, rfl, rfl⟩

theorem SameCatalog.trans (h : SameCatalog s s') (h' : SameCatalog s' s'') : SameCatalog s s'' :=
  ⟨h'.catalog.trans h.catalog, h'.root.trans h.root, (h.catalog ▸ h'.file).trans h.file⟩

namespace Holds

variable (hs : s.Holds K C)

include hs

theorem sameCatalog_get (hkey : key ∈ K) : SameCatalog s (s.get key).2 := by
  obtain ⟨log', hr, hstill⟩ := (hs.tally (s.log.tally.add .storeGets 1)).log.readLatest hkey
  have hget : (s.get key).2 = { s with log := log' } :=
    congrArg (fun r : _ × Log => { s with log := r.2 }) hr
  rw [hget]
  exact ⟨rfl, hstill.root, congrArg (·.get? s.catalog.path) hstill.disk⟩

/-- The file of the catalog does not belong to a key. -/
theorem sameCatalog_appendListed (key : String) (value : Bytes) (now : Time) :
    SameCatalog s (s.appendListed key value now).2 := by
  have htouches := touches_appendNow s.log key value now
  have hsame : SameCatalog s { s with log := (s.log.appendNow key value now).2 } := by
    refine ⟨rfl, htouches.root, htouches.frame _ ?_⟩
    rw [hs.path]
    exact not_territory_beside Catalog.not_isFolder_fileName
  rw [Store.appendListed, ofLog]
  cases happ : s.log.appendNow key value now with
  | mk result log =>
    rw [happ] at hsame
    cases result with
    | error e => exact hsame
    | ok tip => exact ⟨hsame.catalog, hsame.root, hsame.file⟩

/-- A key that is listed under the rank of a replica is not listed again. -/
theorem sameCatalog_putReplica (hr : (C.listed r.name).map (·.rank) = some r.rank) (value : Bytes)
    (now : Time) : SameCatalog s (s.putReplica r value now).2 := by
  have hlisted : (Catalog.find? s.catalog.entries r.name).map (·.rank) = some r.rank :=
    (congrArg (Option.map (·.rank)) (hs.listed r.name)).trans hr
  have hupsert : s.catalog.upsert s.disk r = (.ok (some r.rank), s.catalog, s.disk) := by
    rw [Catalog.upsert, hlisted]
    simp only [if_true]
  rw [Store.putReplica, ofCatalog, hupsert]
  exact hs.sameCatalog_appendListed r.name value now

end Holds

end Store

/-! ## Nodes -/

namespace Node

variable {K : Set String} {space : Space} {n : Rank} {node : Node} {C : Contents} {view : View}
  {now now' : Time} {r : Replica} {value : Bytes} {batch batch' onward : Batch}

namespace Holds

/-- A replica that has arrived leaves the catalog alone. -/
theorem sameCatalog_storeReplica (hn : node.Holds K space n C) (hkey : r.name ∈ K)
    (hx : C.HasArrived view (r, value)) (now : Time) :
    Store.SameCatalog node.store (node.storeReplica view r value now).2 := by
  rw [Node.storeReplica, hn.lowerHeld?_eq]
  by_cases hr : C.ComesRound view r
  · obtain ⟨held, hheld, -⟩ := (Option.any_eq_true _ _).1 hr.2.2
    have hname : held.name = r.name :=
      (Catalog.mem_of_find? ((hn.store.listed r.name).trans hheld)).2
    obtain ⟨store', hget, -⟩ := hn.store.get hkey
    have hsame := hn.store.sameCatalog_get hkey
    rw [hget] at hsame
    rw [if_pos hr, hheld]
    simp only [refresh, hname, hget, hx.latest, if_true]
    exact hsame
  · rw [if_neg hr]
    exact hn.store.sameCatalog_putReplica (hx.rank.resolve_left hr) value now

/-- So does a batch. -/
theorem sameCatalog_storeReplicas (hn : node.Holds K space n C) (hK : Distinct K)
    (hnodup : (batch.map (·.1.name)).Nodup) (hroom : ∀ x ∈ batch, C.HasRoom K view now x)
    (harrived : ∀ x ∈ batch, C.HasArrived view x) (onward : Batch) :
    Store.SameCatalog node.store (node.storeReplicas view now onward batch).2.store := by
  induction batch generalizing node C onward with
  | nil => exact .refl _
  | cons x batch ih =>
    obtain ⟨r, value⟩ := x
    obtain ⟨hr, hnodup⟩ := List.nodup_cons.1 hnodup
    have hagrees : ∀ x ∈ batch, Contents.Agrees x.1.name C (C.arrive view now (r, value)) :=
      fun x hx => (Contents.agrees_arrive_of_ne fun h => hr (List.mem_map.2 ⟨x, hx, h⟩)).symm
    have hroom_r := hroom (r, value) List.mem_cons_self
    obtain ⟨store₁, hstore, hs₁⟩ := hn.storeReplica hK view hroom_r
    have hsame := hn.sameCatalog_storeReplica hroom_r.1 (harrived (r, value) List.mem_cons_self) now
    rw [hstore] at hsame
    have hn₁ : Holds K space n { node with store := store₁ } (C.arrive view now (r, value)) :=
      ⟨hn.space, hn.copies, hs₁⟩
    rw [Node.storeReplicas, hstore]
    exact hsame.trans (ih hn₁ hnodup
      (fun x hx => (hagrees x hx).hasRoom (hroom x (List.mem_cons_of_mem _ hx)))
      (fun x hx => (hagrees x hx).hasArrived (harrived x (List.mem_cons_of_mem _ hx))) _)

end Holds

/-! ## Deliveries -/

/-- A node finishes what it began. If it asks a peer, that one does what it is asked, and does not
    turn to the node meanwhile. -/
def acknowledged (s : Step × Node) : Except ReplicationError Reply × Node :=
  match s.1 with
  | .done result => (result, s.2)
  | .ask _ _ after => s.2.resume after (.ok .done)

/-- If all is well, the node counts what it sent. -/
theorem acknowledged_passOn (view : View) (onward : Batch) (reply : Reply) (node : Node) :
    acknowledged (passOn view onward reply, node) = (.ok reply, node) ∨
      acknowledged (passOn view onward reply, node) =
        (.ok reply, node.count .replicasForwarded onward.length) := by
  rw [acknowledged, passOn]
  by_cases ho : onward = []
  · exact .inl (by rw [if_pos ho])
  · rw [if_neg ho]
    cases view.nextHop with
    | none => exact .inl rfl
    | some peer => exact .inr rfl

namespace Holds

/-- A delivery after which all is well leaves what the node holds. -/
theorem acknowledged (hn : node.Holds K space n C) (view : View) (onward : Batch) (reply : Reply) :
    (acknowledged (passOn view onward reply, node)).1 = .ok reply ∧
      (Node.acknowledged (passOn view onward reply, node)).2.Holds K space n C ∧
      node.store.SameCatalog (Node.acknowledged (passOn view onward reply, node)).2.store := by
  rcases acknowledged_passOn view onward reply node with h | h
  · rw [h]
    exact ⟨rfl, hn, .refl _⟩
  · rw [h]
    exact ⟨rfl, hn.count _ _, rfl, rfl, rfl⟩

theorem sameCatalog_makeReplicas (hn : node.Holds K space n C) (hK : Distinct K)
    (hnodup : (batch.map (·.1.name)).Nodup) (hroom : ∀ x ∈ batch, C.HasRoom K view now x)
    (harrived : ∀ x ∈ batch, C.HasArrived view x) (reply : Reply) :
    node.store.SameCatalog (node.makeReplicas view now batch reply).2.store := by
  have hsame := hn.sameCatalog_storeReplicas hK hnodup hroom harrived []
  rw [Node.makeReplicas]
  cases node.rankError? batch with
  | some e => exact .refl _
  | none =>
    cases hs : node.storeReplicas view now [] batch with
    | mk result node' =>
      rw [hs] at hsame
      cases result with
      | error e => exact hsame
      | ok onward =>
        cases onward with
        | nil => exact hsame
        | cons x onward => cases view.nextHop <;> exact hsame

end Holds

/-- Two deliveries of a batch to a node that held `C` before the first. -/
structure SameAgain (K : Set String) (space : Space) (n : Rank) (C : Contents) (view : View)
    (now : Time) (batch : Batch) (first second : Step × Node) : Prop where
  /-- The same is passed on, to the same peer. -/
  step : second.1 = first.1
  replies : (acknowledged first).1 = .ok .done ∧ (acknowledged second).1 = .ok .done
  /-- The second delivery stores nothing in the catalog. -/
  catalog : (acknowledged first).2.store.SameCatalog (acknowledged second).2.store
  /-- Every key is read the same. -/
  values : ∀ key ∈ K, ((acknowledged second).2.store.get key).1 =
    ((acknowledged first).2.store.get key).1
  contents : ∃ C₁ C₂, (acknowledged first).2.Holds K space n C₁ ∧
    (acknowledged second).2.Holds K space n C₂ ∧ Contents.Again view now batch C C₁ C₂

/-- A batch that is delivered a second time, in whatever order the replicas come then, does no
    harm. -/
theorem takes_in_again (hn : node.Holds K space n C) (hK : Distinct K) (view : View)
    (now now' : Time) (hnodup : (batch.map (·.1.name)).Nodup)
    (hrank : ∀ x ∈ batch, 1 ≤ x.1.rank ∧ x.1.rank ≤ n)
    (hroom : ∀ x ∈ batch, C.HasRoom K view now x)
    (hroom' : ∀ x ∈ batch, (C.settle view now batch).HasRoom K view now' x)
    (hp : batch'.Perm batch) :
    SameAgain K space n C view now' batch (node.start view now (.makeReplicas batch))
      ((acknowledged (node.start view now (.makeReplicas batch))).2.start view now'
        (.makeReplicas batch')) := by
  have hnodup' := ((hp.map (·.1.name)).nodup_iff).2 hnodup
  have harrived : ∀ x ∈ batch', (C.settle view now batch).HasArrived view x := fun x hx =>
    Contents.hasArrived_settle hnodup (hp.mem_iff.1 hx)
  have hroom'' : ∀ x ∈ batch', (C.settle view now batch).HasRoom K view now' x := fun x hx =>
    hroom' x (hp.mem_iff.1 hx)
  have hagain : Contents.Again view now' batch C (C.settle view now batch)
      ((C.settle view now batch).settle view now' batch) := Contents.again_settle hnodup
  -- The first delivery.
  obtain ⟨onward, node₁, hfirst, hn₁, hsorted, hmem⟩ :=
    hn.makeReplicas hK view hnodup hrank hroom .done
  obtain ⟨hreply₁, hack₁, -⟩ := hn₁.acknowledged view onward .done
  rw [start, hfirst]
  -- The second delivery finds what the first one left.
  obtain ⟨onward', node₂, hsecond, hn₂, hsorted', hmem'⟩ :=
    hack₁.makeReplicas hK view hnodup' (fun x hx => hrank x (hp.mem_iff.1 hx)) hroom'' .done
  have hsame := hack₁.sameCatalog_makeReplicas hK hnodup' hroom'' harrived .done
  rw [Contents.settle_perm hp hnodup] at hn₂
  obtain ⟨hreply₂, hack₂, hsame₂⟩ := hn₂.acknowledged view onward' .done
  rw [start, hsecond]
  rw [hsecond] at hsame
  have honward : onward' = onward := Batch.eq_of_mem_iff hsorted' hsorted fun y => by
    rw [hmem', hmem, Contents.goesOn_perm hp, Contents.goesOn_settle hnodup]
  refine ⟨by rw [honward], ⟨hreply₁, hreply₂⟩, hsame.trans hsame₂, fun key hkey => ?_,
    _, _, hack₁, hack₂, hagain⟩
  obtain ⟨store₁, hget₁, -⟩ := hack₁.store.get hkey
  obtain ⟨store₂, hget₂, -⟩ := hack₂.store.get hkey
  rw [hget₁, hget₂, hagain.latest]

/-- The second copy of a key is listed again and the third copy of another comes round again. -/
theorem takes_in_again_sampleArrivals :
    let space : Space := ⟨16, by decide, by decide⟩
    let batch := sampleArrivals space
    let C := sampleHeld space
    ∃ node : Node, node.Holds samplePairOfKeys space 3 C ∧ Distinct samplePairOfKeys ∧
      (batch.map (·.1.name)).Nodup ∧ (∀ x ∈ batch, 1 ≤ x.1.rank ∧ x.1.rank ≤ 3) ∧
      (∀ x ∈ batch, C.HasRoom samplePairOfKeys ownerView 0 x) ∧
      (∀ x ∈ batch, (C.settle ownerView 0 batch).HasRoom samplePairOfKeys ownerView 5 x) ∧
      batch.reverse.Perm batch ∧ C.ComesRound ownerView ⟨space.key "a", 3⟩ ∧
      SameAgain samplePairOfKeys space 3 C ownerView 5 batch
        (node.start ownerView 0 (.makeReplicas batch))
        ((acknowledged (node.start ownerView 0 (.makeReplicas batch))).2.start ownerView 5
          (.makeReplicas batch.reverse)) := by
  intro space batch C
  obtain ⟨node, hn⟩ := exists_sampleHeld space
  have hnodup : (batch.map (·.1.name)).Nodup := by decide
  have hrank : ∀ x ∈ batch, 1 ≤ x.1.rank ∧ x.1.rank ≤ 3 :=
    List.forall_mem_cons.2 ⟨by decide, List.forall_mem_singleton.2 (by decide)⟩
  have hroom : ∀ x ∈ batch, C.HasRoom samplePairOfKeys ownerView 0 x := hasRoom_sampleArrivals
  have hroom' : ∀ x ∈ batch,
      (C.settle ownerView 0 batch).HasRoom samplePairOfKeys ownerView 5 x := by
    refine List.forall_mem_cons.2 ⟨⟨.inl rfl, fun _ => ⟨.inl rfl, by decide, ?_⟩⟩,
      List.forall_mem_singleton.2 ⟨.inr rfl, fun _ => ⟨.inr rfl, by decide, ?_⟩⟩⟩
    · rintro l ⟨⟩
      decide
    · rintro l ⟨⟩
      decide
  exact ⟨node, hn, distinct_samplePairOfKeys, hnodup, hrank, hroom, hroom', List.reverse_perm _,
    by decide, takes_in_again hn distinct_samplePairOfKeys ownerView 0 5 hnodup hrank hroom hroom'
      (List.reverse_perm _)⟩

end Node

end ReplicaRing

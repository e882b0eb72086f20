import ReplicaRing.Node
import ReplicaRing.Proofs.Contents

/-!
# Batches that arrive

A node that is sent a batch stores one replica after the other. What it does with a replica goes
by what it knows of the key at that moment, and the batch has no other replica of the key; so it
goes by what was known before, and the order of the batch does not matter.

* A replica *comes round* (`Contents.ComesRound`) if the node owns its key and lists it under a
  lower rank: that rank stays, and only a new value is written.
* Any other replica is stored as it is. If it is not the last of its chain, the next one is sent
  to the successor.

`Contents.arrive` is what one replica does, `Contents.settle` what a batch does; both are told key
by key (`Contents.agrees_settle`). Main statement: `Node.takes_in_batch`.
-/

namespace ReplicaRing

open Log

/-! ## One replica -/

namespace Contents

variable {C D : Contents} {view : View} {now : Time} {r : Replica} {value : Bytes} {k : String}
  {x y : Replica × Bytes}

/-- The chain of `r` has come round the ring to the owner, which lists the key under a lower
    rank. -/
def ComesRound (C : Contents) (view : View) (r : Replica) : Prop :=
  2 ≤ r.rank ∧ view.owns r.key.point = true ∧
    ((C.listed r.name).any fun held => held.rank < r.rank) = true

instance : Decidable (C.ComesRound view r) := inferInstanceAs (Decidable (_ ∧ _ ∧ _))

/-- A replica is brought to a node, with its value. -/
def arrive (view : View) (now : Time) (C : Contents) (x : Replica × Bytes) : Contents :=
  if C.ComesRound view x.1 then
    if (C.history x.1.name).latest = some x.2 then C else C.write x.1.name x.2 now
  else C.put x.1 x.2 now

/-- The key is one of `K`, and if the value is written there is room for it. -/
def HasRoom (K : Set String) (view : View) (now : Time) (C : Contents) (x : Replica × Bytes) :
    Prop :=
  x.1.name ∈ K ∧ ((C.ComesRound view x.1 → (C.history x.1.name).latest ≠ some x.2) →
    (Call.appendNow x.1.name x.2 now).Admissible K C.history)

theorem map_rank_put (C : Contents) (r : Replica) (value : Bytes) (now : Time) :
    ((C.put r value now).listed r.name).map (·.rank) = some r.rank := by
  obtain ⟨held, hheld, hrank⟩ := Option.map_eq_some_iff.1 (gains_put C r value now).rank
  rw [hheld, Option.map_some, UInt32.toNat_inj.1 hrank]

/-- The same is known of the key. -/
structure Agrees (k : String) (C D : Contents) : Prop where
  listed : C.listed k = D.listed k
  history : C.history k = D.history k

theorem ext_of_agrees (h : ∀ k, Agrees k C D) : C = D := by
  obtain ⟨listed, history⟩ := C
  obtain ⟨listed', history'⟩ := D
  obtain rfl : listed = listed' := funext fun k => (h k).listed
  obtain rfl : history = history' := funext fun k => (h k).history
  rfl

namespace Agrees

theorem refl (k : String) (C : Contents) : Agrees k C C := ⟨rfl, rfl⟩

theorem symm (h : Agrees k C D) : Agrees k D C := ⟨h.listed.symm, h.history.symm⟩

theorem trans {D' : Contents} (h : Agrees k C D) (h' : Agrees k D D') : Agrees k C D' :=
  ⟨h.listed.trans h'.listed, h.history.trans h'.history⟩

theorem stampOf (h : Agrees k C D) (now : Time) : C.stampOf k now = D.stampOf k now := by
  rw [Contents.stampOf, Contents.stampOf, h.history]

theorem comesRound_iff (h : Agrees r.name C D) : C.ComesRound view r ↔ D.ComesRound view r := by
  rw [ComesRound, ComesRound, h.listed]

/-- There is room for a write if there was. -/
theorem admissible {K : Set String} (h : Agrees k C D)
    (ha : (Call.appendNow k value now).Admissible K C.history) :
    (Call.appendNow k value now).Admissible K D.history := by
  obtain ⟨hk, hroom, hlast⟩ := ha
  refine ⟨hk, ?_, h.history ▸ hlast⟩
  have hC : ((Call.appendNow k value now).onHistories C.history).2 k = _ :=
    congrFun (history_write C k value now) k
  have hD : ((Call.appendNow k value now).onHistories D.history).2 k = _ :=
    congrFun (history_write D k value now) k
  rw [hC, Function.update_self, h.history, h.stampOf] at hroom
  rwa [hD, Function.update_self]

theorem hasRoom {K : Set String} (h : Agrees x.1.name C D) (hx : C.HasRoom K view now x) :
    D.HasRoom K view now x := by
  refine ⟨hx.1, fun hw => h.admissible (hx.2 fun hr => ?_)⟩
  rw [h.history]
  exact hw (h.comesRound_iff.1 hr)

end Agrees

/-- A replica that arrives tells of its own key only. -/
theorem agrees_arrive_of_ne (hk : k ≠ x.1.name) : Agrees k (C.arrive view now x) C := by
  rw [arrive]
  split
  · split
    · exact .refl k C
    · exact ⟨rfl, by rw [history_write, Function.update_of_ne hk]⟩
  · exact ⟨by rw [listed_put, Function.update_of_ne hk],
      by rw [history_put, Function.update_of_ne hk]⟩

/-- What it tells of its key goes by what was known of the key. -/
theorem Agrees.arrive (h : Agrees x.1.name C D) :
    Agrees x.1.name (C.arrive view now x) (D.arrive view now x) := by
  have hround : C.ComesRound view x.1 ↔ D.ComesRound view x.1 := h.comesRound_iff
  have hlatest : (C.history x.1.name).latest = some x.2 ↔ (D.history x.1.name).latest = some x.2 := by
    rw [h.history]
  rw [Contents.arrive, Contents.arrive]
  by_cases hr : C.ComesRound view x.1
  · rw [if_pos hr, if_pos (hround.1 hr)]
    by_cases hl : (C.history x.1.name).latest = some x.2
    · rwa [if_pos hl, if_pos (hlatest.1 hl)]
    · rw [if_neg hl, if_neg (mt hlatest.2 hl)]
      refine ⟨h.listed, ?_⟩
      rw [history_write, history_write, Function.update_self, Function.update_self, h.history,
        h.stampOf]
  · rw [if_neg hr, if_neg (mt hround.2 hr)]
    refine ⟨?_, ?_⟩
    · rw [listed_put, listed_put, Function.update_self, Function.update_self, h.listed]
    · rw [history_put, history_put, Function.update_self, Function.update_self, h.history,
        h.stampOf]

/-! ## Batches -/

/-- The replicas of a batch arrive one after the other. -/
def settle (view : View) (now : Time) (C : Contents) (batch : Batch) : Contents :=
  batch.foldl (arrive view now) C

variable {batch : Batch}

theorem agrees_settle_of_not_mem (hk : k ∉ batch.map (·.1.name)) :
    Agrees k (C.settle view now batch) C := by
  induction batch generalizing C with
  | nil => exact .refl k C
  | cons x batch ih =>
    rw [List.map_cons, List.mem_cons, not_or] at hk
    exact (ih hk.2).trans (agrees_arrive_of_ne hk.1)

/-- A replica of a batch does to its key what it would do alone. -/
theorem agrees_settle (hnodup : (batch.map (·.1.name)).Nodup) (hx : x ∈ batch) :
    Agrees x.1.name (C.settle view now batch) (C.arrive view now x) := by
  induction batch generalizing C with
  | nil => exact absurd hx List.not_mem_nil
  | cons y batch ih =>
    obtain ⟨hy, hnodup⟩ := List.nodup_cons.1 hnodup
    rcases List.mem_cons.1 hx with rfl | hx
    · exact agrees_settle_of_not_mem hy
    · have hne : x.1.name ≠ y.1.name := fun h => hy (List.mem_map.2 ⟨x, hx, h⟩)
      exact (ih hnodup hx).trans (agrees_arrive_of_ne hne).arrive

/-- The order of a batch does not matter. -/
theorem settle_perm {batch' : Batch} (hp : batch'.Perm batch)
    (hnodup : (batch.map (·.1.name)).Nodup) :
    C.settle view now batch' = C.settle view now batch := by
  refine ext_of_agrees fun k => ?_
  by_cases hk : k ∈ batch.map (·.1.name)
  · obtain ⟨x, hx, rfl⟩ := List.mem_map.1 hk
    have hnodup' := ((hp.map (·.1.name)).nodup_iff).2 hnodup
    exact (agrees_settle hnodup' (hp.mem_iff.2 hx)).trans (agrees_settle hnodup hx).symm
  · have hk' : k ∉ batch'.map (·.1.name) := mt ((hp.map (·.1.name)).mem_iff).1 hk
    exact (agrees_settle_of_not_mem hk').trans (agrees_settle_of_not_mem hk).symm

/-- `y` is the next copy of a replica of the batch that does not come round and is not the last of
    its chain. -/
def GoesOn (C : Contents) (view : View) (n : Rank) (batch : Batch) (y : Replica × Bytes) : Prop :=
  ∃ x ∈ batch, ¬C.ComesRound view x.1 ∧ x.1.rank < n ∧ y = ({ x.1 with rank := x.1.rank + 1 }, x.2)

theorem goesOn_perm {n : Rank} {batch' : Batch} (hp : batch'.Perm batch) :
    C.GoesOn view n batch' y ↔ C.GoesOn view n batch y := by
  simp only [GoesOn, hp.mem_iff]

theorem goesOn_cons {n : Rank} : C.GoesOn view n (x :: batch) y ↔
    (¬C.ComesRound view x.1 ∧ x.1.rank < n) ∧ y = ({ x.1 with rank := x.1.rank + 1 }, x.2) ∨
      C.GoesOn view n batch y := by
  simp only [GoesOn, List.mem_cons, exists_eq_or_imp, and_assoc]

/-- The replicas behind `x` go on as they would have done before it arrived. -/
theorem goesOn_arrive {n : Rank} (hx : x.1.name ∉ batch.map (·.1.name)) :
    (C.arrive view now x).GoesOn view n batch y ↔ C.GoesOn view n batch y := by
  refine exists_congr fun z => and_congr_right fun hz => ?_
  have hne : z.1.name ≠ x.1.name := fun h => hx (List.mem_map.2 ⟨z, hz, h⟩)
  have hagrees : (C.arrive view now x).Agrees z.1.name C := agrees_arrive_of_ne hne
  rw [hagrees.comesRound_iff]

end Contents

/-! ## What is gathered -/

namespace Batch

variable {b b' : Batch} {r : Replica}

/-- The names of a batch increase. -/
def Sorted (b : Batch) : Prop := b.Pairwise fun x y => x.1.name < y.1.name

theorem mem_insert_iff (value : Bytes) (h : r.name ∉ b.map (·.1.name)) {y : Replica × Bytes} :
    y ∈ Batch.insert r value b ↔ y = (r, value) ∨ y ∈ b := by
  induction b with
  | nil => simp [Batch.insert]
  | cons x b ih =>
    rw [List.map_cons, List.mem_cons, not_or] at h
    rw [Batch.insert, if_neg h.1]
    split
    · exact List.mem_cons
    · rw [List.mem_cons, ih h.2, List.mem_cons]
      tauto

theorem mem_names_insert (value : Bytes) (h : r.name ∉ b.map (·.1.name)) {k : String} :
    k ∈ (Batch.insert r value b).map (·.1.name) ↔ k = r.name ∨ k ∈ b.map (·.1.name) := by
  simp only [List.mem_map, mem_insert_iff value h, or_and_right, exists_or, exists_eq_left,
    eq_comm]

theorem sorted_insert (value : Bytes) (hb : Sorted b) (h : r.name ∉ b.map (·.1.name)) :
    Sorted (Batch.insert r value b) := by
  induction b with
  | nil => exact List.pairwise_singleton _ _
  | cons x b ih =>
    obtain ⟨hlt, hb'⟩ := List.pairwise_cons.1 hb
    rw [List.map_cons, List.mem_cons, not_or] at h
    rw [Batch.insert, if_neg h.1]
    split
    · rename_i hrx
      refine List.pairwise_cons.2 ⟨fun y hy => ?_, hb⟩
      rcases List.mem_cons.1 hy with rfl | hy
      · exact hrx
      · exact String.lt_trans hrx (hlt y hy)
    · rename_i hrx
      refine List.pairwise_cons.2 ⟨fun y hy => ?_, ih hb' h.2⟩
      rcases (mem_insert_iff value h.2).1 hy with rfl | hy
      · exact ((Catalog.lt_or_eq_or_gt x.1.name r.name).resolve_right fun h' =>
          h'.elim (fun h' => h.1 h'.symm) hrx)
      · exact hlt y hy

/-- Batches with the same replicas are the same. -/
theorem eq_of_mem_iff (hb : Sorted b) (hb' : Sorted b') (h : ∀ y, y ∈ b ↔ y ∈ b') : b = b' := by
  have hnodup : ∀ {b : Batch}, Sorted b → b.Nodup := fun hb => hb.imp (S := (· ≠ ·))
    fun h he => String.ne_of_lt h (congrArg (·.1.name) he)
  exact ((List.perm_ext_iff_of_nodup (hnodup hb) (hnodup hb')).2 h).eq_of_pairwise
    (fun x y _ _ hxy hyx => absurd (String.lt_trans hxy hyx) (String.lt_irrefl _)) hb hb'

end Batch

/-! ## Nodes -/

/-- A node of a ring with `n` copies of each key, and what its store holds. -/
structure Node.Holds (K : Set String) (space : Space) (n : Rank) (node : Node) (C : Contents) :
    Prop where
  space : node.space = space
  copies : node.copies = n
  store : node.store.Holds K C

namespace Node

variable {K : Set String} {space : Space} {n : Rank} {node : Node} {C C' : Contents}
  {view : View} {now : Time} {r : Replica} {value : Bytes} {batch onward : Batch}

/-- What goes on is sent to the next node of the chain, if there is something and somebody. -/
def passOn (view : View) (onward : Batch) (reply : Reply) : Step :=
  if onward = [] then .done (.ok reply)
  else match view.nextHop with
    | none => .done (.ok reply)
    | some peer => forward peer onward reply

namespace Holds

theorem count (hn : node.Holds K space n C) (metric : Metric) (i : Nat) :
    (node.count metric i).Holds K space n C :=
  ⟨hn.space, hn.copies, hn.store.tally _⟩

theorem lowerHeld?_eq (hn : node.Holds K space n C) (view : View) (r : Replica) :
    node.lowerHeld? view r = if C.ComesRound view r then C.listed r.name else none := by
  have hl : node.store.replica? r.name = C.listed r.name := hn.store.listed r.name
  rw [lowerHeld?, hl]
  by_cases howns : view.owns r.key.point = true
  swap
  · rw [Bool.not_eq_true] at howns
    rw [if_pos (.inr howns), if_neg (by simp [Contents.ComesRound, howns])]
  cases hc : C.listed r.name with
  | none => simp
  | some held =>
    by_cases hlt : held.rank < r.rank
    · -- A rank that another is below is not 0.
      have htwo : r.rank = 1 ∨ 2 ≤ r.rank := by
        rw [← UInt32.toNat_inj, UInt32.le_iff_toNat_le, UInt32.toNat_one]
        have := UInt32.lt_iff_toNat_lt.1 hlt
        have h2 : (2 : UInt32).toNat = 2 := rfl
        omega
      rcases htwo with hone | htwo
      · rw [if_pos (.inl hone), if_neg (by simp [Contents.ComesRound, hone])]
      · have hone : r.rank ≠ 1 := fun h => by
          rw [h] at htwo
          exact absurd htwo (by decide)
        rw [if_neg (by simp [hone, howns]),
          if_pos (by simp [Contents.ComesRound, htwo, howns, hc, hlt])]
        simp [hlt]
    · have hround : ¬C.ComesRound view r := by simp [Contents.ComesRound, hc, hlt]
      have hnone : (some held).filter (fun held => decide (held.rank < r.rank)) = none := by
        simpa using UInt32.not_lt.1 hlt
      rw [if_neg hround, hnone, ite_self]

/-- One replica is stored. -/
theorem storeReplica (hn : node.Holds K space n C) (hK : Distinct K) (view : View)
    (hroom : C.HasRoom K view now (r, value)) :
    ∃ store', node.storeReplica view r value now =
        (.ok (decide (¬C.ComesRound view r ∧ r.rank < n)), store') ∧
      store'.Holds K (C.arrive view now (r, value)) := by
  rw [Node.storeReplica, hn.lowerHeld?_eq, Contents.arrive]
  by_cases hr : C.ComesRound view r
  · obtain ⟨held, hheld, -⟩ := (Option.any_eq_true _ _).1 hr.2.2
    have hname : held.name = r.name :=
      (Catalog.mem_of_find? ((hn.store.listed r.name).trans hheld)).2
    obtain ⟨store₁, hget, hs₁⟩ := hn.store.get hroom.1
    rw [if_pos hr, if_pos hr, hheld]
    simp only [hr, not_true_eq_false, false_and, decide_false]
    by_cases hl : (C.history r.name).latest = some value
    · refine ⟨store₁, ?_, by rwa [if_pos hl]⟩
      rw [refresh, hname, hget]
      simp only [hl, if_true]
      rfl
    · -- The key is listed under this rank already, so only the value is written.
      have hput : C.put held value now = C.write r.name value now := by
        rw [Contents.put, Contents.enlist, hname, hheld, Option.filter_some, if_pos (by simp),
          Option.some_or, Function.update_eq_self_iff.2 hheld.symm]
      obtain ⟨t, store₂, hp, hs₂⟩ := hs₁.putReplica hK (r := held) (hname ▸ hroom.2 fun _ => hl)
      refine ⟨store₂, ?_, by rwa [if_neg hl, ← hput]⟩
      rw [refresh, hname, hget]
      simp only [hl, if_false, hp]
      rfl
  · obtain ⟨t, store', hput, hs'⟩ := hn.store.putReplica hK (hroom.2 fun h => absurd h hr)
    rw [if_neg hr, if_neg hr]
    refine ⟨store', ?_, hs'⟩
    simp only [hput, hr, not_false_eq_true, true_and, hn.copies]
    rfl

/-- The replicas of a batch are stored one after the other, and those that go on are gathered. -/
theorem storeReplicas (hn : node.Holds K space n C) (hK : Distinct K)
    (hnodup : (batch.map (·.1.name)).Nodup)
    (hroom : ∀ x ∈ batch, C.HasRoom K view now x)
    (hsorted : onward.Sorted) (hfresh : ∀ x ∈ batch, x.1.name ∉ onward.map (·.1.name)) :
    ∃ onward' node', node.storeReplicas view now onward batch = (.ok onward', node') ∧
      node'.Holds K space n (C.settle view now batch) ∧ onward'.Sorted ∧
      ∀ y, y ∈ onward' ↔ y ∈ onward ∨ C.GoesOn view n batch y := by
  induction batch generalizing node C onward with
  | nil => exact ⟨onward, node, rfl, hn, hsorted, by simp [Contents.GoesOn]⟩
  | cons x batch ih =>
    obtain ⟨r, value⟩ := x
    obtain ⟨hr, hnodup⟩ := List.nodup_cons.1 hnodup
    have hne : ∀ x ∈ batch, x.1.name ≠ r.name := fun x hx h => hr (List.mem_map.2 ⟨x, hx, h⟩)
    have hfresh_r := hfresh (r, value) List.mem_cons_self
    have hfresh' : ∀ x ∈ batch, x.1.name ∉ onward.map (·.1.name) := fun x hx =>
      hfresh x (List.mem_cons_of_mem _ hx)
    obtain ⟨store₁, hstore, hs₁⟩ := hn.storeReplica hK view (hroom (r, value) List.mem_cons_self)
    have hn₁ : Holds K space n { node with store := store₁ } (C.arrive view now (r, value)) :=
      ⟨hn.space, hn.copies, hs₁⟩
    -- `r` is stored under a name that none of the others has, so there is room for them as before.
    have hroom' : ∀ x ∈ batch, (C.arrive view now (r, value)).HasRoom K view now x := fun x hx =>
      (Contents.agrees_arrive_of_ne (hne x hx)).symm.hasRoom (hroom x (List.mem_cons_of_mem _ hx))
    rw [Node.storeReplicas, hstore]
    by_cases hon : ¬C.ComesRound view r ∧ r.rank < n
    · set next : Replica := { r with rank := r.rank + 1 }
      have hfresh_next : next.name ∉ onward.map (·.1.name) := hfresh_r
      obtain ⟨onward', node', hrec, hn', hsorted', hmem⟩ :=
        ih hn₁ hnodup hroom' (Batch.sorted_insert value hsorted hfresh_next) fun x hx h =>
          ((Batch.mem_names_insert value hfresh_next).1 h).elim (hne x hx) (hfresh' x hx)
      refine ⟨onward', node', ?_, hn', hsorted', fun y => ?_⟩
      · simp only [decide_eq_true hon, if_true]
        exact hrec
      · rw [hmem, Batch.mem_insert_iff value hfresh_next, Contents.goesOn_arrive hr,
          Contents.goesOn_cons, and_iff_right hon, or_comm (a := y = _), or_assoc]
    · obtain ⟨onward', node', hrec, hn', hsorted', hmem⟩ := ih hn₁ hnodup hroom' hsorted hfresh'
      refine ⟨onward', node', ?_, hn', hsorted', fun y => ?_⟩
      · simp only [decide_eq_false hon]
        exact hrec
      · rw [hmem, Contents.goesOn_arrive hr, Contents.goesOn_cons]
        exact or_congr_right (or_iff_right fun h => hon h.1).symm

/-- A batch with ranks of chains is stored, and what goes on is passed on. -/
theorem makeReplicas (hn : node.Holds K space n C) (hK : Distinct K) (view : View)
    (hnodup : (batch.map (·.1.name)).Nodup)
    (hrank : ∀ x ∈ batch, 1 ≤ x.1.rank ∧ x.1.rank ≤ n)
    (hroom : ∀ x ∈ batch, C.HasRoom K view now x) (reply : Reply) :
    ∃ onward node', node.makeReplicas view now batch reply = (passOn view onward reply, node') ∧
      node'.Holds K space n (C.settle view now batch) ∧ onward.Sorted ∧
      ∀ y, y ∈ onward ↔ C.GoesOn view n batch y := by
  obtain ⟨onward, node', hstore, hn', hsorted, hmem⟩ :=
    hn.storeReplicas hK hnodup hroom .nil fun _ _ => List.not_mem_nil
  have hnone : node.rankError? batch = none := rankError?_eq_none fun x hx => by
    rw [hn.copies]
    exact ⟨UInt32.le_iff_toNat_le.1 (hrank x hx).1, UInt32.le_iff_toNat_le.1 (hrank x hx).2⟩
  refine ⟨onward, node', ?_, hn', hsorted, fun y => by simpa using hmem y⟩
  rw [Node.makeReplicas, hnone]
  simp only [hstore]
  cases onward with
  | nil => rfl
  | cons x onward =>
    rw [passOn, if_neg (List.cons_ne_nil _ _)]
    cases view.nextHop <;> rfl

/-- So is a single replica. -/
theorem makeReplicas_single (hn : node.Holds K space n C) (hK : Distinct K) (view : View)
    (hone : 1 ≤ r.rank) (hle : r.rank ≤ n) (hroom : C.HasRoom K view now (r, value))
    (reply : Reply) :
    ∃ node', node.makeReplicas view now [(r, value)] reply =
        (passOn view (if ¬C.ComesRound view r ∧ r.rank < n
          then [({ r with rank := r.rank + 1 }, value)] else []) reply, node') ∧
      node'.Holds K space n (C.arrive view now (r, value)) := by
  have hnodup : (List.map (·.1.name) [(r, value)]).Nodup := List.nodup_singleton _
  obtain ⟨onward, node', hmake, hn', hsorted, hmem⟩ := hn.makeReplicas hK view hnodup
    (by simpa using ⟨hone, hle⟩) (by simpa using hroom) reply
  refine ⟨node', ?_, hn'⟩
  rw [hmake]
  congr 2
  simp only [Contents.GoesOn, List.mem_singleton, ← and_assoc] at hmem
  split
  · rename_i hon
    exact Batch.eq_of_mem_iff hsorted (List.pairwise_singleton _ _) fun y => by simp [hmem, hon]
  · rename_i hon
    exact Batch.eq_of_mem_iff hsorted .nil fun y => by simp [hmem, hon]

end Holds

/-! ## Any order -/

/-- A batch is taken in, and `onward` goes on. -/
structure TakesIn (view : View) (now : Time) (n : Rank) (C : Contents) (batch : Batch)
    (C' : Contents) (onward : Batch) : Prop where
  /-- Where a chain comes round the rank stays, and the value is written unless it is the last one
      already. -/
  round : ∀ x ∈ batch, C.ComesRound view x.1 →
    C'.listed x.1.name = C.listed x.1.name ∧ C'.history x.1.name = C.history x.1.name ++
      if (C.history x.1.name).latest = some x.2 then [] else [⟨C.stampOf x.1.name now, x.2⟩]
  /-- Any other replica is listed under the rank it came with, and its value is written. -/
  stored : ∀ x ∈ batch, ¬C.ComesRound view x.1 →
    (C'.listed x.1.name).map (·.rank) = some x.1.rank ∧
      C'.history x.1.name = C.history x.1.name ++ [⟨C.stampOf x.1.name now, x.2⟩]
  other : ∀ k, k ∉ batch.map (·.1.name) → C'.Agrees k C
  sorted : onward.Sorted
  onward : ∀ y, y ∈ onward ↔ C.GoesOn view n batch y

theorem takesIn_settle (hnodup : (batch.map (·.1.name)).Nodup) (hsorted : onward.Sorted)
    (honward : ∀ y, y ∈ onward ↔ C.GoesOn view n batch y) :
    TakesIn view now n C batch (C.settle view now batch) onward where
  round x hx hr := by
    have h : (C.settle view now batch).Agrees x.1.name (C.arrive view now x) :=
      Contents.agrees_settle hnodup hx
    rw [h.listed, h.history, Contents.arrive, if_pos hr]
    split
    · exact ⟨rfl, (List.append_nil _).symm⟩
    · exact ⟨rfl, by rw [Contents.history_write, Function.update_self]⟩
  stored x hx hr := by
    have h : (C.settle view now batch).Agrees x.1.name (C.arrive view now x) :=
      Contents.agrees_settle hnodup hx
    rw [h.listed, h.history, Contents.arrive, if_neg hr]
    exact ⟨Contents.map_rank_put C x.1 x.2 now,
      by rw [Contents.history_put, Function.update_self]⟩
  other k hk := Contents.agrees_settle_of_not_mem hk
  sorted := hsorted
  onward := honward

/-- What a node that holds `C` does with a batch, in whatever order the replicas come. -/
structure HandlesBatch (K : Set String) (space : Space) (n : Rank) (node : Node) (C : Contents)
    (view : View) (now : Time) (batch : Batch) : Prop where
  /-- If no chain has one of the ranks nothing is stored, and nobody is asked. -/
  refused : (∃ x ∈ batch, ¬(1 ≤ x.1.rank ∧ x.1.rank ≤ n)) → ∀ batch', batch'.Perm batch →
    ∃ x ∈ batch, ¬(1 ≤ x.1.rank ∧ x.1.rank ≤ n) ∧ node.start view now (.makeReplicas batch') =
      (.done (.error (.invalidRank x.1.name x.1.rank n)), node)
  /-- Otherwise the batch is taken in, if there is room for it, and what goes on is passed on in one
      request. -/
  taken : (∀ x ∈ batch, 1 ≤ x.1.rank ∧ x.1.rank ≤ n) → (∀ x ∈ batch, C.HasRoom K view now x) →
    ∃ C' onward, TakesIn view now n C batch C' onward ∧ ∀ batch', batch'.Perm batch →
      ∃ node', node.start view now (.makeReplicas batch') = (passOn view onward .done, node') ∧
        node'.Holds K space n C'
  /-- Whatever the successor says, what the node holds by then stays. -/
  replied : ∀ (node₁ : Node) C₁, node₁.Holds K space n C₁ → ∀ count reply,
    ∃ node₂, node₁.resume (.forwarded count .done) reply =
        ((reply.mapError .peer).map fun _ => .done, node₂) ∧ node₂.Holds K space n C₁

theorem exists_rankError (h : ∃ x ∈ batch, ¬(1 ≤ x.1.rank ∧ x.1.rank ≤ node.copies)) :
    ∃ x ∈ batch, ¬(1 ≤ x.1.rank ∧ x.1.rank ≤ node.copies) ∧
      node.rankError? batch = some (.invalidRank x.1.name x.1.rank node.copies) := by
  have hbad : ∀ rank : Rank, (rank = 0 || decide (node.copies < rank)) = true ↔
      ¬(1 ≤ rank ∧ rank ≤ node.copies) := fun rank => by
    have hzero : rank = 0 ↔ ¬1 ≤ rank := by
      rw [← UInt32.toNat_inj, UInt32.le_iff_toNat_le, UInt32.toNat_one, UInt32.toNat_zero]
      omega
    rw [Bool.or_eq_true, decide_eq_true_eq, decide_eq_true_eq, hzero, ← UInt32.not_le, not_and_or]
  obtain ⟨x, hx, hrank⟩ := h
  cases hf : batch.find? fun x => x.1.rank = 0 || node.copies < x.1.rank with
  | none =>
    have hgood := List.find?_eq_none.1 hf x hx
    exact absurd ((hbad x.1.rank).2 hrank) hgood
  | some y =>
    have hy := List.find?_some hf
    exact ⟨y, List.mem_of_find?_eq_some hf, (hbad y.1.rank).1 hy, congrArg (Option.map _) hf⟩

/-- A node takes a batch in as a whole or not at all: what becomes of each replica, and what is
    passed on, does not depend on the order in which the batch is gone through. -/
theorem takes_in_batch (hn : node.Holds K space n C) (hK : Distinct K) (view : View) (now : Time)
    (hnodup : (batch.map (·.1.name)).Nodup) : node.HandlesBatch K space n C view now batch where
  refused hbad batch' hp := by
    rw [← hn.copies] at hbad ⊢
    obtain ⟨y, hy, hbad⟩ := hbad
    obtain ⟨x, hx, hrank, he⟩ := exists_rankError ⟨y, hp.mem_iff.2 hy, hbad⟩
    refine ⟨x, hp.mem_iff.1 hx, hrank, ?_⟩
    rw [start, Node.makeReplicas, he]
  taken hrank hroom := by
    obtain ⟨onward, -, -, -, hsorted, hmem⟩ := hn.makeReplicas hK view hnodup hrank hroom .done
    refine ⟨_, onward, takesIn_settle hnodup hsorted hmem, fun batch' hp => ?_⟩
    have hnodup' := ((hp.map (·.1.name)).nodup_iff).2 hnodup
    obtain ⟨onward', node', hmake, hn', hsorted', hmem'⟩ := hn.makeReplicas hK view hnodup'
      (fun x hx => hrank x (hp.mem_iff.1 hx)) (fun x hx => hroom x (hp.mem_iff.1 hx)) .done
    -- The same replicas go on, and they are gathered in order of their names.
    have honward : onward' = onward := Batch.eq_of_mem_iff hsorted' hsorted fun y => by
      rw [hmem', hmem, Contents.goesOn_perm hp]
    rw [Contents.settle_perm hp hnodup] at hn'
    exact ⟨node', by rw [start, hmake, honward], hn'⟩
  replied node₁ C₁ hn₁ count reply := by
    cases reply with
    | error e => exact ⟨_, rfl, hn₁.count _ _⟩
    | ok a => exact ⟨_, rfl, hn₁.count _ _⟩

/-! ## A sample -/

/-- The names of two keys. -/
def samplePairOfKeys : Set String := {"a", "b"}

theorem distinct_samplePairOfKeys : Distinct samplePairOfKeys := by
  rw [Distinct, samplePairOfKeys, Set.injOn_pair]
  exact fun h => absurd h (by decide +kernel)

/-- The first copy of one of them. -/
def sampleHeld (space : Space) : Contents :=
  Contents.put ⟨fun _ => none, fun _ => []⟩ (.primary (space.key "a")) [1] 0

theorem exists_sampleHeld (space : Space) :
    ∃ node : Node, node.Holds samplePairOfKeys space 3 (sampleHeld space) := by
  have hroom : (Call.appendNow "a" [1] 0).Admissible samplePairOfKeys fun _ => [] :=
    ⟨.inl rfl, by decide, by simp⟩
  obtain ⟨s, -, hs⟩ := Store.exists_opened samplePairOfKeys ⟨["n"], .never, 16, 1024⟩ .zero
  obtain ⟨t, s', -, hs'⟩ := hs.putReplica distinct_samplePairOfKeys
    (r := .primary (space.key "a")) hroom
  exact ⟨⟨space, 3, 1000, s'⟩, rfl, rfl, hs'⟩

/-- A node that owns all keys, with a successor. -/
def ownerView : View := ⟨.ofNat 1, some (.ofNat 2), none, fun _ => .ofNat 1⟩

/-- The third copy of a key comes round with another value, and the second copy of a new key comes
    with it. -/
def sampleArrivals (space : Space) : Batch :=
  [(⟨space.key "a", 3⟩, [2]), (⟨space.key "b", 2⟩, [3])]

/-- There is room for both. -/
theorem hasRoom_sampleArrivals :
    let space : Space := ⟨16, by decide, by decide⟩
    ∀ x ∈ sampleArrivals space, (sampleHeld space).HasRoom samplePairOfKeys ownerView 0 x := by
  refine List.forall_mem_cons.2 ⟨⟨.inl rfl, fun _ => ⟨.inl rfl, by decide, ?_⟩⟩,
    List.forall_mem_singleton.2 ⟨.inr rfl, fun _ => ⟨.inr rfl, by decide, ?_⟩⟩⟩
  · rintro l ⟨⟩
    decide
  · rintro l ⟨⟩

theorem takes_in_sampleArrivals :
    let space : Space := ⟨16, by decide, by decide⟩
    let batch := sampleArrivals space
    let C := sampleHeld space
    ∃ node : Node, node.Holds samplePairOfKeys space 3 C ∧ Distinct samplePairOfKeys ∧
      (batch.map (·.1.name)).Nodup ∧ (∀ x ∈ batch, C.HasRoom samplePairOfKeys ownerView 0 x) ∧
      C.ComesRound ownerView ⟨space.key "a", 3⟩ ∧ (C.history "a").latest = some [1] ∧
      node.HandlesBatch samplePairOfKeys space 3 C ownerView 0 batch := by
  intro space batch C
  obtain ⟨node, hn⟩ := exists_sampleHeld space
  have hnodup : (batch.map (·.1.name)).Nodup := by decide
  exact ⟨node, hn, distinct_samplePairOfKeys, hnodup, hasRoom_sampleArrivals, by decide, by decide,
    takes_in_batch hn distinct_samplePairOfKeys ownerView 0 hnodup⟩

end Node

end ReplicaRing

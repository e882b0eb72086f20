import ReplicaRing.Proofs.Placement

/-!
# How a join hands keys over

A new member finds its place somewhere in the chain of a key whose copies are in their places
(`Row.Placed`).

* Behind the owner it gets its copy from the node before it, and the copies behind it move down
  by one rank (`Row.copy_at_of_join`).
* As the owner it gets the first copy from the owner before it, which keeps the second one
  (`Row.move_join_owner`).

The copies need not be in their places then, as some are left behind the last rank. But the
owner alone holds the first copy, and every node that should hold a copy does
(`Row.covers_join`). `Cluster.join_hands_over` says it of a cluster.
-/

namespace ReplicaRing

namespace Row

/-- The node at `q` holds the first copy. -/
def First (row : Row) (q : Point) : Prop := (row q).map (·.rank) = some 1

/-- Of the members of the ring the owner alone holds the first copy, and the first nodes of the
    chain all hold a copy with the value `v`. -/
structure Covers (n : Nat) (v : Bytes) (m : Members) (k : Point) (row : Row) : Prop where
  first : ∀ q ∈ m, row.First q ↔ (m.chain k).head? = some q
  held : ∀ i < n, ∀ q, (m.chain k)[i]? = some q → ∃ r, row q = some ⟨r, v⟩

variable {E : Setting} {m : Members} {key : String} {k p o q s w x : Point} {v : Bytes}
  {pre seg : List Point} {row : Row} {n i : Nat}

theorem Placed.first_iff (hrow : Placed n v m k row) (hn : 1 ≤ n) (hq : q ∈ m) :
    row.First q ↔ (m.chain k).head? = some q := by
  obtain ⟨i, hi⟩ := List.mem_iff_getElem?.1 (Members.mem_chain (k := k).2 hq)
  rw [First, hrow.copy_at hi, List.head?_eq_getElem?]
  constructor
  · intro h
    split_ifs at h with hle
    · have : i = 0 := Nat.succ.inj (Option.some.inj h)
      rwa [this] at hi
    · cases h
  · intro h
    rw [Members.eq_of_getElem?_chain hi h, if_pos (by omega)]
    rfl

/-- Behind the owner a join moves the copies down by one rank. What has no rank left stays. -/
theorem copy_at_of_join (hrow : Placed E.copies.toNat v m (E.point key) row)
    (hkept : row.Kept E m) (hp : p ∉ m) (hold : m.chain (E.point key) = pre ++ w :: seg)
    (hnew : (m.insert p).chain (E.point key) = pre ++ w :: p :: seg)
    (hi : ((m.insert p).chain (E.point key))[i]? = some q) :
    row.move E m key (.join p) q = if i + 1 ≤ E.copies.toNat then some ⟨i + 1, v⟩ else row q := by
  obtain ⟨o, ho⟩ := Members.exists_head_chain hold
  have ho' : ((m.insert p).chain (E.point key)).head? = some o :=
    (Members.head?_eq_of_chain hold hnew).trans ho
  have hheld := hrow.owner (one_le E) ho
  have hnone : row p = none := hkept.eq_none hp
  have hw : (row w).bind (Copy.next E.copies.toNat) =
      if pre.length + 2 ≤ E.copies.toNat then some ⟨pre.length + 2, v⟩ else none := by
    have hpre : (m.chain (E.point key))[pre.length]? = some w := by simp [hold]
    rw [hrow.copy_at hpre, next_placed]
  have hs := spread_join hp hnone hnew ho' hheld rfl fun c hc => (hkept w c hc).2.1
  rw [hw] at hs
  rw [hnew] at hi
  by_cases hlt : i < pre.length + 1
  · -- Nothing changes up to the node before the new one.
    have hi : (m.chain (E.point key))[i]? = some q := by
      rw [List.append_cons, List.getElem?_append_left (by simpa using hlt)] at hi
      rwa [hold, List.append_cons, List.getElem?_append_left (by simpa using hlt)]
    have hstay : row.move E m key (.join p) q = row q := by
      by_cases hqo : q = o
      · rw [hqo, hs.owner, hheld, refresh_spill_placed]
      · refine hs.other q hqo fun hmem => ?_
        have hn := (m.insert p).nodup_chain (E.point key)
        rw [hnew, List.append_cons] at hn
        refine (List.nodup_append.1 hn).2.2 q ?_ q hmem rfl
        rw [hold, List.append_cons, List.getElem?_append_left (by simpa using hlt)] at hi
        exact List.mem_of_getElem? hi
    rw [hstay, hrow.copy_at hi]
    split_ifs <;> rfl
  · obtain ⟨j, rfl⟩ : ∃ j, i = pre.length + 1 + j := ⟨i - (pre.length + 1), by omega⟩
    have hj : (p :: seg)[j]? = some q := by
      rw [List.append_cons, List.getElem?_append_right (by simp)] at hi
      simpa using hi
    -- From the new node on, the copy that comes in raises all ranks by one.
    have hadd : pre.length + 2 + j = pre.length + 1 + j + 1 := by omega
    rw [hs.copy_at rfl hj, hadd]

/-- A new owner takes over the first copy, and the owner before it keeps the second. -/
theorem move_join_owner (hrow : Placed E.copies.toNat v m (E.point key) row)
    (hkept : row.Kept E m) (hp : p ∉ m) (hold : m.chain (E.point key) = s :: seg)
    (hnew : (m.insert p).chain (E.point key) = p :: s :: seg) :
    row.move E m key (.join p) =
      Function.update (Function.update row p (some ⟨1, v⟩)) s (some ⟨2, v⟩) := by
  have ho : (m.chain (E.point key)).head? = some s := by rw [hold]; rfl
  have hheld := hrow.owner (one_le E) ho
  obtain ⟨w, hlast⟩ : ∃ w, (s :: seg).getLast? = some w := ⟨_, List.getLast?_cons⟩
  set row₁ := Function.update (Function.update row p (some ⟨1, v⟩)) s (some ⟨2, v⟩) with hrow₁
  have hs := spread_join_owner hp hnew hlast hheld rfl (fun c hc => (hkept w c hc).2.1) hrow₁
  have hps : p ≠ s := by
    rintro rfl
    exact hp (Members.mem_chain.1 (List.mem_of_head? ho))
  -- What the last node sends round has the value that the new owner holds.
  have hvalue : ∀ c, row₁ w = some c → c.value = v := by
    intro c hc
    -- The last node may be the old owner itself, which has just got the second copy.
    have hw : w ∈ m := Members.mem_chain.1 (hold ▸ List.mem_of_getLast? hlast)
    by_cases hws : w = s
    · rw [hws, hrow₁, Function.update_self, Option.some.injEq] at hc
      rw [← hc]
    · rw [hrow₁, Function.update_of_ne hws,
        Function.update_of_ne (ne_of_mem_of_not_mem hw hp)] at hc
      exact hrow.value_eq hw hc
  funext q
  by_cases hqp : q = p
  · have hp₁ : row₁ p = some ⟨1, v⟩ := by
      rw [hrow₁, Function.update_of_ne hps, Function.update_self]
    rw [hqp, hs.owner, hp₁]
    exact refresh_next hvalue 1
  · exact hs.other q hqp List.not_mem_nil

theorem covers_join_owner (hrow : Placed E.copies.toNat v m (E.point key) row)
    (hkept : row.Kept E m) (hp : p ∉ m) (hold : m.chain (E.point key) = s :: seg)
    (hnew : (m.insert p).chain (E.point key) = p :: s :: seg) :
    Covers E.copies.toNat v (m.insert p) (E.point key) (row.move E m key (.join p)) := by
  have hn := (m.insert p).nodup_chain (E.point key)
  rw [hnew, List.nodup_cons, List.mem_cons, not_or] at hn
  obtain ⟨⟨hps, hpseg⟩, hn⟩ := hn
  rw [move_join_owner hrow hkept hp hold hnew]
  refine ⟨fun q hq => ?_, fun i hi q hq => ?_⟩
  · rw [hnew, List.head?_cons, Option.some.injEq, First]
    by_cases hqs : q = s
    · rw [hqs, Function.update_self]
      exact iff_of_false (by simp) hps
    rw [Function.update_of_ne hqs]
    by_cases hqp : q = p
    · rw [hqp, Function.update_self]
      exact iff_of_true rfl rfl
    · rw [Function.update_of_ne hqp]
      have hfirst := hrow.first_iff (one_le E) ((Members.mem_insert.1 hq).resolve_left hqp)
      rw [hold, List.head?_cons, Option.some.injEq] at hfirst
      exact iff_of_false (fun h => hqs (hfirst.1 h).symm) (Ne.symm hqp)
  · rw [hnew] at hq
    rcases i with _ | _ | i
    · obtain rfl : p = q := Option.some.inj hq
      exact ⟨1, by rw [Function.update_of_ne hps, Function.update_self]⟩
    · obtain rfl : s = q := Option.some.inj hq
      exact ⟨2, by rw [Function.update_self]⟩
    · -- Behind the old owner the ranks are those of the new chain already.
      have hq : seg[i]? = some q := hq
      have hmem := List.mem_of_getElem? hq
      have hcopy := hrow.copy_at (i := i + 1) (by rw [hold]; exact hq)
      refine ⟨i + 2, ?_⟩
      rw [Function.update_of_ne (ne_of_mem_of_not_mem hmem (List.nodup_cons.1 hn).1),
        Function.update_of_ne (ne_of_mem_of_not_mem hmem hpseg), hcopy, if_pos (by omega)]

theorem covers_join_of_chain (hrow : Placed E.copies.toNat v m (E.point key) row)
    (hkept : row.Kept E m) (hp : p ∉ m) (hold : m.chain (E.point key) = pre ++ w :: seg)
    (hnew : (m.insert p).chain (E.point key) = pre ++ w :: p :: seg) :
    Covers E.copies.toNat v (m.insert p) (E.point key) (row.move E m key (.join p)) := by
  have htwo := two_le E
  have hhead := Members.head?_eq_of_chain hold hnew
  refine ⟨fun q hq => ?_, fun i hi q hq => ⟨i + 1, ?_⟩⟩
  · obtain ⟨i, hi⟩ := List.mem_iff_getElem?.1 (Members.mem_chain (k := E.point key).2 hq)
    have hcopy := copy_at_of_join hrow hkept hp hold hnew hi
    rw [First, hcopy, List.head?_eq_getElem?]
    split_ifs with hle
    · rw [Option.map_some, Option.some.injEq, Nat.succ_inj]
      exact ⟨fun h => h ▸ hi, fun h => Members.eq_of_getElem?_chain hi h⟩
    · -- A copy that was left behind was not the first one.
      refine iff_of_false (fun h => ?_) fun h => ?_
      · have hqm : q ∈ m := by
          cases hc : row q with
          | none => simp [hc] at h
          | some c => exact (hkept q c hc).1
        have h := (hrow.first_iff (one_le E) hqm).1 h
        rw [← hhead, List.head?_eq_getElem?] at h
        have := Members.eq_of_getElem?_chain hi h
        omega
      · have := Members.eq_of_getElem?_chain hi h
        omega
  · rw [copy_at_of_join hrow hkept hp hold hnew hq, if_pos (by omega)]

/-- After a join the owner alone holds the first copy, and the nodes behind it hold copies with
    the same value. -/
theorem covers_join (hrow : Placed E.copies.toNat v m (E.point key) row)
    (hkept : row.Kept E m) (hp : p ∉ m) (hsize : 1 ≤ m.size) :
    Covers E.copies.toNat v (m.insert p) (E.point key) (row.move E m key (.join p)) := by
  rcases Members.chain_insert_cases hp hsize (E.point key) with
    ⟨s, seg, hold, hnew⟩ | ⟨pre, w, seg, hold, hnew⟩
  · exact covers_join_owner hrow hkept hp hold hnew
  · exact covers_join_of_chain hrow hkept hp hold hnew

end Row

namespace Cluster

variable {E : Setting} {b : Nat} {c : Cluster} {rows : String → Row} {p : Point}

/-- A new member joins at once. Afterwards the node that now owns a key holds the first copy and
    its last value, nobody else does hold a first copy, and the nodes behind it that should hold
    a copy hold one with that value. -/
theorem join_hands_over (hs : c.Shows E b rows) (hp : p ∉ c.members) (hsize : 1 ≤ c.members.size)
    (hbudget : b + cost E ≤ E.budget) :
    (∃ a, (c.make (.join p)).1 = some a ∧ a.Succeeds) ∧
    let c' := (c.make (.join p)).2
    c'.members = c.members.insert p ∧
    ∀ key ∈ E.keys, ∀ v, c.Sits E key v →
      ∃ o, c'.members.owner (E.point key) = some o ∧
        c'.rankAt key o = some 1 ∧ c'.valueAt key o = some v ∧
        (∀ q, q ≠ o → c'.rankAt key q ≠ some 1) ∧
        ∀ i < min E.copies.toNat (c.members.size + 1), ∃ q,
          c'.members.step (E.point key) i = some q ∧
          (c'.rankAt key q).isSome ∧ c'.valueAt key q = some v := by
  obtain ⟨c', hperform, hm, hs'⟩ :=
    hs.perform (show (Move.join p).Admissible E c.members from hp) hbudget
  have hm : c'.members = c.members.insert p := hm
  rw [make_of_prompt hperform]
  refine ⟨⟨_, rfl, Move.succeeds_expected E _ _ _⟩, hm, fun key hkey v hsits => ?_⟩
  have hcovers := Row.covers_join (hs.placed_of_sits hkey hsits) (hs.kept key) hp hsize
  have hsize' := Members.size_insert hp
  -- What the rows tell of a node of the chain is seen from outside.
  have hseen : ∀ i < min E.copies.toNat (c.members.size + 1), ∃ q,
      ((c.members.insert p).chain (E.point key))[i]? = some q ∧
      (c'.rankAt key q).isSome ∧ c'.valueAt key q = some v := by
    intro i hi
    have hlt : i < ((c.members.insert p).chain (E.point key)).length := by
      rw [Members.length_chain, hsize']
      exact (Nat.lt_min.1 hi).2
    have hq := List.getElem?_eq_getElem hlt
    obtain ⟨r, hr⟩ := hcovers.held i (Nat.lt_min.1 hi).1 _ hq
    refine ⟨_, hq, ?_, ?_⟩
    · rw [hs'.rankAt_eq, hr]
      rfl
    · rw [hs'.valueAt_eq hkey, hr]
      rfl
  obtain ⟨o, ho, -, hvalue⟩ := hseen 0 (by have := Row.two_le E; omega)
  rw [← List.head?_eq_getElem?] at ho
  have hfirst : ∀ q, c'.rankAt key q = some 1 ↔ o = q := by
    intro q
    rw [hs'.rankAt_eq]
    by_cases hq : q ∈ c.members.insert p
    · have h := hcovers.first q hq
      rwa [ho, Option.some.injEq] at h
    · rw [hs'.peers.rows_other q (hm.symm ▸ hq)]
      refine iff_of_false (by simp) ?_
      rintro rfl
      exact hq (Members.mem_chain.1 (List.mem_of_head? ho))
  rw [hm]
  refine ⟨o, by rw [Members.owner_eq_head, ho], (hfirst o).2 rfl, hvalue,
    fun q hq h => hq ((hfirst q).1 h).symm, fun i hi => ?_⟩
  obtain ⟨q, hq, hrest⟩ := hseen i hi
  exact ⟨q, by rw [Members.step_eq (by omega), hq], hrest⟩

/-- A key is put on a ring of two nodes. -/
def samplePut : List Move := [.join sampleA, .join sampleC, .put sampleA "c" sampleOld]

theorem join_hands_over_sampleB :
    let c := (Cluster.empty sampleOptions .calm 0).after samplePut
    let c' := (c.make (.join sampleB)).2
    sampleB ∉ c.members ∧ 1 ≤ c.members.size ∧ c.Sits sampleSetting "c" sampleOld ∧
    ∃ o, c'.members.owner (sampleSetting.point "c") = some o ∧
      c'.rankAt "c" o = some 1 ∧ c'.valueAt "c" o = some sampleOld ∧
      (∀ q, q ≠ o → c'.rankAt "c" q ≠ some 1) ∧
      ∀ i < min sampleSetting.copies.toNat (c.members.size + 1), ∃ q,
        c'.members.step (sampleSetting.point "c") i = some q ∧
        (c'.rankAt "c" q).isSome ∧ c'.valueAt "c" q = some sampleOld := by
  intro c c'
  have hadm : AllAdmissible sampleSetting .empty samplePut := by decide
  obtain ⟨hm, hs⟩ := shows_after_sample hadm (by decide)
  have hp : sampleB ∉ c.members := by
    rw [hm]
    decide
  have hsize : 1 ≤ c.members.size := by
    rw [hm]
    decide
  have hsits : c.Sits sampleSetting "c" sampleOld := by
    refine hs.sits_of_placed rfl ?_
    rw [hm, Row.Placed]
    decide +kernel
  exact ⟨hp, hsize, hsits, (join_hands_over hs hp hsize (by decide)).2.2 "c" rfl _ hsits⟩

end Cluster

end ReplicaRing

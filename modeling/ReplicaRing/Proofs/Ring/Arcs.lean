import ReplicaRing.Proofs.Ring.Chain

/-!
# The arcs of a ring

Every member owns an arc: it begins after the member's predecessor and ends with the member, and a
lone member owns the whole circle. That the arcs of all members cover the circle without overlap is
seen from a key: the members of its chain come in the order of their distances from it
(`Members.chain_pairwise_distance`), so that its owner, the head of the chain, is the nearest one.

Main statement: each key lies on the arc of one member only, which owns it and is the nearest of
all members clockwise from the key (`Members.arcs_partition`).
-/

namespace ReplicaRing

namespace Point

variable {k p q : Point}

/-- How far it is clockwise from `k` to `p`. -/
def distance (k p : Point) : Nat := ((p.val - k.val : Int) % count).toNat

theorem distance_of_le (h : k ≤ p) : k.distance p = p.val - k.val := by
  have hle : k.val ≤ p.val := h
  have hlt := p.isLt
  rw [distance, Int.emod_eq_of_lt (by omega) (by omega)]
  omega

/-- The way round past the last point. -/
theorem distance_of_lt (h : p < k) : k.distance p = p.val + count - k.val := by
  have hlt : p.val < k.val := h
  have hk := k.isLt
  rw [distance, ← Int.add_emod_right, Int.emod_eq_of_lt (by omega) (by omega)]
  omega

/-- On from `k` up to the last point, what comes later is farther away. -/
theorem distance_lt_of_lt (hkp : k ≤ p) (hpq : p < q) : k.distance p < k.distance q := by
  have hkp' : k.val ≤ p.val := hkp
  have hpq' : p.val < q.val := hpq
  rw [distance_of_le hkp, distance_of_le (Nat.le_trans hkp' (Nat.le_of_lt hpq'))]
  omega

/-- What comes past the last point is farther away than all before it. -/
theorem distance_lt_of_le_of_lt (hkp : k ≤ p) (hqk : q < k) : k.distance p < k.distance q := by
  have hkp' : k.val ≤ p.val := hkp
  have hp := p.isLt
  have hk := k.isLt
  rw [distance_of_le hkp, distance_of_lt hqk]
  omega

theorem distance_lt_of_lt_of_lt (hpq : p < q) (hqk : q < k) : k.distance p < k.distance q := by
  have hpq' : p.val < q.val := hpq
  have hqk' : q.val < k.val := hqk
  have hk := k.isLt
  rw [distance_of_lt (Nat.lt_trans hpq' hqk'), distance_of_lt hqk]
  omega

/-- An arc that begins where it ends and is closed there is the whole circle. -/
theorem inArc_self (k p : Point) : k.inArc p p false true = true := by
  have hcmp : compare p p = .eq := Nat.compare_eq_eq.2 rfl
  rw [inArc, hcmp]
  split_ifs <;> simp

end Point

namespace Members

variable {m : Members} {k p q : Point}

/-- The members of a chain come in the order of their distances from the key. -/
theorem chain_pairwise_distance (m : Members) (k : Point) :
    (m.chain k).Pairwise fun p q => k.distance p < k.distance q := by
  rw [chain, List.pairwise_append]
  refine ⟨?_, ?_, fun p hp q hq => ?_⟩
  · refine (m.sorted.filter _).imp_of_mem fun {p q} hp _ hpq => ?_
    exact Point.distance_lt_of_lt (by simpa using (List.mem_filter.1 hp).2) hpq
  · refine (m.sorted.filter _).imp_of_mem fun {p q} _ hq hpq => ?_
    exact Point.distance_lt_of_lt_of_lt hpq (by simpa using (List.mem_filter.1 hq).2)
  · exact Point.distance_lt_of_le_of_lt (by simpa using (List.mem_filter.1 hp).2)
      (by simpa using (List.mem_filter.1 hq).2)

/-- The owner of a key is nearer to it than all other members. -/
theorem distance_owner_lt (ho : m.owner k = some p) (hq : q ∈ m) (hne : q ≠ p) :
    k.distance p < k.distance q := by
  rw [owner_eq_head, List.head?_eq_some_iff] at ho
  obtain ⟨bs, hbs⟩ := ho
  have hsorted := m.chain_pairwise_distance k
  have hmem : q ∈ p :: bs := hbs ▸ mem_chain.2 hq
  rw [hbs, List.pairwise_cons] at hsorted
  exact hsorted.1 q ((List.mem_cons.1 hmem).resolve_left hne)

/-- A member owns what lies on its arc; a lone member owns all there is. -/
theorem inArc_iff_owner (hp : p ∈ m) :
    k.inArc ((m.predecessor p).getD p) p false true = true ↔ m.owner k = some p := by
  cases hl : m.predecessor p with
  | some l => exact inArc_predecessor hp hl
  | none =>
    obtain ⟨as, bs, h⟩ := List.append_of_mem (mem_chain.2 hp : p ∈ m.chain k)
    rw [predecessor_eq h, List.getLast?_eq_none_iff, List.append_eq_nil_iff] at hl
    obtain ⟨rfl, rfl⟩ := hl
    exact iff_of_true (Point.inArc_self k p) (by rw [owner_eq_head, h]; rfl)

/-- A member sees itself as the owner of what it owns. -/
theorem owns_iff_owner (hp : p ∈ m) : (m.view p).owns k = true ↔ m.owner k = some p := by
  obtain ⟨as, bs, h⟩ := List.append_of_mem (mem_chain.2 hp : p ∈ m.chain k)
  obtain ⟨o, ho⟩ := exists_head_chain h
  rw [owns_eq ho, owner_eq_head, ho, decide_eq_true_iff, Option.some.injEq]

/-- **The arcs of the members cover the circle without overlap.** A key lies on the arc of one
    member, which owns it, is the only one to see itself as its owner, and is the nearest one
    clockwise. -/
theorem arcs_partition (hm : 1 ≤ m.size) (k : Point) :
    ∃ p ∈ m, m.owner k = some p ∧
      (∀ q ∈ m, k.inArc ((m.predecessor q).getD q) q false true = true ↔ q = p) ∧
      (∀ q ∈ m, (m.view q).owns k = true ↔ q = p) ∧
      ∀ q ∈ m, q ≠ p → k.distance p < k.distance q := by
  obtain ⟨p, bs, hbs⟩ := exists_chain_eq_cons hm k
  have ho : m.owner k = some p := by rw [owner_eq_head, hbs, List.head?_cons]
  have hp : p ∈ m := mem_chain.1 (hbs ▸ List.mem_cons_self : p ∈ m.chain k)
  have honly : ∀ q, m.owner k = some q ↔ q = p := fun q => by
    rw [ho, Option.some.injEq, eq_comm]
  exact ⟨p, hp, ho, fun q hq => (inArc_iff_owner hq).trans (honly q),
    fun q hq => (owns_iff_owner hq).trans (honly q), fun q hq => distance_owner_lt ho hq⟩

/-- Three members, none of them at the first or the last point. -/
def sampleThree : Members := ⟨[.ofNat 1, .ofNat 4, .ofNat 6], by decide⟩

/-- A key behind the last of three members. -/
theorem arcs_partition_sampleThree :
    1 ≤ sampleThree.size ∧
      ∃ p ∈ sampleThree, sampleThree.owner (.ofNat 7) = some p ∧
        (∀ q ∈ sampleThree, (Point.ofNat 7).inArc ((sampleThree.predecessor q).getD q) q
          false true = true ↔ q = p) ∧
        (∀ q ∈ sampleThree, (sampleThree.view q).owns (.ofNat 7) = true ↔ q = p) ∧
        ∀ q ∈ sampleThree, q ≠ p → (Point.ofNat 7).distance p < (Point.ofNat 7).distance q := by
  have hm : 1 ≤ sampleThree.size := by decide
  exact ⟨hm, arcs_partition hm _⟩

end Members

end ReplicaRing

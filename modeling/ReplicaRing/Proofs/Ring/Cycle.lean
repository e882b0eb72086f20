import ReplicaRing.Proofs.Ring.Arcs
import ReplicaRing.Proofs.Ring.Neighbours

/-!
# Once round the ring

A walk from successor to successor goes along the chain of any key, past its end on to its
beginning (`Members.walk_eq`): it is one cycle through all members. Begun at the owner of a key it
meets them in the order of their distances from the key, so that the nodes which copies are passed
on to are different ones until all have a copy.

Main statement: `Members.walk_is_cycle`.
-/

namespace ReplicaRing.Members

variable {m : Members} {k p q : Point} {i j : Nat}

/-- The member that a walk from successor to successor meets `i` steps after `p`. -/
def walk (m : Members) (p : Point) : Nat → Option Point
  | 0 => some p
  | i + 1 => (m.walk p i).bind m.successor

/-- The first `n` members that the walk meets. -/
def firstMet (m : Members) (p : Point) (n : Nat) : List Point := (List.range n).filterMap (m.walk p)

/-- What a node passes on goes to its successor. -/
theorem nextHop_view (m : Members) (p : Point) : (m.view p).nextHop = m.successor p := by
  rw [View.nextHop, view, successor, Option.filter_filter]
  simp

/-- One step goes one place on along the chain, and from its end to its beginning. -/
theorem successor_of_place (hm : 2 ≤ m.size) (hp : (m.chain k)[j]? = some p) :
    m.successor p = (m.chain k)[(j + 1) % m.size]? := by
  rw [← nextHop_view, nextHop_of_getElem? hp, if_neg (by omega)]

theorem place_lt (hp : (m.chain k)[j]? = some p) : j < m.size := by
  rw [← length_chain m k]
  exact (List.getElem?_eq_some_iff.1 hp).1

theorem exists_at_place (hm : 2 ≤ m.size) (k : Point) (i : Nat) :
    ∃ p ∈ m, (m.chain k)[i % m.size]? = some p := by
  have hlt : i % m.size < (m.chain k).length := by
    rw [length_chain]
    exact Nat.mod_lt _ (by omega)
  exact ⟨_, mem_chain.1 (List.getElem_mem hlt), List.getElem?_eq_getElem hlt⟩

/-- The walk goes along the chain, as often as there are steps left. -/
theorem walk_eq (hm : 2 ≤ m.size) (hp : (m.chain k)[j]? = some p) (i : Nat) :
    m.walk p i = (m.chain k)[(j + i) % m.size]? := by
  induction i with
  | zero => rw [walk, Nat.add_zero, Nat.mod_eq_of_lt (place_lt hp), hp]
  | succ i ih =>
    obtain ⟨q, -, hq⟩ := exists_at_place hm k (j + i)
    rw [walk, ih, hq, Option.bind_some, successor_of_place hm hq, Nat.mod_add_mod, Nat.add_assoc]

/-- From a member the walk goes along the chain that begins with it. -/
theorem walk_of_mem (hm : 2 ≤ m.size) (hp : p ∈ m) (i : Nat) :
    m.walk p i = (m.chain p)[i % m.size]? := by
  rw [walk_eq hm (k := p) (j := 0) (by rw [chain_self hp]; rfl), Nat.zero_add]

/-- The walk is where it began just after whole rounds. -/
theorem walk_eq_self_iff (hm : 2 ≤ m.size) (hp : p ∈ m) : m.walk p i = some p ↔ m.size ∣ i := by
  have hfirst : (m.chain p)[0]? = some p := by rw [chain_self hp]; rfl
  rw [walk_of_mem hm hp, Nat.dvd_iff_mod_eq_zero]
  exact ⟨fun h => eq_of_getElem?_chain h hfirst, fun h => by rw [h, hfirst]⟩

/-- In one round the walk comes to each member once. -/
theorem existsUnique_walk (hm : 2 ≤ m.size) (hp : p ∈ m) (hq : q ∈ m) :
    ∃! i, i < m.size ∧ m.walk p i = some q := by
  obtain ⟨i, hi⟩ := List.getElem?_of_mem (mem_chain.2 hq : q ∈ m.chain p)
  have hround : ∀ i, i < m.size → m.walk p i = (m.chain p)[i]? := fun i hi => by
    rw [walk_of_mem hm hp, Nat.mod_eq_of_lt hi]
  refine ⟨i, ⟨place_lt hi, by rw [hround i (place_lt hi), hi]⟩, ?_⟩
  rintro j ⟨hj, hqj⟩
  rw [hround j hj] at hqj
  exact eq_of_getElem?_chain hqj hi

/-! ## From the owner of a key -/

/-- From the owner of a key the walk goes along the chain of the key. -/
theorem walk_of_owner (hm : 2 ≤ m.size) (ho : m.owner k = some p) (i : Nat) :
    m.walk p i = (m.chain k)[i % m.size]? := by
  rw [owner_eq_head, List.head?_eq_getElem?] at ho
  rw [walk_eq hm ho, Nat.zero_add]

/-- In the first round it comes nearer and nearer to the key again, from behind. -/
theorem distance_walk_lt {p' q' : Point} (hm : 2 ≤ m.size) (ho : m.owner k = some p) (hij : i < j)
    (hj : j < m.size) (hp : m.walk p i = some p') (hq : m.walk p j = some q') :
    k.distance p' < k.distance q' := by
  rw [walk_of_owner hm ho, Nat.mod_eq_of_lt (by omega)] at hp
  rw [walk_of_owner hm ho, Nat.mod_eq_of_lt hj] at hq
  obtain ⟨hi, rfl⟩ := List.getElem?_eq_some_iff.1 hp
  obtain ⟨hj, rfl⟩ := List.getElem?_eq_some_iff.1 hq
  exact List.pairwise_iff_getElem.1 (m.chain_pairwise_distance k) i j hi hj hij

/-- What it meets in the first round is the beginning of the chain. -/
theorem firstMet_of_owner {n : Nat} (hm : 2 ≤ m.size) (ho : m.owner k = some p)
    (hn : n ≤ m.size) : m.firstMet p n = (m.chain k).take n := by
  induction n with
  | zero => rfl
  | succ n ih =>
    have hlast : m.walk p n = (m.chain k)[n]? := by
      rw [walk_of_owner hm ho, Nat.mod_eq_of_lt (by omega)]
    rw [firstMet] at ih ⊢
    rw [List.range_succ, List.filterMap_append, ih (by omega), List.take_add_one,
      List.filterMap_cons, hlast]
    cases (m.chain k)[n]? <;> rfl

/-- **The walk from successor to successor is one cycle.** From any member it comes to each once in
    a round, and back to that member after whole rounds only; and every step is taken back by a step
    to the predecessor. From the owner of a key it meets the members in the order of their distances
    from the key; so the copies that are passed on along it, up to one for each member, come to
    different ones. -/
theorem walk_is_cycle (hm : 2 ≤ m.size) :
    (∀ p ∈ m, (∀ i, ∃ q ∈ m, m.walk p i = some q) ∧
      (∀ q ∈ m, ∃! i, i < m.size ∧ m.walk p i = some q) ∧
      ∀ i, m.walk p i = some p ↔ m.size ∣ i) ∧
    (∀ p ∈ m, (m.successor p).bind m.predecessor = some p ∧
      (m.predecessor p).bind m.successor = some p ∧ (m.view p).nextHop = m.successor p) ∧
    ∀ k, ∃ o ∈ m, m.owner k = some o ∧
      (∀ i j p q, i < j → j < m.size → m.walk o i = some p → m.walk o j = some q →
        k.distance p < k.distance q) ∧
      ∀ n, (m.firstMet o (min n m.size)).length = min n m.size ∧
        (m.firstMet o (min n m.size)).Nodup := by
  refine ⟨fun p hp => ⟨fun i => ?_, fun q => existsUnique_walk hm hp,
    fun i => walk_eq_self_iff hm hp⟩, fun p hp => ?_, fun k => ?_⟩
  · obtain ⟨q, hq, hi⟩ := exists_at_place hm p i
    exact ⟨q, hq, by rw [walk_of_mem hm hp, hi]⟩
  · obtain ⟨s, q, hs, hq⟩ := exists_neighbours hp hm
    rw [hs, hq, Option.bind_some, Option.bind_some]
    exact ⟨predecessor_of_successor hp hs, successor_of_predecessor hp hq,
      (nextHop_view m p).trans hs⟩
  · obtain ⟨o, bs, hbs⟩ := exists_chain_eq_cons (by omega : 1 ≤ m.size) k
    have ho : m.owner k = some o := by rw [owner_eq_head, hbs, List.head?_cons]
    refine ⟨o, mem_chain.1 (hbs ▸ List.mem_cons_self : o ∈ m.chain k), ho,
      fun i j p q => distance_walk_lt hm ho, fun n => ?_⟩
    rw [firstMet_of_owner hm ho (Nat.min_le_right _ _), List.length_take, length_chain]
    exact ⟨by omega, (m.nodup_chain k).sublist (List.take_sublist _ _)⟩

/-- Three members, the first of them at the first point and the last at the last one. -/
def sampleAround : Members := ⟨[.ofNat 0, .ofNat 5, .ofNat (Point.count - 1)], by decide⟩

/-- A walk past the last point. -/
theorem walk_is_cycle_sampleAround :
    2 ≤ sampleAround.size ∧ Point.ofNat 5 ∈ sampleAround ∧
      ∀ i, sampleAround.walk (.ofNat 5) i = some (.ofNat 5) ↔ 3 ∣ i := by
  have hm : 2 ≤ sampleAround.size := by decide
  have hp : Point.ofNat 5 ∈ sampleAround := by decide
  exact ⟨hm, hp, ((walk_is_cycle hm).1 _ hp).2.2⟩

end ReplicaRing.Members

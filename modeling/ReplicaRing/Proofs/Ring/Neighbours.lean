import ReplicaRing.Proofs.Ring.Ownership

/-!
# Who gets new neighbours

A join or a failure changes few neighbours. Seen from the point `p` that is put in or taken out, the
chain of the others is the same with and without `p`; so only its first member has another
predecessor, and only its last another successor (`Members.parted_erase`). A join is the same
change the other way round.

Main statement: the notifications of a join or a failure are one for each of these two members,
which may be the same one, and tell it its neighbour before and after
(`Subscriptions.notifications_match_changes`).
-/

namespace ReplicaRing

namespace Members

variable {m m' : Members} {p q r s : Point} {as bs : List Point}

theorem successor_eq_none_iff (hp : p ∈ m) : m.successor p = none ↔ m.size = 1 := by
  obtain ⟨as, bs, h⟩ := List.append_of_mem (mem_chain.2 hp : p ∈ m.chain p)
  rw [successor_eq h, ← length_chain m p, h, List.head?_eq_none_iff, ← List.length_eq_zero_iff]
  simp only [List.length_append, List.length_cons]
  omega

theorem predecessor_eq_none_iff (hp : p ∈ m) : m.predecessor p = none ↔ m.size = 1 := by
  obtain ⟨as, bs, h⟩ := List.append_of_mem (mem_chain.2 hp : p ∈ m.chain p)
  rw [predecessor_eq h, ← length_chain m p, h, List.getLast?_eq_none_iff, ← List.length_eq_zero_iff]
  simp only [List.length_append, List.length_cons]
  omega

/-- A member comes first of all that are met from its own point on. -/
theorem chain_self (hp : p ∈ m) : m.chain p = p :: (m.erase p).chain p := by
  obtain ⟨as, bs, h⟩ := List.append_of_mem (mem_def.1 hp)
  have hlt : ∀ q ∈ as, q < p := fun q hq => by
    have hs := m.sorted
    rw [h] at hs
    exact (List.pairwise_append.1 hs).2.2 q hq p List.mem_cons_self
  have ho : m.owner p = some p := (owner_eq_of_toList h).2 (.inl ⟨Nat.le_refl _, hlt⟩)
  rw [owner_eq_head, List.head?_eq_some_iff] at ho
  obtain ⟨cs, hcs⟩ := ho
  rw [hcs, chain_erase_of_head hcs]

theorem erase_insert (hp : p ∉ m) : (m.insert p).erase p = m := by
  obtain ⟨l₁, l₂, hl, hpl⟩ := exists_place hp
  have hkeep : ∀ q ∈ m.toList, decide (q ≠ p) = true := fun q hq =>
    decide_eq_true (ne_of_mem_of_not_mem hq hp)
  rw [hl] at hkeep
  have hnot : (insert m p).toList = l₁ ++ p :: l₂ := hpl
  cases m with
  | mk l hs =>
    obtain rfl : l = l₁ ++ l₂ := hl
    simp only [erase, hnot, mk.injEq]
    rw [List.filter_append, List.filter_cons_of_neg (by simp), ← List.filter_append,
      List.filter_eq_self.2 hkeep]

/-- Of the members that `m` and `m'` share just `s` has another predecessor, and just `q` another
    successor. -/
structure Parted (m m' : Members) (s q : Point) : Prop where
  left : s ∈ m ∧ s ∈ m'
  right : q ∈ m ∧ q ∈ m'
  predecessor : ∀ r ∈ m, r ∈ m' → (m'.predecessor r ≠ m.predecessor r ↔ r = s)
  successor : ∀ r ∈ m, r ∈ m' → (m'.successor r ≠ m.successor r ↔ r = q)

theorem Parted.symm (h : Parted m m' s q) : Parted m' m s q where
  left := h.left.symm
  right := h.right.symm
  predecessor r hr hr' := ne_comm.trans (h.predecessor r hr' hr)
  successor r hr hr' := ne_comm.trans (h.successor r hr' hr)

/-- What is before a place of a list is also before it if `p` comes first, unless it is the first
    place. -/
theorem getLast?_append_cons_ne_iff (hp : p ∉ as ++ bs) :
    (bs ++ p :: as).getLast? ≠ (bs ++ as).getLast? ↔ as = [] := by
  cases as with
  | nil =>
    rw [List.append_nil, List.getLast?_concat]
    exact iff_of_true (fun h => hp (List.mem_of_getLast? h.symm)) rfl
  | cons a as =>
    rw [List.getLast?_append_of_ne_nil _ (List.cons_ne_nil _ _), List.getLast?_cons_cons,
      List.getLast?_append_of_ne_nil _ (List.cons_ne_nil _ _)]
    simp

theorem head?_append_cons_ne_iff (hp : p ∉ as ++ bs) :
    (bs ++ p :: as).head? ≠ (bs ++ as).head? ↔ bs = [] := by
  cases bs with
  | nil =>
    rw [List.append_nil] at hp
    exact iff_of_true (fun h => hp (List.mem_of_head? h.symm)) rfl
  | cons b bs => simp

/-- Where another member stands in the chain from `p` on, with and without `p`. -/
theorem exists_chain_around (hp : p ∈ m) (hr : r ∈ m.erase p) :
    ∃ as bs, (m.erase p).chain p = as ++ r :: bs ∧ m.chain p = (p :: as) ++ r :: bs ∧
      p ∉ as ++ bs ∧ r ∉ as ++ bs := by
  obtain ⟨as, bs, h⟩ := List.append_of_mem (mem_chain.2 hr : r ∈ (m.erase p).chain p)
  have hchain : m.chain p = (p :: as) ++ r :: bs := by rw [chain_self hp, h, List.cons_append]
  have hn := m.nodup_chain p
  rw [hchain, List.cons_append, (List.perm_middle.cons p).nodup_iff, List.nodup_cons,
    List.nodup_cons] at hn
  exact ⟨as, bs, h, hchain, fun hpm => hn.1 (List.mem_cons_of_mem r hpm), hn.2.1⟩

/-- Without `p` just the member behind it, the first that is met from `p` on, has another
    predecessor. -/
theorem predecessor_erase_ne_iff (hp : p ∈ m) (hs : m.successor p = some s) (hr : r ∈ m.erase p) :
    (m.erase p).predecessor r ≠ m.predecessor r ↔ r = s := by
  obtain ⟨as, bs, h, hwith, hpn, hrn⟩ := exists_chain_around hp hr
  rw [successor_of_head (chain_self hp), h] at hs
  rw [predecessor_eq hwith, predecessor_eq h, ne_comm, getLast?_append_cons_ne_iff hpn]
  cases as with
  | nil => exact iff_of_true rfl (Option.some.inj hs)
  | cons a as =>
    refine iff_of_false (List.cons_ne_nil _ _) ?_
    rintro rfl
    cases hs
    exact hrn List.mem_cons_self

/-- Without `p` just the member before it, the last that is met from `p` on, has another
    successor. -/
theorem successor_erase_ne_iff (hp : p ∈ m) (hq : m.predecessor p = some q) (hr : r ∈ m.erase p) :
    (m.erase p).successor r ≠ m.successor r ↔ r = q := by
  obtain ⟨as, bs, h, hwith, hpn, hrn⟩ := exists_chain_around hp hr
  rw [predecessor_of_head (chain_self hp), h] at hq
  rw [successor_eq hwith, successor_eq h, ne_comm, head?_append_cons_ne_iff hpn]
  rcases List.eq_nil_or_concat' bs with rfl | ⟨bs, b, rfl⟩
  · rw [List.getLast?_concat] at hq
    exact iff_of_true rfl (Option.some.inj hq)
  · refine iff_of_false (by simp) ?_
    rintro rfl
    rw [← List.cons_append, ← List.append_assoc, List.getLast?_concat] at hq
    cases hq
    exact hrn (by simp)

theorem parted_erase (hp : p ∈ m) (hs : m.successor p = some s) (hq : m.predecessor p = some q) :
    Parted m (m.erase p) s q := by
  have hothers : ∀ r, r ∈ (m.erase p).chain p → r ∈ m ∧ r ∈ m.erase p := fun r hr =>
    ⟨(mem_erase.1 (mem_chain.1 hr)).1, mem_chain.1 hr⟩
  refine ⟨hothers s ?_, hothers q ?_, fun r _ hr => predecessor_erase_ne_iff hp hs hr,
    fun r _ hr => successor_erase_ne_iff hp hq hr⟩
  · rw [successor_of_head (chain_self hp)] at hs
    exact List.mem_of_head? hs
  · rw [predecessor_of_head (chain_self hp)] at hq
    exact List.mem_of_getLast? hq

/-- A member comes before its successor. -/
theorem predecessor_of_successor (hp : p ∈ m) (hs : m.successor p = some s) :
    m.predecessor s = some p := by
  rw [successor_of_head (chain_self hp), List.head?_eq_some_iff] at hs
  obtain ⟨bs, hbs⟩ := hs
  have hchain : m.chain p = [p] ++ s :: bs := by rw [chain_self hp, hbs, List.singleton_append]
  rw [predecessor_eq hchain, List.getLast?_concat]

/-- A member comes after its predecessor. -/
theorem successor_of_predecessor (hp : p ∈ m) (hq : m.predecessor p = some q) :
    m.successor q = some p := by
  rw [predecessor_of_head (chain_self hp), List.getLast?_eq_some_iff] at hq
  obtain ⟨as, has⟩ := hq
  have hchain : m.chain p = (p :: as) ++ q :: [] := by rw [chain_self hp, has, List.cons_append]
  rw [successor_eq hchain, List.nil_append, List.head?_cons]

/-- A member that is not alone has a neighbour on either side. -/
theorem exists_neighbours (hp : p ∈ m) (hm : 2 ≤ m.size) :
    ∃ s q, m.successor p = some s ∧ m.predecessor p = some q := by
  obtain ⟨s, hs⟩ := exists_successor hp hm
  have hq : m.predecessor p ≠ none := mt (predecessor_eq_none_iff hp).1 (by omega)
  obtain ⟨q, hq⟩ := Option.ne_none_iff_exists'.1 hq
  exact ⟨s, q, hs, hq⟩

end Members

namespace Subscriptions

/-- The join of `p` changes one predecessor and one successor among the members there were, and the
    two members are told, each of the neighbour it had, if any, and of `p`. The first member of a
    ring finds nobody to be told. -/
def AnnouncesJoin (ring : Subscriptions) (p : Point) : Prop :=
  let before := ring.members
  let after := (ring.join p).2.members
  (∀ r, r ∈ after ↔ r ∈ before ∨ r = p) ∧
    (before.size = 0 ∧ (ring.join p).1 = [] ∨
      ∃ s q, Members.Parted before after s q ∧
        (ring.join p).1 = [(s, .newPredecessor (before.predecessor s) p),
          (q, .newSuccessor (before.successor q) p)] ∧
        after.predecessor s = some p ∧ after.successor q = some p ∧
        (before.predecessor s = none ↔ before.size = 1) ∧
        (before.successor q = none ↔ before.size = 1))

/-- The failure of `p` changes one predecessor and one successor among the members that are left,
    and the two members are told, each of `p` and of the neighbour it has instead, if any. The last
    member of a ring leaves nobody to be told. -/
def AnnouncesFailure (ring : Subscriptions) (p : Point) : Prop :=
  let before := ring.members
  let after := (ring.fail p).2.members
  (∀ r, r ∈ after ↔ r ∈ before ∧ r ≠ p) ∧
    (after.size = 0 ∧ (ring.fail p).1 = [] ∨
      ∃ s q, Members.Parted before after s q ∧
        (ring.fail p).1 = [(s, .predecessorFailed p (after.predecessor s)),
          (q, .successorFailed p (after.successor q))] ∧
        before.predecessor s = some p ∧ before.successor q = some p ∧
        (after.predecessor s = none ↔ after.size = 1) ∧
        (after.successor q = none ↔ after.size = 1))

variable {ring : Subscriptions} {p : Point}

theorem announcesJoin_of_not_mem (hp : p ∉ ring.members) : ring.AnnouncesJoin p := by
  obtain ⟨hnotes, hafter⟩ := join_of_not_mem hp
  have hmem : p ∈ ring.members.insert p := Members.mem_insert.2 (.inl rfl)
  have hsize := Members.size_insert hp
  simp only [AnnouncesJoin, hnotes, hafter]
  refine ⟨fun r => Members.mem_insert.trans or_comm, ?_⟩
  rcases Nat.eq_zero_or_pos ring.members.size with hzero | hpos
  · have hs := (Members.successor_eq_none_iff hmem).2 (by omega)
    have hq := (Members.predecessor_eq_none_iff hmem).2 (by omega)
    exact .inl ⟨hzero, by rw [Members.joinNotifications, hs, hq]; rfl⟩
  · obtain ⟨s, q, hs, hq⟩ := Members.exists_neighbours hmem (by omega)
    have hparted := (Members.parted_erase hmem hs hq).symm
    rw [Members.erase_insert hp] at hparted
    exact .inr ⟨s, q, hparted, by rw [Members.joinNotifications, hs, hq]; rfl,
      Members.predecessor_of_successor hmem hs, Members.successor_of_predecessor hmem hq,
      Members.predecessor_eq_none_iff hparted.left.1, Members.successor_eq_none_iff hparted.right.1⟩

theorem announcesFailure_of_mem (hp : p ∈ ring.members) : ring.AnnouncesFailure p := by
  obtain ⟨hnotes, hafter⟩ := fail_of_mem hp
  have hsize := Members.size_erase hp
  simp only [AnnouncesFailure, hnotes, hafter]
  refine ⟨fun r => Members.mem_erase, ?_⟩
  rcases Nat.eq_zero_or_pos (ring.members.erase p).size with hzero | hpos
  · have hs := (Members.successor_eq_none_iff hp).2 (by omega)
    have hq := (Members.predecessor_eq_none_iff hp).2 (by omega)
    exact .inl ⟨hzero, by rw [Members.failNotifications, hs, hq]; rfl⟩
  · obtain ⟨s, q, hs, hq⟩ := Members.exists_neighbours hp (by omega)
    have hparted := Members.parted_erase hp hs hq
    exact .inr ⟨s, q, hparted, by rw [Members.failNotifications, hs, hq]; rfl,
      Members.predecessor_of_successor hp hs, Members.successor_of_predecessor hp hq,
      Members.predecessor_eq_none_iff hparted.left.2, Members.successor_eq_none_iff hparted.right.2⟩

/-- A member that joins again changes nothing, and nobody is told. -/
theorem join_of_mem (hp : p ∈ ring.members) : ring.join p = ([], ring) := by
  have hj : ring.members.join p = ([], ring.members) := if_pos hp
  rw [join, hj]
  rfl

/-- Nothing changes by the failure of a node that is no member, and nobody is told. -/
theorem fail_of_not_mem (hp : p ∉ ring.members) : ring.fail p = ([], ring) := by
  have hf : ring.members.fail p = ([], ring.members) := if_neg hp
  rw [fail, hf, if_neg hp]
  rfl

/-- **Notifications match the changes.** Whoever joins or fails, the members whose neighbours are
    others now are told so, and nobody else is; and what changes nothing is told to nobody. -/
theorem notifications_match_changes (ring : Subscriptions) (p : Point) :
    (p ∉ ring.members → ring.AnnouncesJoin p ∧ ring.fail p = ([], ring)) ∧
      (p ∈ ring.members → ring.AnnouncesFailure p ∧ ring.join p = ([], ring)) :=
  ⟨fun hp => ⟨announcesJoin_of_not_mem hp, fail_of_not_mem hp⟩,
    fun hp => ⟨announcesFailure_of_mem hp, join_of_mem hp⟩⟩

/-- Three members, the first at zero, and somebody listening for it. -/
def sampleTrio : Subscriptions :=
  ⟨⟨[.ofNat 0, .ofNat 0x5000, .ofNat 0x9000], by decide⟩, [⟨.ofNat 0, [], false⟩], [(.ofNat 0, 0)]⟩

/-- A node joins behind the last of three members, and the first of them fails. -/
theorem notifications_match_changes_sampleTrio :
    (.ofNat 0xF000 ∉ sampleTrio.members ∧ sampleTrio.AnnouncesJoin (.ofNat 0xF000) ∧
        sampleTrio.fail (.ofNat 0xF000) = ([], sampleTrio)) ∧
      .ofNat 0 ∈ sampleTrio.members ∧ sampleTrio.AnnouncesFailure (.ofNat 0) ∧
        sampleTrio.join (.ofNat 0) = ([], sampleTrio) := by
  have hnot : .ofNat 0xF000 ∉ sampleTrio.members := by decide
  have hmem : .ofNat 0 ∈ sampleTrio.members := by decide
  exact ⟨⟨hnot, (notifications_match_changes sampleTrio _).1 hnot⟩, hmem,
    (notifications_match_changes sampleTrio _).2 hmem⟩

end Subscriptions

end ReplicaRing

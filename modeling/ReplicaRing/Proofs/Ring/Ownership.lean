import ReplicaRing.Node
import ReplicaRing.Proofs.Ring.Chain
import ReplicaRing.Ring.Membership

/-!
# Keys change hands

When a node joins or fails some keys change their owner, and no others do (`Members.Passes`).

* A new member takes the arc that ends with it from the member behind it
  (`Members.passes_insert`). It begins where that one's predecessor is, or, if that one was
  alone, with itself.
* What a failed member owned passes to its successor (`Members.passes_erase`).

The notifications name all the points that are involved, so whoever gets one can tell which
keys it is about (`Subscriptions.notifications_tell_owners`). In particular a node hands over
to a new predecessor just what is owned by it now.
-/

namespace ReplicaRing

namespace Members

variable {m : Members} {p s : Point}

/-- The keys at the points in `moved` pass from `a` to `b`, and no other key changes its owner. -/
structure Passes (m m' : Members) (moved : Point → Prop) (a b : Point) : Prop where
  changes : ∀ k, m'.owner k ≠ m.owner k ↔ moved k
  before : ∀ k, moved k → m.owner k = some a
  after : ∀ k, moved k → m'.owner k = some b

theorem not_owner_of_not_mem (hp : p ∉ m) (k : Point) : m.owner k ≠ some p := fun h => by
  rw [owner_eq_head] at h
  exact hp (mem_chain.1 (List.mem_of_head? h))

/-- A key changes its owner by a join just if the new member is its owner now, and then its owner
    was the one that comes next. -/
theorem owner_insert (hp : p ∉ m) (hs : (m.insert p).successor p = some s) (k : Point) :
    (m.insert p).owner k = m.owner k ∨
      (m.insert p).owner k = some p ∧ m.owner k = some s := by
  obtain ⟨as, bs, hm, hi⟩ := exists_chain_insert hp k
  rw [successor_eq hi] at hs
  rw [owner_eq_head, owner_eq_head, hm, hi]
  cases as with
  | nil => exact .inr ⟨rfl, by rwa [List.append_nil] at hs⟩
  | cons a as => exact .inl rfl

/-- A new member takes its arc from the member behind it. -/
theorem passes_insert (hp : p ∉ m) (hs : (m.insert p).successor p = some s) :
    Passes m (m.insert p)
      (fun k => k.inArc ((m.predecessor s).getD s) p false true = true) s p := by
  have harc : ∀ k, k.inArc ((m.predecessor s).getD s) p false true = true ↔
      (m.insert p).owner k = some p := fun k =>
    inArc_predecessor (mem_insert.2 (.inl rfl)) (predecessor_insert hp hs)
  have hnot := not_owner_of_not_mem hp
  refine ⟨fun k => ?_, fun k hk => ?_, fun k hk => (harc k).1 hk⟩
  · rw [harc]
    rcases owner_insert hp hs k with h | ⟨h, -⟩
    · exact iff_of_false (not_not.2 h) (h ▸ hnot k)
    · exact iff_of_true (h ▸ (hnot k).symm) h
  · rcases owner_insert hp hs k with h | ⟨-, h⟩
    · exact absurd (h.symm.trans ((harc k).1 hk)) (hnot k)
    · exact h

/-- A key changes its owner by a failure just if its owner has failed, and then the next member
    is its owner. -/
theorem owner_erase (hp : p ∈ m) (hs : m.successor p = some s) (k : Point) :
    (m.erase p).owner k = if m.owner k = some p then some s else m.owner k := by
  obtain ⟨as, bs, hm⟩ := List.append_of_mem (mem_chain.2 hp : p ∈ m.chain k)
  have hn := m.nodup_chain k
  rw [successor_eq hm] at hs
  rw [owner_eq_head, owner_eq_head, chain_erase_of_chain hm, hm]
  cases as with
  | nil =>
    rw [List.append_nil] at hs
    rw [List.nil_append, List.nil_append, List.head?_cons, if_pos rfl, hs]
  | cons a as =>
    have hne : a ≠ p := by
      rw [hm] at hn
      rintro rfl
      exact (List.nodup_cons.1 hn).1 (by simp)
    rw [List.cons_append, List.cons_append, List.head?_cons, List.head?_cons,
      if_neg (by simpa using hne)]

/-- What a failed member owned passes to its successor. -/
theorem passes_erase (hp : p ∈ m) (hs : m.successor p = some s) :
    Passes m (m.erase p) (fun k => m.owner k = some p) p s := by
  have hne : s ≠ p := by simpa using (Option.filter_eq_some_iff.1 hs).2
  refine ⟨fun k => ?_, fun k hk => hk, fun k hk => by rw [owner_erase hp hs, if_pos hk]⟩
  rw [owner_erase hp hs]
  by_cases hk : m.owner k = some p
  · rw [if_pos hk, hk]
    exact iff_of_true (by simpa using hne) rfl
  · rw [if_neg hk]
    exact iff_of_false (not_not.2 rfl) hk

/-! ## Who is told -/

/-- A new member has a successor, unless it is alone. -/
theorem exists_successor_insert (hp : p ∉ m) (hm : 1 ≤ m.size) :
    ∃ s, (m.insert p).successor p = some s := by
  obtain ⟨as, bs, hold, hnew⟩ := exists_chain_insert hp p
  rw [successor_eq hnew]
  rw [← length_chain m p, hold, List.length_append, Nat.add_comm, ← List.length_append] at hm
  obtain ⟨s, rest, h⟩ := List.exists_cons_of_length_pos hm
  exact ⟨s, by rw [h, List.head?_cons]⟩

/-- A member has a successor, unless it is alone. -/
theorem exists_successor (hp : p ∈ m) (hm : 2 ≤ m.size) : ∃ s, m.successor p = some s := by
  obtain ⟨as, bs, h⟩ := List.append_of_mem (mem_chain.2 hp : p ∈ m.chain p)
  rw [successor_eq h]
  rw [← length_chain m p, h, List.length_append, List.length_cons] at hm
  obtain ⟨s, rest, h⟩ := List.exists_cons_of_length_pos (l := bs ++ as)
    (by rw [List.length_append]; omega)
  exact ⟨s, by rw [h, List.head?_cons]⟩

/-- Of a join only the successor learns of a new predecessor, and it does so first. -/
theorem joinNotifications_of_successor (hs : (m.insert p).successor p = some s) :
    ∃ rest, m.joinNotifications p = (s, .newPredecessor (m.predecessor s) p) :: rest ∧
      ∀ note ∈ rest, ∀ previous current, note.2 ≠ .newPredecessor previous current := by
  refine ⟨((m.insert p).predecessor p).map (fun q => (q, Event.newSuccessor (m.successor q) p))
    |>.toList, by rw [joinNotifications, hs]; rfl, fun note hnote previous current h => ?_⟩
  rw [Option.mem_toList] at hnote
  obtain ⟨q, -, rfl⟩ := Option.map_eq_some_iff.1 hnote
  cases h

/-- Of a failure only the successor learns that its predecessor failed, and it does so first. -/
theorem failNotifications_of_successor (hs : m.successor p = some s) :
    ∃ rest, m.failNotifications p =
        (s, .predecessorFailed p ((m.erase p).predecessor s)) :: rest ∧
      ∀ note ∈ rest, ∀ failed replacement, note.2 ≠ .predecessorFailed failed replacement := by
  refine ⟨(m.predecessor p).map (fun q => (q, Event.successorFailed p ((m.erase p).successor q)))
    |>.toList, by rw [failNotifications, hs]; rfl, fun note hnote failed replacement h => ?_⟩
  rw [Option.mem_toList] at hnote
  obtain ⟨q, -, rfl⟩ := Option.map_eq_some_iff.1 hnote
  cases h

end Members

namespace Subscriptions

variable {s : Subscriptions} {p : Point}

theorem members_send (s : Subscriptions) (note : Notification) :
    (s.send note).members = s.members := by
  rw [send]
  split
  · rfl
  · split <;> rfl

theorem members_foldl_send (notes : List Notification) (s : Subscriptions) :
    (notes.foldl send s).members = s.members := by
  induction notes generalizing s with
  | nil => rfl
  | cons note notes ih => rw [List.foldl_cons, ih, members_send]

theorem join_of_not_mem (hp : p ∉ s.members) :
    (s.join p).1 = s.members.joinNotifications p ∧ (s.join p).2.members = s.members.insert p := by
  have hj : s.members.join p = (s.members.joinNotifications p, s.members.insert p) := if_neg hp
  rw [join, hj]
  exact ⟨rfl, members_foldl_send _ _⟩

theorem fail_of_mem (hp : p ∈ s.members) :
    (s.fail p).1 = s.members.failNotifications p ∧ (s.fail p).2.members = s.members.erase p := by
  have hf : s.members.fail p = (s.members.failNotifications p, s.members.erase p) := if_pos hp
  rw [fail, hf]
  exact ⟨rfl, members_foldl_send _ _⟩

end Subscriptions

/-! ## What is handed over -/

/-- A node that learns of a new predecessor gathers, of the keys it lists as its own, those that the
    new one owns now. -/
theorem Node.react_newPredecessor {m m' : Members} {moved : Point → Prop} {p s : Point}
    {previous : Option Point} (node : Node) (hsp : s ≠ p) (hp : p ∉ m)
    (hm : Members.Passes m m' moved s p)
    (harc : ∀ k, moved k ↔ k.inArc (previous.getD s) p false true = true) :
    node.react (m'.view s) (.newPredecessor previous p) =
      (node.countEvent "new_predecessor").sendLatest
        (node.store.keySet.filter fun r => r.rank = 1 && m'.owner r.key.point = some p)
        fun batch => .ask p (.putObjects batch) (.migrated (batch.map (·.1))) := by
  have howner : ∀ k, k.inArc (previous.getD s) p false true = decide (m'.owner k = some p) := by
    intro k
    rw [Bool.eq_iff_iff, ← harc, decide_eq_true_iff]
    refine ⟨hm.after k, fun h => (hm.changes k).1 ?_⟩
    rw [h]
    exact (Members.not_owner_of_not_mem hp k).symm
  have hself : ¬p = (m'.view s).self := fun h => hsp h.symm
  rw [react]
  show (node.countEvent _).migrate (m'.view s) (previous.getD s) p = _
  rw [migrate, if_neg hself]
  simp only [howner]
  rfl

namespace Subscriptions

/-- Of the join of `p` one member `s` is told that `p` is its new predecessor. The keys between its
    old predecessor, or itself if it had none, and `p` pass from `s` to `p`, and no others; and
    `s` hands over what it lists as its own of them. -/
def TellsJoin (ring : Subscriptions) (p : Point) : Prop :=
  ∃ s previous rest, (ring.join p).1 = (s, .newPredecessor previous p) :: rest ∧
    (∀ note ∈ rest, ∀ a b, note.2 ≠ .newPredecessor a b) ∧
    Members.Passes ring.members (ring.join p).2.members
      (fun k => k.inArc (previous.getD s) p false true = true) s p ∧
    ∀ node : Node, node.react ((ring.join p).2.members.view s) (.newPredecessor previous p) =
      (node.countEvent "new_predecessor").sendLatest
        (node.store.keySet.filter fun r =>
          r.rank = 1 && (ring.join p).2.members.owner r.key.point = some p)
        fun batch => .ask p (.putObjects batch) (.migrated (batch.map (·.1)))

/-- Of the failure of `p` one member `s` is told that its predecessor `p` failed. The keys that `p`
    owned pass to `s`, and no others change hands. -/
def TellsFailure (ring : Subscriptions) (p : Point) : Prop :=
  ∃ s replacement rest, (ring.fail p).1 = (s, .predecessorFailed p replacement) :: rest ∧
    (∀ note ∈ rest, ∀ a b, note.2 ≠ .predecessorFailed a b) ∧
    Members.Passes ring.members (ring.fail p).2.members
      (fun k => ring.members.owner k = some p) p s

/-- **The notifications tell which keys change hands**, of every join of a new member to a ring that
    is not empty, and of every failure that leaves a member behind. -/
theorem notifications_tell_owners (ring : Subscriptions) (p : Point) :
    (1 ≤ ring.members.size → p ∉ ring.members → ring.TellsJoin p) ∧
      (2 ≤ ring.members.size → p ∈ ring.members → ring.TellsFailure p) := by
  constructor
  · intro hm hp
    obtain ⟨s, hs⟩ := Members.exists_successor_insert hp hm
    obtain ⟨rest, hnotes, hrest⟩ := Members.joinNotifications_of_successor hs
    obtain ⟨hfst, hsnd⟩ := join_of_not_mem hp
    have hpass := Members.passes_insert hp hs
    have hsp : s ≠ p := by simpa using (Option.filter_eq_some_iff.1 hs).2
    rw [TellsJoin, hfst, hsnd]
    exact ⟨s, _, rest, hnotes, hrest, hpass, fun node =>
      node.react_newPredecessor hsp hp hpass fun k => Iff.rfl⟩
  · intro hm hp
    obtain ⟨s, hs⟩ := Members.exists_successor hp hm
    obtain ⟨rest, hnotes, hrest⟩ := Members.failNotifications_of_successor hs
    obtain ⟨hfst, hsnd⟩ := fail_of_mem hp
    rw [TellsFailure, hfst, hsnd]
    exact ⟨s, _, rest, hnotes, hrest, Members.passes_erase hp hs⟩

/-- Two members, one of them at zero. -/
def samplePair : Subscriptions :=
  ⟨⟨[.ofNat 0, .ofNat 0x9000], by decide⟩, [], []⟩

/-- A node joins behind the last member, on the arc that goes round past zero, and the member at
    zero fails. -/
theorem notifications_tell_owners_samplePair :
    (1 ≤ samplePair.members.size ∧ .ofNat 0xF000 ∉ samplePair.members ∧
        samplePair.TellsJoin (.ofNat 0xF000)) ∧
      2 ≤ samplePair.members.size ∧ .ofNat 0 ∈ samplePair.members ∧
        samplePair.TellsFailure (.ofNat 0) := by
  have hnot : .ofNat 0xF000 ∉ samplePair.members := by decide
  have hmem : .ofNat 0 ∈ samplePair.members := by decide
  have hsize : 2 ≤ samplePair.members.size := by decide
  have hone : 1 ≤ samplePair.members.size := by decide
  exact ⟨⟨hone, hnot, (notifications_tell_owners samplePair _).1 hone hnot⟩, hsize, hmem,
    (notifications_tell_owners samplePair _).2 hsize hmem⟩

end Subscriptions

end ReplicaRing

import ReplicaRing.Proofs.Handover

/-!
# Neighbours that overtake each other

The two neighbours of a node that joins or fails are told of it, the one behind it first. Each
handles what it is told by itself, so that the one before it may be done first
(`Interleaves`). In the order of the ring's list the owner of a key alone holds the first copy
afterwards. If the neighbours overtake each other, two things can go wrong.

* The last node of the chain sends its copy to a new owner, which passes it on to the old owner
  before that has handed over the first copy: nobody holds it then
  (`Row.first_join_owner_swap`).
* The owner sends its copy across the gap that the second node of the chain has left, and the
  third takes it for the one it is to take over: both hold the first copy then
  (`Row.first_doubled`).

`Cluster.primary_iff` says that nothing else goes wrong.
-/

namespace ReplicaRing

/-- The notifications in an order in which every node gets its own as they were sent. -/
def Interleaves (notes order : List Notification) : Prop :=
  order.Perm notes ∧ ∀ p, (order.filter fun note => note.1 = p) = notes.filter fun note => note.1 = p

theorem interleaves_swap {a b : Notification} (h : a.1 ≠ b.1) : Interleaves [a, b] [b, a] := by
  refine ⟨.swap a b [], fun p => ?_⟩
  by_cases ha : a.1 = p
  · have hb : b.1 ≠ p := fun hb => h (ha.trans hb.symm)
    simp [ha, hb]
  · simp [List.filter_cons, ha]

/-- Of two notifications for one node the order stays. -/
theorem Interleaves.eq_or_swap {notes order : List Notification} (h : Interleaves notes order)
    (hlength : notes.length ≤ 2) :
    order = notes ∨ ∃ a b, notes = [a, b] ∧ order = [b, a] ∧ a.1 ≠ b.1 := by
  obtain ⟨hperm, hfilter⟩ := h
  rcases notes with _ | ⟨a, _ | ⟨b, _ | ⟨c, notes⟩⟩⟩
  · exact .inl hperm.eq_nil
  · exact .inl (List.perm_singleton.1 hperm)
  · by_cases hab : a.1 = b.1
    · left
      have h := hfilter a.1
      have hall : ∀ note ∈ order, note.1 = a.1 := by
        intro note hnote
        rcases List.mem_pair.1 (hperm.mem_iff.1 hnote) with rfl | rfl
        · rfl
        · exact hab.symm
      rw [List.filter_eq_self.2 fun note hn => decide_eq_true (hall note hn)] at h
      rw [h, List.filter_eq_self]
      simp [hab]
    · rcases List.perm_pair.1 hperm with h | h
      · exact .inl h
      · exact .inr ⟨a, b, rfl, h, hab⟩
  · simp at hlength

namespace Row

variable {E : Setting} {m : Members} {key : String} {k p o q s w x y : Point} {v : Bytes}
  {pre seg : List Point} {row : Row} {n i : Nat}

/-! ## Joins -/

theorem joinNotifications_eq (hs : (m.insert p).successor p = some s)
    (hw : (m.insert p).predecessor p = some w) :
    m.joinNotifications p =
      [(s, .newPredecessor (m.predecessor s) p), (w, .newSuccessor (m.successor w) p)] := by
  rw [Members.joinNotifications, hs, hw]
  rfl

/-- Behind the owner it does not matter which neighbour is first. -/
theorem reacts_join_swap (hp : p ∉ m) {a b : Notification} (hnotes : m.joinNotifications p = [a, b])
    (hs : (m.insert p).successor p = some s) (hw : (m.insert p).predecessor p = some w)
    (ho : ((m.insert p).chain (E.point key)).head? = some o) (hop : o ≠ p) (row : Row) :
    reacts E (m.insert p) key row [b, a] = reacts E (m.insert p) key row [a, b] := by
  rw [joinNotifications_eq hs hw, List.cons.injEq, List.cons.injEq] at hnotes
  obtain ⟨rfl, rfl, -⟩ := hnotes
  simp only [reacts, List.foldl_cons, List.foldl_nil, react_newPredecessor_other hp hs ho hop]

/-- A copy that is brought to a node without one is stored there, and the next one sent on. -/
theorem walk_vacant (hnone : row p = none) (c : Copy) (hops : Nat) :
    walk n m k (hops + 1) p (some c) row =
      send n m k hops (m.view p).nextHop (c.next n) (Function.update row p (some c)) := by
  have harrive : c.arrive n ((m.view p).owns k) (row p) = (c, c.next n) := by
    rw [Copy.arrive, hnone]
    rfl
  simp only [walk_succ, Option.bind_some, harrive]

/-- The last node of the chain sends its copy to a new owner, before the old owner has handed
    the first copy over. If the ranks last for it, the copy is passed on. -/
theorem replicate_to_owner (hrow : Placed n v m k row) (hnone : row p = none)
    (hold : m.chain k = s :: seg) (hnew : (m.insert p).chain k = p :: s :: seg)
    (hlast : (s :: seg).getLast? = some w) :
    let row₁ := replicate n (m.insert p) k (n + 1) w p row
    (n < m.size + 2 → ∀ q, q ≠ p → row₁ q = row q) ∧
    (m.size + 2 ≤ n → row₁ p = some ⟨m.size + 1, v⟩ ∧
      ∀ i q, (s :: seg)[i]? = some q →
        row₁ q = if m.size + 2 + i ≤ n then some ⟨m.size + 2 + i, v⟩ else row q) := by
  intro row₁
  have ho : ((m.insert p).chain k).head? = some p := by rw [hnew]; rfl
  obtain ⟨pre, hpre⟩ : ∃ pre, s :: seg = pre ++ [w] := List.getLast?_eq_some_iff.1 hlast
  have hchainw : (m.insert p).chain k = p :: pre ++ [w] := by rw [hnew, hpre]; rfl
  have hsucc : (m.insert p).successor w = some p := by
    rw [Members.successor_eq (show (m.insert p).chain k = (p :: pre) ++ w :: [] from hchainw)]
    rfl
  have hsize : m.size = pre.length + 1 := by
    rw [← Members.length_chain m k, hold, hpre, List.length_append, List.length_singleton]
  -- The last node holds the copy of rank `m.size`, if there is one.
  have hw : (row w).bind (Copy.next n) =
      if m.size + 1 ≤ n then some ⟨m.size + 1, v⟩ else none := by
    have hi : (m.chain k)[pre.length]? = some w := by simp [hold, hpre]
    rw [hrow.copy_at hi, next_placed, hsize]
  have hrow₁ : row₁ = send n (m.insert p) k (n + 1) (some p)
      (if m.size + 1 ≤ n then some ⟨m.size + 1, v⟩ else none) row := by
    rw [← hw, ← nextHop_of_chain_last hchainw]
    exact replicate_eq_send _ hsucc
  -- If there is a rank for the new owner the copy arrives, and if there is one more it is
  -- passed on, to the old owner first.
  by_cases hle : m.size + 1 ≤ n
  · rw [if_pos hle, send, walk_vacant hnone] at hrow₁
    have hnext : Copy.next n ⟨m.size + 1, v⟩ =
        if m.size + 2 ≤ n then some ⟨m.size + 2, v⟩ else none := rfl
    rw [hnext] at hrow₁
    refine ⟨fun hlt q hq => ?_, fun hle₂ => ?_⟩
    · rw [hrow₁, if_neg (by omega), send_none, Function.update_of_ne hq]
    · rw [if_pos hle₂] at hrow₁
      have hnew' : (m.insert p).chain k = [] ++ p :: s :: seg := hnew
      have hs : Spread n p (s :: seg) (some ⟨m.size + 2, v⟩)
          (Function.update row p (some ⟨m.size + 1, v⟩)) row₁ := by
        rw [hrow₁]
        exact spread_send hnew' ho (fun _ => List.cons_ne_nil _ _)
          (Function.update_self ..) (Nat.lt_succ_self _) (Nat.le_add_left _ _) hle₂
          (by show n < m.size + 2 + n; omega)
      have hn := (m.insert p).nodup_chain k
      rw [hnew] at hn
      refine ⟨?_, fun i q hi => ?_⟩
      · rw [hs.owner, Function.update_self]
        exact refresh_spill (c := ⟨m.size + 2, v⟩) hle₂ _ _
      · have hqp : q ≠ p := ne_of_mem_of_not_mem (List.mem_of_getElem? hi) (List.nodup_cons.1 hn).1
        have hcopy := hs.copy_at (if_pos hle₂).symm hi
        rwa [Function.update_of_ne hqp] at hcopy
  · rw [if_neg hle, send_none] at hrow₁
    exact ⟨fun _ q _ => by rw [hrow₁], fun h => absurd h (by omega)⟩

/-- If the old owner has got another copy instead of the first one, nobody holds the first one. -/
theorem not_first_of_replaced (hrow : Placed n v m k row) (hle : m.size + 2 ≤ n)
    (hold : m.chain k = s :: seg) (hnew : (m.insert p).chain k = p :: s :: seg) {row₁ : Row}
    (hp₁ : row₁ p = some ⟨m.size + 1, v⟩)
    (hseg₁ : ∀ i q, (s :: seg)[i]? = some q →
      row₁ q = if m.size + 2 + i ≤ n then some ⟨m.size + 2 + i, v⟩ else row q)
    (hq : q ∈ m.insert p) : ¬row₁.First q := by
  intro h
  have hsize : 1 ≤ m.size := by
    rw [← Members.length_chain m k, hold]
    exact Nat.succ_pos _
  rcases List.mem_cons.1 (hnew ▸ Members.mem_chain.2 hq) with rfl | hmem
  · rw [First, hp₁] at h
    have h : m.size + 1 = 1 := Option.some.inj h
    omega
  · obtain ⟨i, hi⟩ := List.mem_iff_getElem?.1 hmem
    rw [First, hseg₁ i q hi] at h
    split_ifs at h
    · have h : m.size + 2 + i = 1 := Option.some.inj h
      omega
    · -- The node was the owner, which has got another copy.
      rw [← hold] at hi
      have hqm := Members.mem_chain.1 (List.mem_of_getElem? hi)
      have h := (hrow.first_iff (by omega) hqm).1 h
      rw [List.head?_eq_getElem?] at h
      have := Members.eq_of_getElem?_chain hi h
      omega

/-- If the old owner still holds the first copy it hands it over, and what the new one has got
    before is lost. -/
theorem migrate_eq_move (hrow : Placed E.copies.toNat v m (E.point key) row)
    (hkept : row.Kept E m) (hp : p ∉ m) (hold : m.chain (E.point key) = s :: seg)
    (hnew : (m.insert p).chain (E.point key) = p :: s :: seg) {row₁ : Row}
    (hstay : ∀ q, q ≠ p → row₁ q = row q) :
    migrate true s p row₁ = row.move E m key (.join p) := by
  have hsp : s ≠ p := (Members.ne_of_head hnew).symm
  have hs₁ : row₁ s = some ⟨1, v⟩ := by
    rw [hstay s hsp, hrow.owner (one_le E) (by rw [hold]; rfl)]
  rw [move_join_owner hrow hkept hp hold hnew, migrate, hs₁, Option.filter_some,
    if_pos (by simp), Option.some_or, Option.map_some, Copy.demote, if_pos (by simp)]
  funext r
  by_cases hrs : r = s
  · rw [hrs, Function.update_self, Function.update_self]
  rw [Function.update_of_ne hrs, Function.update_of_ne hrs]
  by_cases hrp : r = p
  · rw [hrp, Function.update_self, Function.update_self]
  · rw [Function.update_of_ne hrp, Function.update_of_ne hrp, hstay r hrp]

/-- If the last node of the chain is told first, the new owner gets the first copy only if the
    ranks did not last for the old one to get another. -/
theorem first_join_owner_swap (hrow : Placed E.copies.toNat v m (E.point key) row)
    (hkept : row.Kept E m) (hp : p ∉ m) {a b : Notification}
    (hnotes : m.joinNotifications p = [a, b])
    (hold : m.chain (E.point key) = s :: seg)
    (hnew : (m.insert p).chain (E.point key) = p :: s :: seg) (hq : q ∈ m.insert p) :
    (reacts E (m.insert p) key row [b, a]).First q ↔ p = q ∧ ¬m.size + 2 ≤ E.copies.toNat := by
  have ho : ((m.insert p).chain (E.point key)).head? = some p := by rw [hnew]; rfl
  obtain ⟨w, hlast⟩ : ∃ w, (s :: seg).getLast? = some w := ⟨_, List.getLast?_cons⟩
  have hsucc : (m.insert p).successor p = some s := Members.successor_of_head hnew
  have hpred : (m.insert p).predecessor p = some w := by
    rw [Members.predecessor_of_head hnew, hlast]
  rw [joinNotifications_eq hsucc hpred, List.cons.injEq, List.cons.injEq] at hnotes
  obtain ⟨rfl, rfl, -⟩ := hnotes
  have hnone : row p = none := hkept.eq_none hp
  -- The key lies on the arc that the old owner gives away.
  have hgiven : Node.given E ((m.predecessor s).getD s) p key = true := by
    rw [given_eq hp hsucc, Members.owner_eq_head, ho]
    simp
  have hrow₁ := replicate_to_owner hrow hnone hold hnew hlast
  set row₁ := replicate E.copies.toNat (m.insert p) (E.point key) (E.copies.toNat + 1) w p row
  have hreacts : reacts E (m.insert p) key row
      [(w, .newSuccessor (m.successor w) p), (s, .newPredecessor (m.predecessor s) p)] =
        migrate true s p row₁ := by
    simp only [reacts, List.foldl_cons, List.foldl_nil, react, hgiven]
    rfl
  rw [hreacts]
  by_cases hle : m.size + 2 ≤ E.copies.toNat
  · -- The old owner has got another copy instead of the first one, and has none to hand over.
    obtain ⟨hp₁, hseg₁⟩ := hrow₁.2 hle
    have hs₁ : row₁ s = some ⟨m.size + 2, v⟩ := by
      rw [hseg₁ 0 s rfl, if_pos hle]
    rw [migrate_of_ne_one fun c hc hone => by
      rw [hs₁, Option.some.injEq] at hc
      rw [← hc] at hone
      have h : m.size + 2 = 1 := hone.1
      omega]
    exact iff_of_false (not_first_of_replaced hrow hle hold hnew hp₁ hseg₁ hq) fun h => h.2 hle
  · rw [migrate_eq_move hrow hkept hp hold hnew (hrow₁.1 (by omega)),
      (covers_join_owner hrow hkept hp hold hnew).first q hq, ho, Option.some.injEq]
    exact (and_iff_left hle).symm

/-- Whoever of the neighbours of a new member is first, the owner alone holds the first copy
    afterwards, unless it is the new member, the neighbours overtake each other, and there is a
    rank for the old owner to get. -/
theorem first_join (hrow : Placed E.copies.toNat v m (E.point key) row)
    (hkept : row.Kept E m) (hp : p ∉ m) (hsize : 1 ≤ m.size) {order : List Notification}
    (horder : Interleaves (m.joinNotifications p) order) (hq : q ∈ m.insert p) :
    (reacts E (m.insert p) key (Function.update row p none) order).First q ↔
      ((m.insert p).chain (E.point key)).head? = some q ∧
        ¬(order ≠ m.joinNotifications p ∧ p = q ∧ m.size + 2 ≤ E.copies.toNat) := by
  have hcovers := covers_join hrow hkept hp hsize
  have hnone : Function.update row p none = row :=
    Function.update_eq_self_iff.2 (hkept.eq_none hp).symm
  rcases horder.eq_or_swap (Members.length_joinNotifications_le m p) with
    rfl | ⟨a, b, hnotes, rfl, hne⟩
  · exact (hcovers.first q hq).trans (and_iff_left fun h => h.1 rfl).symm
  -- The neighbours have overtaken each other.
  have hswap : [b, a] ≠ m.joinNotifications p := by
    rw [hnotes]
    intro h
    exact hne (congrArg Prod.fst (List.cons.inj h).1).symm
  rcases Members.chain_insert_cases hp hsize (E.point key) with
    ⟨s, seg, hold, hnew⟩ | ⟨pre, w, seg, hold, hnew⟩
  · -- The new member owns the key.
    rw [hnone, first_join_owner_swap hrow hkept hp hnotes hold hnew hq, hnew, List.head?_cons,
      Option.some.injEq]
    tauto
  · -- Another node does, and the one behind the new member has nothing to hand over.
    obtain ⟨o, ho⟩ := Members.exists_head_chain hnew
    have hop : o ≠ p := Members.ne_of_head_chain hnew ho
    obtain ⟨s, hs⟩ := Members.exists_successor_of_chain hnew
    have hpred : (m.insert p).predecessor p = some w := Members.predecessor_of_chain hnew
    rw [reacts_join_swap hp hnotes hs hpred ho hop, ← hnotes]
    refine (hcovers.first q hq).trans (and_iff_left_of_imp fun h h' => ?_).symm
    rw [ho, Option.some.injEq, ← h'.2.1] at h
    exact hop h

/-! ## Failures -/

theorem failNotifications_eq (hs : m.successor x = some s) (hw : m.predecessor x = some w) :
    m.failNotifications x = [(s, .predecessorFailed x ((m.erase x).predecessor s)),
      (w, .successorFailed x ((m.erase x).successor w))] := by
  rw [Members.failNotifications, hs, hw]
  rfl

/-- The node before a failed one alone puts the copies in their places again. -/
theorem placed_successorFailed (hrow : Placed E.copies.toNat v m (E.point key) row)
    (hkept : row.Kept E m) (hchain : m.chain (E.point key) = pre ++ w :: x :: seg) :
    Placed E.copies.toNat v (m.erase x) (E.point key)
      (react E (m.erase x) key (E.copies.toNat + 1) w (Function.update row x none)
        (.successorFailed x ((m.erase x).successor w))) := by
  have hchain' : m.chain (E.point key) = (pre ++ [w]) ++ x :: seg := by rw [hchain]; simp
  have hleft : (m.erase x).chain (E.point key) = pre ++ w :: seg := by
    rw [Members.chain_erase_of_chain hchain']
    simp
  obtain ⟨o, ho⟩ := Members.exists_head_chain hchain
  have ho' : ((m.erase x).chain (E.point key)).head? = some o :=
    (Members.head?_eq_of_chain hchain hleft).trans ho
  have hox : o ≠ x := Members.ne_of_head_chain hchain ho
  have hheld : Function.update row x none o = some ⟨1, v⟩ := by
    rw [Function.update_of_ne hox, hrow.owner (one_le E) ho]
  have hwx : w ≠ x := Members.ne_of_chain hchain
  have hs := spread_replicate hleft ho' hheld rfl
    (fun c hc => by
      rw [Function.update_of_ne hwx] at hc
      exact (hkept w c hc).2.1) (Nat.le_succ E.copies.toNat)
  rw [react_successorFailed]
  rw [Function.update_of_ne hwx] at hs ⊢
  exact placed_of_spread hrow (one_le E) hchain ho hs

/-- If the owner is told first that the node behind it has failed, the next node takes the second
    copy that it gets for that of a failed owner. -/
theorem first_doubled (hrow : Placed n v m k row) (hn : 2 ≤ n) (hchain : m.chain k = o :: y :: seg)
    (hq : q ∈ m) :
    (takeOver n m k (n + 1) y row).First q ↔ o = q ∨ y = q := by
  have ho : (m.chain k).head? = some o := by rw [hchain]; rfl
  have hnodup := m.nodup_chain k
  rw [hchain, List.nodup_cons, List.nodup_cons, List.mem_cons, not_or] at hnodup
  obtain ⟨⟨hoy, hoseg⟩, hyseg, -⟩ := hnodup
  -- By its rank the copy at `y` cannot be told from one left by a failed owner.
  have hc : row y = some ⟨2, v⟩ := by
    rw [hrow.copy_at (show (m.chain k)[1]? = some y by rw [hchain]; rfl), if_pos hn]
  have hheld : row o = some ⟨1, v⟩ := by
    rw [hrow.copy_at (show (m.chain k)[0]? = some o by rw [hchain]; rfl), if_pos (by omega)]
  have hchain' : m.chain k = [o] ++ y :: seg := hchain
  have hs := (takenOver row hchain' ho hn (.inr ⟨_, hheld, rfl⟩) (Nat.le_succ n)).1 _ hc rfl
  set row₁ := takeOver n m k (n + 1) y row
  rcases List.mem_cons.1 (hchain ▸ Members.mem_chain.2 hq) with rfl | hmem
  · refine iff_of_true ?_ (.inl rfl)
    rw [First, hs.rank hoseg, Function.update_of_ne hoy, hheld]
    rfl
  rcases List.mem_cons.1 hmem with rfl | hmem
  · refine iff_of_true ?_ (.inr rfl)
    rw [First, hs.rank hyseg, Function.update_self]
    rfl
  · -- Behind both there are copies of higher ranks only.
    refine iff_of_false (fun h => ?_) ?_
    · obtain ⟨i, hi⟩ := List.mem_iff_getElem?.1 hmem
      have hcopy := hs.copy_at (if_pos hn).symm hi
      rw [Function.update_of_ne (ne_of_mem_of_not_mem hmem hyseg),
        hrow.copy_at (show (m.chain k)[i + 2]? = some q by rw [hchain]; exact hi)] at hcopy
      rw [First, hcopy] at h
      split_ifs at h
      · have h : 2 + i = 1 := Option.some.inj h
        omega
      · have h : i + 2 + 1 = 1 := Option.some.inj h
        omega
      · cases h
    · rintro (rfl | rfl)
      · exact hoseg hmem
      · exact hyseg hmem

/-- If the node before a failed one is told first, and is not the last that is left, the owner
    alone holds the first copy afterwards, unless it is itself the one before the failed. -/
theorem first_fail_swap_of_chain (hrow : Placed E.copies.toNat v m (E.point key) row)
    (hkept : row.Kept E m) {a b : Notification} (hnotes : m.failNotifications x = [a, b])
    (hchain : m.chain (E.point key) = pre ++ w :: x :: seg) (hq : q ∈ m.erase x) :
    (reacts E (m.erase x) key (Function.update row x none) [b, a]).First q ↔
      ((m.erase x).chain (E.point key)).head? = some q ∨ pre = [] ∧ seg.head? = some q := by
  have hchain' : m.chain (E.point key) = (pre ++ [w]) ++ x :: seg := by rw [hchain]; simp
  have hleft : (m.erase x).chain (E.point key) = (pre ++ [w]) ++ seg :=
    Members.chain_erase_of_chain hchain'
  have hpred : m.predecessor x = some w := Members.predecessor_of_chain hchain
  obtain ⟨s, hsucc⟩ := Members.exists_successor_of_chain hchain
  rw [failNotifications_eq hsucc hpred, List.cons.injEq, List.cons.injEq] at hnotes
  obtain ⟨rfl, rfl, -⟩ := hnotes
  have hrow₁ := placed_successorFailed hrow hkept hchain
  set row₁ := react E (m.erase x) key (E.copies.toNat + 1) w (Function.update row x none)
    (.successorFailed x ((m.erase x).successor w))
  have hreacts : reacts E (m.erase x) key (Function.update row x none)
      [(w, .successorFailed x ((m.erase x).successor w)),
        (s, .predecessorFailed x ((m.erase x).predecessor s))] =
      takeOver E.copies.toNat (m.erase x) (E.point key) (E.copies.toNat + 1) s row₁ := rfl
  rw [hreacts]
  -- Where the node behind the failed one stands in the chain decides what it takes over.
  cases seg with
  | nil =>
    have ho : ((m.erase x).chain (E.point key)).head? = some s := by
      rw [hleft, List.append_nil, ← hsucc, Members.successor_eq hchain', List.nil_append]
    rw [takeOver_of_ne_two fun c hc => ?_, hrow₁.first_iff (one_le E) hq]
    · simp
    · rw [hrow₁.owner (one_le E) ho, Option.some.injEq] at hc
      rw [← hc]
      exact Nat.ne_of_lt Nat.one_lt_two
  | cons y seg =>
    obtain rfl : y = s := Option.some.inj ((Members.successor_of_chain hchain').symm.trans hsucc)
    cases pre with
    | nil =>
      have hleft : (m.erase x).chain (E.point key) = w :: y :: seg := hleft
      rw [first_doubled hrow₁ (two_le E) hleft hq, hleft]
      simp
    | cons o pre =>
      have hy : ((m.erase x).chain (E.point key))[pre.length + 2]? = some y := by simp [hleft]
      rw [takeOver_of_ne_two fun c hc => ?_, hrow₁.first_iff (one_le E) hq]
      · simp
      · rw [hrow₁.copy_at hy] at hc
        split_ifs at hc
        rw [← Option.some.inj hc]
        show pre.length + 2 + 1 ≠ 2
        omega

/-- If the owner has failed, what the last node sends round has the value that the new owner
    holds. -/
theorem react_last (hrow : Placed E.copies.toNat v m (E.point key) row)
    (hchain : m.chain (E.point key) = x :: y :: seg) (hlast : (y :: seg).getLast? = some w)
    (hyw : y ≠ w) :
    react E (m.erase x) key (E.copies.toNat + 1) w (Function.update row x none)
      (.successorFailed x ((m.erase x).successor w)) = Function.update row x none := by
  have hleft : (m.erase x).chain (E.point key) = y :: seg := Members.chain_erase_of_head hchain
  have ho : ((m.erase x).chain (E.point key)).head? = some y := by rw [hleft]; rfl
  obtain ⟨pre, hpre⟩ : ∃ pre, y :: seg = pre ++ [w] := List.getLast?_eq_some_iff.1 hlast
  have hleft' : (m.erase x).chain (E.point key) = pre ++ w :: [] := by rw [hleft, hpre]
  have hstay : ∀ q ∈ y :: seg, Function.update row x none q = row q := fun q hq =>
    Function.update_of_ne (ne_of_mem_of_not_mem hq (Members.notMem_of_head hchain)) _ _
  have hheld : Function.update row x none y = some ⟨2, v⟩ := by
    rw [hstay y List.mem_cons_self,
      hrow.copy_at (show (m.chain (E.point key))[1]? = some y by rw [hchain]; rfl),
      if_pos (two_le E)]
  have hw : (Function.update row x none w).bind (Copy.next E.copies.toNat) =
      if pre.length + 3 ≤ E.copies.toNat then some ⟨pre.length + 3, v⟩ else none := by
    have hi : (m.chain (E.point key))[pre.length + 1]? = some w := by simp [hchain, hpre]
    rw [hstay w (List.mem_of_getLast? hlast), hrow.copy_at hi, next_placed]
  rw [react_successorFailed, hw]
  -- A copy that `w` sends on comes round to the new owner `y`, which keeps the lower one it holds.
  split_ifs with hle
  · have hlong : E.copies.toNat < pre.length + 3 + (E.copies.toNat + 1) := by omega
    have hs := spread_send (c := ⟨pre.length + 3, v⟩) hleft' ho
      (fun e => absurd e (Ne.symm hyw)) hheld (Nat.lt_add_left _ (Nat.lt_succ_self 2))
      (Nat.le_add_left 2 (pre.length + 1)) hle hlong
    funext q
    by_cases hqy : q = y
    · rw [hqy, hs.owner, hheld]
      exact refresh_spill (c := ⟨pre.length + 3, v⟩) hle 2 0
    · exact hs.other q hqy List.not_mem_nil
  · rw [send_none]

/-- If the owner has failed it does not matter which neighbour is first. -/
theorem first_fail_owner_swap (hrow : Placed E.copies.toNat v m (E.point key) row)
    {a b : Notification} (hnotes : m.failNotifications x = [a, b]) (hne : a.1 ≠ b.1)
    (hchain : m.chain (E.point key) = x :: y :: seg) (hq : q ∈ m.erase x) :
    (reacts E (m.erase x) key (Function.update row x none) [b, a]).First q ↔
      ((m.erase x).chain (E.point key)).head? = some q := by
  have htwo := two_le E
  have hleft : (m.erase x).chain (E.point key) = y :: seg := Members.chain_erase_of_head hchain
  have ho' : ((m.erase x).chain (E.point key)).head? = some y := by rw [hleft]; rfl
  obtain ⟨w, hlast⟩ : ∃ w, (y :: seg).getLast? = some w := ⟨_, List.getLast?_cons⟩
  have hsucc : m.successor x = some y := Members.successor_of_head hchain
  have hpred : m.predecessor x = some w := by
    rw [Members.predecessor_of_head hchain, hlast]
  rw [failNotifications_eq hsucc hpred, List.cons.injEq, List.cons.injEq] at hnotes
  obtain ⟨rfl, rfl, -⟩ := hnotes
  have hheld : Function.update row x none y = some ⟨2, v⟩ := by
    rw [Function.update_of_ne (Members.ne_of_head hchain).symm,
      hrow.copy_at (show (m.chain (E.point key))[1]? = some y by rw [hchain]; rfl), if_pos htwo]
  -- The last node is told first and changes nothing; what remains is that `y` takes over.
  have hreacts : reacts E (m.erase x) key (Function.update row x none)
      [(w, .successorFailed x ((m.erase x).successor w)),
        (y, .predecessorFailed x ((m.erase x).predecessor y))] =
      takeOver E.copies.toNat (m.erase x) (E.point key) (E.copies.toNat + 1) y
        (Function.update row x none) := by
    simp only [reacts, List.foldl_cons, List.foldl_nil, react_last hrow hchain hlast hne]
    rfl
  have hleft₀ : (m.erase x).chain (E.point key) = [] ++ y :: seg := hleft
  have hs := (takenOver (Function.update row x none) hleft₀ ho' htwo (.inl rfl)
    (Nat.le_succ E.copies.toNat)).1 _ hheld rfl
  rw [hreacts]
  exact (placed_of_spread_owner hrow htwo hchain hs).first_iff (one_le E) hq

/-- Whoever of the neighbours of a failed node is first, the owner holds the first copy
    afterwards. Another node does too if it is the third of the chain, the second has failed, and
    the neighbours overtake each other. -/
theorem first_fail (hrow : Placed E.copies.toNat v m (E.point key) row)
    (hkept : row.Kept E m) (hx : x ∈ m) (hsize : 2 ≤ m.size) {order : List Notification}
    (horder : Interleaves (m.failNotifications x) order) (hq : q ∈ m.erase x) :
    (reacts E (m.erase x) key (Function.update row x none) order).First q ↔
      ((m.erase x).chain (E.point key)).head? = some q ∨
        order ≠ m.failNotifications x ∧ (m.chain (E.point key))[1]? = some x ∧
          (m.chain (E.point key))[2]? = some q := by
  have hrank : ∀ q c, row q = some c → 1 ≤ c.rank := fun q c hc => (hkept q c hc).2.1
  rcases horder.eq_or_swap (Members.length_failNotifications_le m x) with
    rfl | ⟨a, b, hnotes, rfl, hne⟩
  · exact ((placed_fail hrow hrank hx hsize).first_iff (one_le E) hq).trans
      (or_iff_left fun h => h.1 rfl).symm
  have hswap : [b, a] ≠ m.failNotifications x := by
    rw [hnotes]
    intro h
    exact hne (congrArg Prod.fst (List.cons.inj h).1).symm
  rcases Members.chain_cases hx hsize (E.point key) with ⟨y, seg, hchain⟩ | ⟨pre, w, seg, hchain⟩
  · -- The owner has failed, so the second node of the chain has not.
    have hx₀ : (m.chain (E.point key))[0]? = some x := by rw [hchain]; rfl
    rw [first_fail_owner_swap hrow hnotes hne hchain hq]
    refine (or_iff_left fun h => ?_).symm
    exact absurd (Members.eq_of_getElem?_chain hx₀ h.2.1) Nat.zero_ne_one
  · have hx₀ : (m.chain (E.point key))[pre.length + 1]? = some x := by simp [hchain]
    rw [first_fail_swap_of_chain hrow hkept hnotes hchain hq, and_iff_right hswap]
    refine or_congr_right ?_
    -- The second node has failed if and only if the owner is the one before it.
    cases pre with
    | nil => simp [hchain, List.head?_eq_getElem?]
    | cons o pre =>
      refine iff_of_false (fun h => List.cons_ne_nil _ _ h.1) fun h => ?_
      have := Members.eq_of_getElem?_chain hx₀ h.1
      simp at this

end Row

namespace Cluster

/-! ## Changes of a ring -/

/-- A node joins the ring, or a member fails. -/
inductive Change
  | join (p : Point)
  | fail (p : Point)

namespace Change

/-- What the neighbours are to be told of the change, and the cluster before they are. -/
def apply (c : Cluster) : Change → List Notification × Cluster
  | join p => c.enroll p
  | fail p => (c.crash p).release p

/-- The ring has members before the change and after it. -/
def Admissible (m : Members) : Change → Prop
  | join p => p ∉ m ∧ 1 ≤ m.size
  | fail p => p ∈ m ∧ 2 ≤ m.size

instance {m : Members} : (change : Change) → Decidable (change.Admissible m)
  | join p => inferInstanceAs (Decidable (p ∉ m ∧ 1 ≤ m.size))
  | fail p => inferInstanceAs (Decidable (p ∈ m ∧ 2 ≤ m.size))

/-- The new member owns the key, and the ranks last for the old owner to get a copy from it. -/
def Orphans (E : Setting) (m : Members) (key : String) : Change → Prop
  | join p => (m.insert p).owner (E.point key) = some p ∧ m.size + 2 ≤ E.copies.toNat
  | fail _ => False

/-- The second node of the chain has failed, and the third is at `q`. -/
def Doubles (E : Setting) (m : Members) (key : String) (q : Point) : Change → Prop
  | join _ => False
  | fail p => 3 ≤ m.size ∧ m.step (E.point key) 1 = some p ∧ m.step (E.point key) 2 = some q

end Change

/-- The notifications are handled in the given order: what becomes of each, and the cluster
    after that. -/
def handle (c : Cluster) (order : List Notification) :
    Option (List (Option (Except ReplicationError Reply))) × Cluster :=
  match (deliverAll order).run c with
  | (.done _ results, c) => (some results, c)
  | (.dropped, c) | (.broken, c) => (none, c)

variable {E : Setting} {b : Nat} {c : Cluster} {rows : String → Row}

theorem handle_of_prompt {c c' : Cluster} {order : List Notification}
    {results : List (Option (Except ReplicationError Reply))}
    (h : Timed.Prompt (deliverAll order) c results c') : handle c order = (some results, c') := by
  rw [handle, Timed.run, h 0 none fun _ hc => by cases hc]

/-- The neighbours handle a change in any order. -/
theorem Shows.handle {m : Members} {rows₁ : String → Row} {notes order : List Notification}
    (hs : c.Shows E b rows₁) (hm : c.members = m) (hlength : notes.length ≤ 2)
    (hnotes : ∀ note ∈ notes, note.1 ∈ m ∧ Peers.Tells m note.1 note.2)
    (horder : Interleaves notes order) (hbudget : b + cost E ≤ E.budget) :
    ∃ c', Cluster.handle c order = (some (order.map fun _ => some (.ok .done)), c') ∧
      c'.members = m ∧ c'.Shows E (b + cost E) fun key => (rows₁ key).reacts E m key order := by
  obtain ⟨c', h, hm', hs'⟩ := hs.settle hm (horder.1.length_eq ▸ hlength)
    (fun note hnote => hnotes note (horder.1.mem_iff.1 hnote)) hbudget
  exact ⟨c', handle_of_prompt h, hm', hs'⟩

/-- Only a member can hold the first copy. -/
theorem Shows.mem_of_first {key : String} {q : Point} (hs : c.Shows E b rows)
    (h : (rows key).First q) : q ∈ c.members := by
  by_contra hq
  rw [Row.First, hs.peers.rows_other q hq] at h
  cases h

theorem Shows.rankAt_eq_one_iff {key : String} (hs : c.Shows E b rows) (q : Point) :
    c.rankAt key q = some 1 ↔ (rows key).First q := by
  rw [hs.rankAt_eq, Row.First]

theorem primary_join_iff (hs : c.Shows E b rows) {p : Point} (hp : p ∉ c.members)
    (hsize : 1 ≤ c.members.size) (hbudget : b + cost E ≤ E.budget) {order : List Notification}
    (horder : Interleaves (c.enroll p).1 order) :
    ∃ c', (c.enroll p).2.handle order = (some (order.map fun _ => some (.ok .done)), c') ∧
      ∀ key ∈ E.keys, ∀ v, c.Sits E key v → ∀ q, c'.rankAt key q = some 1 ↔
        c'.members.owner (E.point key) = some q ∧ ¬(order ≠ (c.enroll p).1 ∧
          (c.members.insert p).owner (E.point key) = some p ∧
          c.members.size + 2 ≤ E.copies.toNat) := by
  obtain ⟨hnotes, hm, hs₁⟩ := hs.enroll hp
  rw [hnotes] at horder ⊢
  obtain ⟨c', hhandle, hm', hs'⟩ := hs₁.handle hm (Members.length_joinNotifications_le _ _)
    Members.tells_joinNotifications horder hbudget
  refine ⟨c', hhandle, fun key hkey v hsits q => ?_⟩
  rw [hs'.rankAt_eq_one_iff, hm', Members.owner_eq_head]
  by_cases hq : q ∈ c.members.insert p
  · rw [Row.first_join (hs.placed_of_sits hkey hsits) (hs.kept key) hp hsize horder hq]
    refine and_congr_right fun ho => not_congr (and_congr_right fun _ => ?_)
    rw [ho, Option.some.injEq, eq_comm]
  · exact iff_of_false (fun h => hq (hm' ▸ hs'.mem_of_first h)) fun h =>
      hq (Members.mem_chain.1 (List.mem_of_head? h.1))

theorem primary_fail_iff (hs : c.Shows E b rows) {x : Point} (hx : x ∈ c.members)
    (hsize : 2 ≤ c.members.size) (hbudget : b + cost E ≤ E.budget) {order : List Notification}
    (horder : Interleaves ((c.crash x).release x).1 order) :
    ∃ c', ((c.crash x).release x).2.handle order =
        (some (order.map fun _ => some (.ok .done)), c') ∧
      ∀ key ∈ E.keys, ∀ v, c.Sits E key v → ∀ q, c'.rankAt key q = some 1 ↔
        c'.members.owner (E.point key) = some q ∨ order ≠ ((c.crash x).release x).1 ∧
          3 ≤ c.members.size ∧ c.members.step (E.point key) 1 = some x ∧
          c.members.step (E.point key) 2 = some q := by
  obtain ⟨hnotes, hm, hs₁⟩ := hs.release hx
  rw [hnotes] at horder ⊢
  obtain ⟨c', hhandle, hm', hs'⟩ := hs₁.handle hm (Members.length_failNotifications_le _ _)
    Members.tells_failNotifications horder hbudget
  refine ⟨c', hhandle, fun key hkey v hsits q => ?_⟩
  -- The third node of a chain is met after two steps.
  have hthird : 3 ≤ c.members.size ∧ c.members.step (E.point key) 1 = some x ∧
      c.members.step (E.point key) 2 = some q ↔ (c.members.chain (E.point key))[1]? = some x ∧
        (c.members.chain (E.point key))[2]? = some q := by
    rw [Members.step_eq (show 1 < _ by omega)]
    by_cases h : 3 ≤ c.members.size
    · rw [and_iff_right h, Members.step_eq h]
    · refine iff_of_false (fun h' => h h'.1) fun h' => h ?_
      rw [← Members.length_chain c.members (E.point key)]
      exact (List.getElem?_eq_some_iff.1 h'.2).1
  rw [hs'.rankAt_eq_one_iff, hm', Members.owner_eq_head, hthird]
  by_cases hq : q ∈ c.members.erase x
  · exact Row.first_fail (hs.placed_of_sits hkey hsits) (hs.kept key) hx hsize horder hq
  · refine iff_of_false (fun h => hq (hm' ▸ hs'.mem_of_first h)) ?_
    rintro (h | ⟨-, h₁, h₂⟩)
    · exact hq (Members.mem_chain.1 (List.mem_of_head? h))
    · refine hq (Members.mem_erase.2 ⟨Members.mem_chain.1 (List.mem_of_getElem? h₂), ?_⟩)
      rintro rfl
      exact absurd (Members.eq_of_getElem?_chain h₁ h₂) (by decide)

/-- The neighbours of a node that joins or fails handle what they are told in any order. The
    nodes that hold the first copy afterwards are the owner, unless the neighbours overtake each
    other and leave a new owner without one, and the third of the chain, if they overtake each
    other after the second has failed. -/
theorem primary_iff (hs : c.Shows E b rows) (hbudget : b + cost E ≤ E.budget) (change : Change)
    (hchange : change.Admissible c.members) (order : List Notification)
    (horder : Interleaves (change.apply c).1 order) :
    ∃ c', (change.apply c).2.handle order = (some (order.map fun _ => some (.ok .done)), c') ∧
      ∀ key ∈ E.keys, ∀ v, c.Sits E key v → ∀ q, c'.rankAt key q = some 1 ↔
        c'.members.owner (E.point key) = some q ∧
            ¬(order ≠ (change.apply c).1 ∧ change.Orphans E c.members key) ∨
          order ≠ (change.apply c).1 ∧ change.Doubles E c.members key q := by
  cases change with
  | join p =>
    obtain ⟨c', hhandle, h⟩ := primary_join_iff hs hchange.1 hchange.2 hbudget horder
    refine ⟨c', hhandle, fun key hkey v hsits q => (h key hkey v hsits q).trans ?_⟩
    exact (or_iff_left fun h => h.2).symm
  | fail x =>
    obtain ⟨c', hhandle, h⟩ := primary_fail_iff hs hchange.1 hchange.2 hbudget horder
    refine ⟨c', hhandle, fun key hkey v hsits q => (h key hkey v hsits q).trans ?_⟩
    exact or_congr_left (and_iff_left fun h => h.2).symm

theorem sits_sampleThree :
    ∃ rows, ((Cluster.empty sampleOptions .calm 0).after sampleThree).Shows sampleSetting
        (sampleThree.length * cost sampleSetting) rows ∧
      ((Cluster.empty sampleOptions .calm 0).after sampleThree).members =
        sampleThree.foldl Move.members .empty ∧
      ((Cluster.empty sampleOptions .calm 0).after sampleThree).Sits sampleSetting "c" sampleOld ∧
      rows "c" = Row.moves sampleSetting .empty "c" (fun _ => none) sampleThree := by
  have hadm : AllAdmissible sampleSetting .empty sampleThree := by decide
  obtain ⟨hm, hs⟩ := shows_after_sample hadm (by decide)
  refine ⟨_, hs, hm, hs.sits_of_placed rfl ?_, rfl⟩
  rw [hm, Row.Placed]
  decide +kernel

/-- What the neighbours are told when the node at `sampleB` fails, and the order in which they
    overtake each other. -/
def sampleNotes : List Notification :=
  [(sampleC, .predecessorFailed sampleB (some sampleA)),
    (sampleA, .successorFailed sampleB (some sampleC))]

def sampleOvertaking : List Notification := sampleNotes.reverse

theorem interleaves_sampleOvertaking : Interleaves sampleNotes sampleOvertaking :=
  interleaves_swap (by decide)

theorem primary_iff_sampleB :
    let c := (Cluster.empty sampleOptions .calm 0).after sampleThree
    let change := Change.fail sampleB
    change.Admissible c.members ∧ (change.apply c).1 = sampleNotes ∧
    Interleaves (change.apply c).1 sampleOvertaking ∧ c.Sits sampleSetting "c" sampleOld ∧
    ∃ c', (change.apply c).2.handle sampleOvertaking =
        (some (sampleOvertaking.map fun _ => some (.ok .done)), c') ∧
      ∀ q, c'.rankAt "c" q = some 1 ↔
        c'.members.owner (sampleSetting.point "c") = some q ∧
            ¬(sampleOvertaking ≠ (change.apply c).1 ∧
              change.Orphans sampleSetting c.members "c") ∨
          sampleOvertaking ≠ (change.apply c).1 ∧
            change.Doubles sampleSetting c.members "c" q := by
  intro c change
  obtain ⟨rows, hs, hm, hsits, -⟩ := sits_sampleThree
  have hadm : change.Admissible c.members := by
    rw [hm]
    decide
  have hnotes : (change.apply c).1 = sampleNotes := by
    refine (hs.release hadm.1).1.trans ?_
    rw [hm]
    decide
  have horder : Interleaves (change.apply c).1 sampleOvertaking :=
    hnotes ▸ interleaves_sampleOvertaking
  obtain ⟨c', hhandle, h⟩ := primary_iff hs (by decide) change hadm sampleOvertaking horder
  exact ⟨hadm, hnotes, horder, hsits, c', hhandle, h "c" rfl _ hsits⟩

/-- The node at `sampleA` is told first of the failure of the node behind it, and sends its copy
    to the next node as the second one. That node is told next, and takes the copy for the one
    it is to take over. Both hold the first copy then. -/
theorem doubled_primary :
    let c := (Cluster.empty sampleOptions .calm 0).after sampleThree
    let change := Change.fail sampleB
    change.Admissible c.members ∧ Interleaves (change.apply c).1 sampleOvertaking ∧
    c.Sits sampleSetting "c" sampleOld ∧
    ∃ c', (change.apply c).2.handle sampleOvertaking =
        (some (sampleOvertaking.map fun _ => some (.ok .done)), c') ∧
      c'.members.owner (sampleSetting.point "c") = some sampleA ∧
      c'.rankAt "c" sampleA = some 1 ∧ c'.rankAt "c" sampleC = some 1 ∧
      ¬∀ q, c'.rankAt "c" q = some 1 ↔ c'.members.owner (sampleSetting.point "c") = some q := by
  intro c change
  obtain ⟨rows, hs, hm, hsits, hrow⟩ := sits_sampleThree
  have hadm : change.Admissible c.members := by
    rw [hm]
    decide
  obtain ⟨hnotes, hm₁, hs₁⟩ := hs.release hadm.1
  have hnotes : (change.apply c).1 = sampleNotes := by
    refine hnotes.trans ?_
    rw [hm]
    decide
  obtain ⟨c', hhandle, hm', hs'⟩ := hs₁.handle hm₁ (Members.length_failNotifications_le _ _)
    Members.tells_failNotifications
    (show Interleaves (c.members.failNotifications sampleB) sampleOvertaking by
      rw [hm]
      exact interleaves_sampleOvertaking) (by decide)
  have howner : c'.members.owner (sampleSetting.point "c") = some sampleA := by
    rw [hm', hm]
    decide +kernel
  have hranks : c'.rankAt "c" sampleA = some 1 ∧ c'.rankAt "c" sampleC = some 1 := by
    rw [hs'.rankAt_eq, hs'.rankAt_eq, hrow, hm]
    decide +kernel
  refine ⟨hadm, hnotes ▸ interleaves_sampleOvertaking, hsits, c', hhandle, howner, hranks.1,
    hranks.2, fun h => ?_⟩
  have hboth := ((h sampleC).1 hranks.2).symm.trans howner
  exact absurd hboth (by decide)

end Cluster

end ReplicaRing

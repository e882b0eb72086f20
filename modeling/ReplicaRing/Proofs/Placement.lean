import ReplicaRing.Proofs.Row
import ReplicaRing.Proofs.Run

/-!
# Where copies are placed

On a ring that nodes only leave, every key that was put has its copies on the first nodes of
its chain, one rank after the other, all with the last value, and nowhere else
(`Row.Placed`). A put makes it so (`Row.placed_write`), and a failure keeps it so, wherever in
the chain it strikes (`Row.placed_fail`): all behind the failed node move up by one rank.

`Cluster.placed_after_run` says it of every run of a cluster in which nothing is put before the
ring is built, and nobody joins afterwards.
-/

namespace ReplicaRing

namespace Row

/-- The copies of the ranks from `r` on, up to `n`, on a stretch of length `d`. -/
def placed (n : Nat) (v : Bytes) : (r d : Nat) → List (Option Copy)
  | _, 0 => []
  | r, d + 1 => (if r ≤ n then some ⟨r, v⟩ else none) :: placed n v (r + 1) d

/-- The row has its copies on the first nodes of the chain, and nowhere else. -/
def Placed (n : Nat) (v : Bytes) (m : Members) (k : Point) (row : Row) : Prop :=
  (m.chain k).map row = placed n v 1 m.size

variable {n : Nat} {v : Bytes} {r d : Nat}

theorem length_placed : (placed n v r d).length = d := by
  induction d generalizing r with
  | zero => rfl
  | succ d ih => rw [placed, List.length_cons, ih]

theorem placed_append (a b : Nat) :
    placed n v r (a + b) = placed n v r a ++ placed n v (r + a) b := by
  induction a generalizing r with
  | zero => rw [Nat.zero_add, placed, List.nil_append, Nat.add_zero]
  | succ a ih =>
    have hadd : r + (a + 1) = r + 1 + a := by omega
    rw [Nat.succ_add, placed, placed, ih, List.cons_append, hadd]

theorem getElem?_placed {i : Nat} (hi : i < d) :
    (placed n v r d)[i]? = some (if r + i ≤ n then some ⟨r + i, v⟩ else none) := by
  induction d generalizing r i with
  | zero => exact absurd hi (Nat.not_lt_zero _)
  | succ d ih =>
    cases i with
    | zero => rfl
    | succ i =>
      have hadd : r + (i + 1) = r + 1 + i := by omega
      rw [placed, List.getElem?_cons_succ, ih (Nat.lt_of_succ_lt_succ hi), hadd]

/-- A copy that is sent into a stretch places copies there, if there are none beyond the last
    rank. -/
theorem carry_eq_placed {cells : List (Option Copy)}
    (hcells : ∀ i c, cells[i]? = some (some c) → r + i ≤ n) :
    carry n (if r ≤ n then some ⟨r, v⟩ else none) cells = placed n v r cells.length := by
  induction cells generalizing r with
  | nil => rw [carry_nil]; rfl
  | cons cell cells ih =>
    have hrest : ∀ i c, cells[i]? = some (some c) → r + 1 + i ≤ n := by
      intro i c hc
      have := hcells (i + 1) c hc
      omega
    rw [List.length_cons, placed, ← ih hrest]
    by_cases hr : r ≤ n
    · have hnext : Copy.next n ⟨r, v⟩ = if r + 1 ≤ n then some ⟨r + 1, v⟩ else none := rfl
      rw [if_pos hr, carry, hnext]
    · have hcell : cell = none := by
        cases cell with
        | none => rfl
        | some c => exact absurd (hcells 0 c rfl) hr
      rw [if_neg hr, if_neg (by omega), carry_none, carry_none, hcell]

/-- Of the cells of a stretch those get a copy that the ranks last for. -/
theorem getElem?_carry {cells : List (Option Copy)} {i : Nat} (hi : i < cells.length) :
    (carry n (if r ≤ n then some ⟨r, v⟩ else none) cells)[i]? =
      if r + i ≤ n then some (some ⟨r + i, v⟩) else cells[i]? := by
  induction cells generalizing r i with
  | nil => exact absurd hi (Nat.not_lt_zero _)
  | cons cell cells ih =>
    by_cases hr : r ≤ n
    · have hnext : Copy.next n ⟨r, v⟩ = if r + 1 ≤ n then some ⟨r + 1, v⟩ else none := rfl
      rw [if_pos hr, carry, hnext]
      cases i with
      | zero => simp [hr]
      | succ i =>
        have hadd : r + (i + 1) = r + 1 + i := by omega
        rw [List.getElem?_cons_succ, ih (Nat.lt_of_succ_lt_succ hi), hadd, List.getElem?_cons_succ]
    · rw [if_neg hr, carry_none, if_neg (by omega)]

/-- A node of the stretch gets its copy if the ranks last for it. -/
theorem Spread.copy_at {o p : Point} {seg : List Point} {row row' : Row} {i : Nat}
    {c : Option Copy} (hs : Spread n o seg c row row')
    (hc : c = if r ≤ n then some ⟨r, v⟩ else none) (hi : seg[i]? = some p) :
    row' p = if r + i ≤ n then some ⟨r + i, v⟩ else row p := by
  subst hc
  have hlen : i < (seg.map row).length := by
    rw [List.length_map]
    exact (List.getElem?_eq_some_iff.1 hi).1
  have hcell := congrArg (·[i]?) hs.stretch
  simp only [List.getElem?_map, hi, Option.map_some, getElem?_carry hlen] at hcell
  split_ifs at hcell ⊢ <;> exact Option.some.inj hcell

/-- A node that holds its copy sends the next one on. -/
theorem next_placed (n r : Nat) (v : Bytes) :
    (if r ≤ n then some (⟨r, v⟩ : Copy) else none).bind (Copy.next n) =
      if r + 1 ≤ n then some ⟨r + 1, v⟩ else none := by
  by_cases hr : r ≤ n
  · rw [if_pos hr]
    rfl
  · rw [if_neg hr, if_neg (by omega), Option.bind_none]

/-- A copy in its place does not change the owner's. -/
theorem refresh_spill_placed (n r d : Nat) (v : Bytes) :
    refresh (some ⟨1, v⟩) (spill n (if r ≤ n then some ⟨r, v⟩ else none) d) = some ⟨1, v⟩ := by
  split_ifs with hle
  · exact refresh_spill (c := ⟨r, v⟩) hle 1 d
  · rw [spill_none, refresh_none]

theorem rank_le_of_placed {i : Nat} {c : Copy} (h : (placed n v r d)[i]? = some (some c)) :
    r + i ≤ n ∧ c = ⟨r + i, v⟩ := by
  have hi : i < d := by
    have := (List.getElem?_eq_some_iff.1 h).1
    rwa [length_placed] at this
  rw [getElem?_placed hi, Option.some.injEq] at h
  split at h
  · exact ⟨by assumption, (Option.some.inj h).symm⟩
  · cases h

/-- Copies move up by one rank when the one before them is sent on. -/
theorem carry_placed (r d : Nat) :
    carry n (if r ≤ n then some ⟨r, v⟩ else none) (placed n v (r + 1) d) = placed n v r d := by
  have hrank : ∀ i c, (placed n v (r + 1) d)[i]? = some (some c) → r + i ≤ n := fun i c hc => by
    have := (rank_le_of_placed hc).1
    omega
  rw [carry_eq_placed hrank, length_placed]

variable {E : Setting} {m : Members} {key : String} {k p o w x : Point} {pre seg : List Point}
  {row : Row}

/-- A put places the copies of a key that was not put before, or places them anew. -/
theorem placed_write
    (hrow : (∀ q, row q = none) ∨ ∃ v₀, Placed E.copies.toNat v₀ m (E.point key) row)
    (ho : (m.chain (E.point key)).head? = some o) :
    Placed E.copies.toNat v m (E.point key) (row.write E m key o ⟨1, v⟩) := by
  obtain ⟨seg, hchain⟩ : ∃ seg, m.chain (E.point key) = o :: seg := List.head?_eq_some_iff.1 ho
  have htwo := two_le E
  obtain ⟨howner, hseg⟩ := written row hchain v
  have hsize : m.size = seg.length + 1 := by
    rw [← Members.length_chain m (E.point key), hchain, List.length_cons]
  have hbeyond : ∀ i c, (seg.map row)[i]? = some (some c) → 2 + i ≤ E.copies.toNat := by
    intro i c hc
    rcases hrow with hnone | ⟨v₀, hplaced⟩
    · rw [List.getElem?_map, Option.map_eq_some_iff] at hc
      obtain ⟨q, -, hq⟩ := hc
      rw [hnone] at hq
      cases hq
    · rw [Placed, hchain, hsize, List.map_cons, placed] at hplaced
      rw [(List.cons.inj hplaced).2] at hc
      exact (rank_le_of_placed hc).1
  have hcarry := carry_eq_placed (v := v) hbeyond
  rw [if_pos htwo] at hcarry
  rw [Placed, hchain, hsize, List.map_cons, hseg, howner, hcarry, List.length_map, placed,
    if_pos (by omega)]

/-- What is before a node of the chain, and what is behind it. -/
theorem placed_split {as bs : List Point}
    (h : (as ++ x :: bs).map row = placed n v 1 (as ++ x :: bs).length) :
    as.map row = placed n v 1 as.length ∧ bs.map row = placed n v (as.length + 2) bs.length := by
  have hadd : 1 + as.length + 1 = as.length + 2 := by omega
  rw [List.map_append, List.length_append, List.length_cons, placed_append, List.map_cons, placed,
    hadd] at h
  obtain ⟨h₁, h₂⟩ := List.append_inj h (by rw [length_placed, List.length_map])
  exact ⟨h₁, (List.cons.inj h₂).2⟩

theorem Placed.copy_at (hrow : Placed n v m k row) {i : Nat} (hi : (m.chain k)[i]? = some p) :
    row p = if i + 1 ≤ n then some ⟨i + 1, v⟩ else none := by
  have hlt : i < m.size := by
    rw [← Members.length_chain m k]
    exact (List.getElem?_eq_some_iff.1 hi).1
  have h := congrArg (·[i]?) hrow
  simp only [List.getElem?_map, hi, Option.map_some, getElem?_placed hlt, Option.some.injEq] at h
  rw [h, Nat.add_comm 1]

theorem Placed.owner (hrow : Placed n v m k row) (hn : 1 ≤ n)
    (ho : (m.chain k).head? = some o) : row o = some ⟨1, v⟩ := by
  rw [List.head?_eq_getElem?] at ho
  rw [hrow.copy_at ho, if_pos hn]

theorem one_le (E : Setting) : 1 ≤ E.copies.toNat := Nat.le_of_succ_le (two_le E)

theorem Placed.value_eq (hrow : Placed n v m k row) {q : Point} (hq : q ∈ m) {c : Copy}
    (hc : row q = some c) : c.value = v := by
  obtain ⟨i, hi⟩ := List.mem_iff_getElem?.1 (Members.mem_chain (k := k).2 hq)
  rw [hrow.copy_at hi] at hc
  split_ifs at hc
  rw [← Option.some.inj hc]

/-- The copies are in their places again once the node before a failed one has sent its copy to
    those behind it. -/
theorem placed_of_spread (hrow : Placed n v m k row) (hn : 1 ≤ n)
    (hchain : m.chain k = pre ++ w :: x :: seg) (ho : (m.chain k).head? = some o) {row' : Row}
    (hs : Spread n o seg ((row w).bind (Copy.next n)) (Function.update row x none) row') :
    Placed n v (m.erase x) k row' := by
  have hchain' : m.chain k = (pre ++ [w]) ++ x :: seg := by rw [hchain]; simp
  have hleft := Members.chain_erase_of_chain hchain'
  have hhead : (pre ++ [w]).head? = some o := by
    rw [hchain'] at ho
    cases pre <;> exact ho
  have hnodup := m.nodup_chain k
  rw [hchain', List.nodup_append, List.nodup_cons] at hnodup
  obtain ⟨-, ⟨hxseg, -⟩, hdis⟩ := hnodup
  obtain ⟨hbefore, hbehind⟩ : (pre ++ [w]).map row = placed n v 1 (pre.length + 1) ∧
      seg.map row = placed n v (pre.length + 3) seg.length := by
    have h := hrow
    rw [Placed, ← Members.length_chain m k, hchain'] at h
    have h := placed_split h
    rwa [List.length_append, List.length_singleton] at h
  have hw : (row w).bind (Copy.next n) =
      if pre.length + 2 ≤ n then some ⟨pre.length + 2, v⟩ else none := by
    have hi : (m.chain k)[pre.length]? = some w := by simp [hchain]
    rw [hrow.copy_at hi, next_placed]
  have hheld := hrow.owner hn ho
  have hstay : ∀ q, q ≠ x → Function.update row x none q = row q := fun q hq =>
    Function.update_of_ne hq _ _
  rw [hw] at hs
  -- The row falls into the owner, the nodes behind it up to `w`, and those behind the failed one.
  have howner : row' o = some ⟨1, v⟩ := by
    rw [hs.owner, hstay o (hdis o (List.mem_of_head? hhead) x List.mem_cons_self), hheld,
      refresh_spill_placed]
  have hfront : (pre ++ [w]).map row' = (pre ++ [w]).map row := by
    refine List.map_congr_left fun q hq => ?_
    by_cases hqo : q = o
    · rw [hqo, howner, hheld]
    · have hqseg : q ∉ seg := fun h => hdis q hq q (List.mem_cons_of_mem _ h) rfl
      rw [hs.other q hqo hqseg, hstay q (hdis q hq x List.mem_cons_self)]
  have hback : seg.map row' = placed n v (pre.length + 2) seg.length := by
    rw [hs.stretch, map_update hxseg, hbehind, carry_placed]
  have hsize' : (m.erase x).size = (pre.length + 1) + seg.length := by
    rw [← Members.length_chain (m.erase x) k, hleft, List.length_append, List.length_append,
      List.length_singleton]
  have happend := placed_append (n := n) (v := v) (r := 1) (pre.length + 1) seg.length
  have hadd : 1 + (pre.length + 1) = pre.length + 2 := by omega
  rw [Placed, hleft, List.map_append, hfront, hback, hbefore, hsize', happend, hadd]

/-- The failure of a node that is not the owner moves the copies behind it up. -/
theorem placed_fail_of_chain (hrow : Placed E.copies.toNat v m (E.point key) row)
    (hrank : ∀ q c, row q = some c → 1 ≤ c.rank)
    (hchain : m.chain (E.point key) = pre ++ w :: x :: seg) :
    Placed E.copies.toNat v (m.erase x) (E.point key) (row.move E m key (.fail x)) := by
  obtain ⟨o, ho⟩ := Members.exists_head_chain hchain
  obtain ⟨row₁, hnil, hcons, hs⟩ :=
    spread_fail hchain ho (hrow.owner (one_le E) ho) rfl hrank
  -- Nobody takes over, as the second copy is on the node behind the owner.
  have hrow₁ : row₁ = Function.update row x none := by
    cases seg with
    | nil => exact hnil rfl
    | cons y seg =>
      refine (hcons y seg rfl).2 fun c hc => ?_
      have hyx : y ≠ x := (Members.ne_of_chain (by rw [hchain, List.append_cons])).symm
      have hy : (m.chain (E.point key))[pre.length + 2]? = some y := by simp [hchain]
      rw [Function.update_of_ne hyx, hrow.copy_at hy] at hc
      split_ifs at hc
      rw [← Option.some.inj hc]
      show pre.length + 2 + 1 ≠ 2
      omega
  rw [hrow₁, Function.update_of_ne (Members.ne_of_chain hchain)] at hs
  exact placed_of_spread hrow (one_le E) hchain ho hs

/-- The copies are in their places again once the node behind a failed owner has become the
    owner and has sent on the second copy. -/
theorem placed_of_spread_owner {y : Point} (hrow : Placed n v m k row) (hn : 2 ≤ n)
    (hchain : m.chain k = x :: y :: seg) {row' : Row}
    (hs : Spread n y seg (some ⟨2, v⟩)
      (Function.update (Function.update row x none) y (some ⟨1, v⟩)) row') :
    Placed n v (m.erase x) k row' := by
  have hleft : (m.erase x).chain k = y :: seg := Members.chain_erase_of_head hchain
  have hsize : m.size = seg.length + 1 + 1 := by
    rw [← Members.length_chain m k, hchain, List.length_cons, List.length_cons]
  have hsize' : (m.erase x).size = seg.length + 1 := by
    rw [← Members.length_chain (m.erase x) k, hleft, List.length_cons]
  have hnodup := m.nodup_chain k
  rw [hchain, List.nodup_cons, List.nodup_cons] at hnodup
  obtain ⟨hx, hy, -⟩ := hnodup
  rw [Placed, hchain, hsize, List.map_cons, List.map_cons, placed, placed] at hrow
  have hbehind : seg.map row = placed n v 3 seg.length := (List.cons.inj (List.cons.inj hrow).2).2
  obtain ⟨howner, hstretch⟩ := hs.of_owner hn hy
  rw [map_update fun h => hx (List.mem_cons_of_mem _ h), hbehind] at hstretch
  have hcarry := carry_placed (n := n) (v := v) 2 seg.length
  rw [if_pos hn] at hcarry
  rw [Placed, hleft, hsize', List.map_cons, howner, hstretch, hcarry, placed, if_pos (by omega)]

/-- The failure of the owner makes the node behind it the owner. -/
theorem placed_fail_owner {y : Point} (hrow : Placed E.copies.toNat v m (E.point key) row)
    (hrank : ∀ q c, row q = some c → 1 ≤ c.rank)
    (hchain : m.chain (E.point key) = x :: y :: seg) :
    Placed E.copies.toNat v (m.erase x) (E.point key) (row.move E m key (.fail x)) := by
  have htwo := two_le E
  have hleft : (m.erase x).chain (E.point key) = y :: seg :=
    Members.chain_erase_of_head hchain
  have hc : row y = some ⟨2, v⟩ := by
    have hy : (m.chain (E.point key))[1]? = some y := by rw [hchain]; rfl
    rw [hrow.copy_at hy, if_pos htwo]
  obtain ⟨w, hlast⟩ : ∃ w, (y :: seg).getLast? = some w := ⟨_, List.getLast?_cons⟩
  obtain ⟨row₁, hs₁, hs⟩ := spread_fail_owner hchain hlast hc rfl hrank
  have hrow₁ := placed_of_spread_owner hrow htwo hchain hs₁
  -- All that comes round to the new owner is the last value.
  have hfinal : ∀ q ∈ y :: seg, row.move E m key (.fail x) q = row₁ q := by
    intro q hq
    by_cases hqy : q = y
    · have hw : w ∈ m.erase x :=
        Members.mem_chain.1 (hleft.symm ▸ List.mem_of_getLast? hlast)
      rw [hqy, hs.owner, hrow₁.owner (one_le E) (by rw [hleft]; rfl)]
      exact refresh_next (fun c hc => hrow₁.value_eq hw hc) 1
    · exact hs.other q hqy List.not_mem_nil
  rw [Placed, hleft, List.map_congr_left hfinal, ← hleft]
  exact hrow₁

/-- A failure keeps the copies in their places. -/
theorem placed_fail (hrow : Placed E.copies.toNat v m (E.point key) row)
    (hrank : ∀ q c, row q = some c → 1 ≤ c.rank) (hx : x ∈ m) (hsize : 2 ≤ m.size) :
    Placed E.copies.toNat v (m.erase x) (E.point key) (row.move E m key (.fail x)) := by
  rcases Members.chain_cases hx hsize (E.point key) with ⟨y, seg, hchain⟩ | ⟨pre, w, seg, hchain⟩
  · exact placed_fail_owner hrow hrank hchain
  · exact placed_fail_of_chain hrow hrank hchain

/-- A key that was never put has no copies, and any other has them in their places. -/
def Orderly (E : Setting) (key : String) (m : Members) (row : Row) : Option Bytes → Prop
  | none => row = fun _ => none
  | some v => Placed E.copies.toNat v m (E.point key) row

/-- Every move keeps a row orderly, except that nobody may join once the key was put. -/
theorem Orderly.move {last : Option Bytes} {mv : Cluster.Move}
    (h : Orderly E key m row last) (hkept : row.Kept E m) (hadm : mv.Admissible E m)
    (hjoin : ∀ p, mv = .join p → last = none) :
    Orderly E key (mv.members m) (row.move E m key mv) (mv.write key last) := by
  have hrank : ∀ q c, row q = some c → 1 ≤ c.rank := fun q c hc => (hkept q c hc).2.1
  cases mv with
  | clock now => exact h
  | get via key' => exact h
  | join p =>
    obtain rfl := hjoin p rfl
    -- Nobody holds a copy, so none changes hands.
    cases (show row = fun _ => none from h)
    exact move_none _ fun _ _ h => by cases h
  | fail x =>
    cases last with
    | none =>
      cases (show row = fun _ => none from h)
      exact move_none _ fun _ _ h => by cases h
    | some v => exact placed_fail h hrank hadm.1 hadm.2
  | put via key' value =>
    by_cases hk : key = key'
    · have hold : (∀ q, row q = none) ∨
          ∃ v₀, Placed E.copies.toNat v₀ m (E.point key) row := by
        cases last with
        | none => exact .inl (congrFun h)
        | some v₀ => exact .inr ⟨v₀, h⟩
      rw [Row.move, if_pos hk, Cluster.Move.write, if_pos hk]
      exact placed_write hold (Cluster.head_chain_target key via hadm.1)
    · rw [Row.move, if_neg hk, Cluster.Move.write, if_neg hk]
      exact h
  | delete via key' =>
    by_cases hk : key = key'
    · rw [Row.move, if_pos hk, Cluster.Move.write, if_pos hk]
      cases last with
      | none =>
        cases (show row = fun _ => none from h)
        rfl
      | some v =>
        rw [h.owner (one_le E) (Cluster.head_chain_target key via hadm.1)]
        exact placed_write (.inr ⟨v, h⟩) (Cluster.head_chain_target key via hadm.1)
    · rw [Row.move, if_neg hk, Cluster.Move.write, if_neg hk]
      exact h

end Row

namespace Cluster

variable {E : Setting} {o : ClusterOptions} {now : Time} {build mvs : List Move} {key : String}
  {v : Bytes}

/-- The key sits on the first nodes of its chain, in the order of their ranks and with the value
    `v`, and nowhere else. -/
structure Sits (E : Setting) (c : Cluster) (key : String) (v : Bytes) : Prop where
  chain : ∀ i < min E.copies.toNat c.members.size, ∃ p, c.members.step (E.point key) i = some p ∧
    c.rankAt key p = some (i + 1) ∧ c.valueAt key p = some v
  other : ∀ p, (∀ i < min E.copies.toNat c.members.size,
    c.members.step (E.point key) i ≠ some p) → c.rankAt key p = none

variable {b : Nat} {c : Cluster} {rows : String → Row}

theorem Shows.sits_of_placed (hs : c.Shows E b rows) (hkey : key ∈ E.keys)
    (h : Row.Placed E.copies.toNat v c.members (E.point key) (rows key)) : c.Sits E key v where
  chain i hi := by
    have hlt : i < (c.members.chain (E.point key)).length := by
      rw [Members.length_chain]
      omega
    have hp := List.getElem?_eq_getElem hlt
    have hcopy := h.copy_at hp
    rw [if_pos (by omega)] at hcopy
    refine ⟨_, (Members.step_eq (by omega)).trans hp, ?_, ?_⟩
    · rw [hs.rankAt_eq, hcopy]
      rfl
    · rw [hs.valueAt_eq hkey, hcopy]
      rfl
  other p hp := by
    rw [hs.rankAt_eq, Option.map_eq_none_iff]
    by_cases hmem : p ∈ c.members
    · obtain ⟨i, hi⟩ := List.mem_iff_getElem?.1 (Members.mem_chain (k := E.point key).2 hmem)
      have hlt : i < c.members.size := by
        rw [← Members.length_chain c.members (E.point key)]
        exact (List.getElem?_eq_some_iff.1 hi).1
      rw [h.copy_at hi]
      refine if_neg fun hle => hp i (by omega) ?_
      rw [Members.step_eq hlt, hi]
    · exact hs.peers.rows_other p hmem key

theorem Shows.placed_of_sits (hs : c.Shows E b rows) (hkey : key ∈ E.keys)
    (h : c.Sits E key v) :
    Row.Placed E.copies.toNat v c.members (E.point key) (rows key) := by
  refine List.ext_getElem? fun i => ?_
  by_cases hi : i < c.members.size
  · have hlt : i < (c.members.chain (E.point key)).length := by rwa [Members.length_chain]
    have hstep := Members.step_eq (k := E.point key) hi
    rw [List.getElem?_eq_getElem hlt] at hstep
    rw [List.getElem?_map, List.getElem?_eq_getElem hlt, Row.getElem?_placed hi, Option.map_some,
      Nat.add_comm 1]
    split_ifs with hle
    · obtain ⟨p, hp, hrank, hvalue⟩ := h.chain i (by omega)
      rw [hstep, Option.some.injEq] at hp
      rw [hp]
      rw [hs.rankAt_eq, Option.map_eq_some_iff] at hrank
      rw [hs.valueAt_eq hkey, Option.map_eq_some_iff] at hvalue
      obtain ⟨copy, hcopy, hrank⟩ := hrank
      obtain ⟨copy', hcopy', hvalue⟩ := hvalue
      obtain rfl := Option.some.inj (hcopy.symm.trans hcopy')
      rw [hcopy, ← hrank, ← hvalue]
    · -- Behind the last copy: this node is none of those that hold one.
      have hnone := h.other (c.members.chain (E.point key))[i] fun j hj he => by
        have hjlt : j < (c.members.chain (E.point key)).length := by
          rw [Members.length_chain]
          omega
        rw [Members.step_eq (by omega), List.getElem?_eq_getElem hjlt, Option.some.injEq] at he
        have := (List.Nodup.getElem_inj_iff (c.members.nodup_chain _)).1 he
        omega
      rw [hs.rankAt_eq, Option.map_eq_none_iff] at hnone
      rw [hnone]
  · rw [List.getElem?_eq_none, List.getElem?_eq_none]
    · rw [Row.length_placed]
      omega
    · rw [List.length_map, Members.length_chain]
      omega

theorem foldl_write_none (hbuild : ∀ mv ∈ build, ∀ via value, mv ≠ .put via key value) :
    build.foldl (Move.write key) none = none := by
  induction build with
  | nil => rfl
  | cons mv build ih =>
    rw [List.foldl_cons, Move.write_none (hbuild mv List.mem_cons_self)]
    exact ih fun mv' h => hbuild mv' (List.mem_cons_of_mem _ h)

/-- On a ring that was built before the first put, and that nobody joins afterwards, every move
    succeeds, and the copies of each key that was put are on the first nodes of its chain, in
    the order of their ranks and with the last value, and nowhere else. -/
theorem placed_after_run (hspace : o.space = E.space) (hcopies : o.copies = E.copies)
    (hlistening : o.listening = false) (hnow : now.toNat ≤ E.latest)
    (hadm : AllAdmissible E .empty (build ++ mvs))
    (hbuild : ∀ mv ∈ build, ∀ via key value, mv ≠ .put via key value)
    (hmvs : ∀ mv ∈ mvs, ∀ p, mv ≠ .join p)
    (hbudget : (build ++ mvs).length * cost E ≤ E.budget) :
    (∀ a ∈ (Cluster.empty o .calm now).answers (build ++ mvs), ∃ a', a = some a' ∧ a'.Succeeds) ∧
    ∀ key ∈ E.keys, ∀ v, lastWrite key (build ++ mvs) = some v →
      let c := (Cluster.empty o .calm now).after (build ++ mvs)
      (∀ i < min E.copies.toNat c.members.size, ∃ p, c.members.step (E.point key) i = some p ∧
        c.rankAt key p = some (i + 1) ∧ c.valueAt key p = some v) ∧
      ∀ p, (∀ i < min E.copies.toNat c.members.size, c.members.step (E.point key) i ≠ some p) →
        c.rankAt key p = none := by
  have hs₀ : (Cluster.empty o .calm now).Shows E 0 fun _ _ => none :=
    shows_empty hspace hcopies hlistening hnow
  refine ⟨(hs₀.run hadm (by rwa [Nat.zero_add])).2.2, fun key hkey v hlast => ?_⟩
  intro c
  obtain ⟨hadm₁, hadm₂⟩ := allAdmissible_append.1 hadm
  rw [List.length_append, Nat.add_mul] at hbudget
  -- Nothing is put while the ring is built, and nobody joins afterwards.
  obtain ⟨hm₁, hs₁, -⟩ := hs₀.run hadm₁ (by omega)
  obtain ⟨-, horderly₁⟩ := hs₀.run_row
    (fun m row last => last = none ∧ Row.Orderly E key m row last) key
    (fun m row last mv hmv hkept hmv' h => by
      obtain ⟨rfl, horderly⟩ := h
      have hwrite := Move.write_none fun via value => hbuild mv hmv via key value
      exact ⟨hwrite, horderly.move hkept hmv' fun _ _ => rfl⟩)
    hadm₁ (by omega) ⟨rfl, rfl⟩
  have hnone : build.foldl (Move.write key) none = none :=
    foldl_write_none fun mv h via value => hbuild mv h via key value
  rw [hnone] at horderly₁
  have hm₁' : (Cluster.empty o .calm now).members = .empty := rfl
  rw [hm₁'] at hm₁ hs₁ horderly₁
  rw [← hm₁] at hadm₂ horderly₁
  obtain ⟨hm₂, hs₂, -⟩ := hs₁.run hadm₂ (by omega)
  have horderly₂ := hs₁.run_row (Row.Orderly E key) key
    (fun m row last mv hmv hkept hmv' h =>
      h.move hkept hmv' fun p hp => absurd hp (hmvs mv hmv p))
    hadm₂ (by omega) horderly₁
  rw [← hm₂] at horderly₂
  have hlast' : mvs.foldl (Move.write key) none = some v := by
    rwa [lastWrite, List.foldl_append, hnone] at hlast
  rw [hlast', ← after_append] at horderly₂
  rw [← after_append] at hs₂
  have hs : c.Shows E _ _ := hs₂
  obtain ⟨hchain, hother⟩ := hs.sits_of_placed hkey horderly₂
  exact ⟨hchain, hother⟩

/-- Three nodes join, and after two writes the one at `sampleB` fails. -/
def sampleBuild : List Move := [.join sampleA, .join sampleB, .join sampleC]

def sampleFailure : List Move :=
  [.put sampleA "c" sampleOld, .delete sampleB "c", .fail sampleB, .put sampleA "c" sampleNew,
    .fail sampleA]

theorem placed_after_sampleFailure :
    AllAdmissible sampleSetting .empty (sampleBuild ++ sampleFailure) ∧
    (sampleBuild ++ sampleFailure).length * cost sampleSetting ≤ sampleSetting.budget ∧
    lastWrite "c" (sampleBuild ++ sampleFailure) = some sampleNew ∧
    let c := (Cluster.empty sampleOptions .calm 0).after (sampleBuild ++ sampleFailure)
    (∀ i < min sampleSetting.copies.toNat c.members.size,
      ∃ p, c.members.step (sampleSetting.point "c") i = some p ∧
        c.rankAt "c" p = some (i + 1) ∧ c.valueAt "c" p = some sampleNew) ∧
    ∀ p, (∀ i < min sampleSetting.copies.toNat c.members.size,
        c.members.step (sampleSetting.point "c") i ≠ some p) → c.rankAt "c" p = none := by
  have hadm : AllAdmissible sampleSetting .empty (sampleBuild ++ sampleFailure) := by decide
  refine ⟨hadm, by decide, rfl, (placed_after_run rfl rfl rfl (by decide) hadm ?_ ?_ (by decide)).2
    "c" rfl sampleNew rfl⟩
  · intro mv hmv via key value e
    subst e
    simp [sampleBuild] at hmv
  · intro mv hmv p e
    subst e
    simp [sampleFailure] at hmv

end Cluster

end ReplicaRing

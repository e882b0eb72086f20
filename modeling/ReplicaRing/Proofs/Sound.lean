import ReplicaRing.Proofs.Row
import ReplicaRing.Proofs.Run

/-!
# Sound rows

A join leaves old copies behind: those on the nodes that are no longer among the first of the
chain. Later puts do not reach them, and so they are *stale*. An old copy keeps its rank, and a
node that repairs a chain sends it on like any other. If it comes round to the owner of its
key, the owner takes it for the last value, and the last write is lost.

A move of the ring *endangers* a key if it sends a stale copy round to the owner
(`Row.Endangers`). Until then the row of the key is *sound* (`Row.Sound`): the owner holds the
first copy, the node behind it the second, and behind each copy of a value there is a copy of
the same value that has the next rank at most, up to the last rank. A move that does not
endanger the key keeps it so, and after one that does the owner does not hold the last value
any more: `Row.sound_write` for puts, `Row.Sound.join`, `Row.Sound.join_owner`, `Row.Sound.fail`
and `Row.Sound.fail_owner` for the moves of the ring, and `Row.Sound.move` for all of them.
-/

namespace ReplicaRing

/-- The number of steps from successor to successor that lead from `q` round to the owner of
    what is placed at `k`. -/
def Members.distance (m : Members) (k q : Point) : Nat := m.size - (m.chain k).idxOf q

theorem Members.distance_of_chain {m : Members} {k q : Point} {as bs : List Point}
    (h : m.chain k = as ++ q :: bs) : m.distance k q = bs.length + 1 := by
  have hn := m.nodup_chain k
  rw [h, List.nodup_append] at hn
  have hq : q ∉ as := fun hq => hn.2.2 q hq q List.mem_cons_self rfl
  have hsize := m.length_chain k
  rw [h, List.length_append, List.length_cons] at hsize
  rw [distance, h, List.idxOf_append_of_notMem hq, List.idxOf_cons_self, ← hsize]
  omega

namespace Row

/-! ## Sound rows -/

/-- Behind the copy `a` there is a copy of the same value with the next rank at most, unless
    the rank is the last one. -/
def Follows (n : Nat) (a b : Option Copy) : Prop :=
  ∀ c, a = some c → c.rank = n ∨ ∃ c', b = some c' ∧ c'.rank ≤ c.rank + 1 ∧ c'.value = c.value

/-- The owner holds the first copy and the node behind it the second, both with the last value
    `v`, and each copy is followed by one of its value. -/
structure Sound (n : Nat) (v : Bytes) (m : Members) (k : Point) (row : Row) : Prop where
  owner : ∀ o, (m.chain k).head? = some o → row o = some ⟨1, v⟩
  second : ∀ y, (m.chain k)[1]? = some y → row y = some ⟨2, v⟩
  follows : ((m.chain k).map row).IsChain (Follows n)

/-- There is an owner, and it does not hold the last value `v`. -/
def Lost (v : Bytes) (m : Members) (k : Point) (row : Row) : Prop :=
  ∃ o, (m.chain k).head? = some o ∧ (row o).map (·.value) ≠ some v

variable {n : Nat} {v : Bytes} {m : Members} {k o p w x y : Point} {pre seg : List Point}
  {row row₁ : Row}

theorem follows_carry {a : Option Copy} (ha : ∀ c, a = some c → c.rank ≤ n)
    (cells : List (Option Copy)) :
    ∀ b ∈ (carry n (a.bind (Copy.next n)) cells).head?, Follows n a b := by
  intro b hb c hc
  subst hc
  have hle := ha c rfl
  rw [Option.bind_some, Copy.next] at hb
  by_cases hlt : c.rank < n
  · cases cells with
    | nil =>
      rw [carry_nil] at hb
      cases hb
    | cons cell cells =>
      rw [if_pos hlt, carry, List.head?_cons, Option.mem_some_iff] at hb
      exact .inr ⟨_, hb.symm, le_rfl, rfl⟩
  · exact .inl (by omega)

theorem isChain_carry {cells : List (Option Copy)} (h : cells.IsChain (Follows n))
    {c : Option Copy} (hc : ∀ c', c = some c' → c'.rank ≤ n) :
    (carry n c cells).IsChain (Follows n) := by
  induction cells generalizing c with
  | nil =>
    rw [carry_nil]
    exact .nil
  | cons cell cells ih =>
    cases c with
    | none =>
      rw [carry_none]
      exact h
    | some c =>
      rw [carry, List.isChain_cons]
      exact ⟨follows_carry (a := some c) hc cells,
        ih (List.isChain_cons.1 h).2 fun c' hc' => (Copy.rank_of_next hc').2⟩

/-- A row is sound if its first part is, and the copy at the end of that is carried on. -/
theorem sound_of_carry (hn : 2 ≤ n) (hchain : m.chain k = pre ++ w :: seg)
    (howner : ∀ o, (pre ++ [w]).head? = some o → row o = some ⟨1, v⟩)
    (hsecond : ∀ y, (pre ++ [w])[1]? = some y → row y = some ⟨2, v⟩)
    (hfront : ((pre ++ [w]).map row).IsChain (Follows n)) {cells : List (Option Copy)}
    (hcells : cells.IsChain (Follows n))
    (hback : seg.map row = carry n ((row w).bind (Copy.next n)) cells)
    (hle : ∀ c, row w = some c → c.rank ≤ n) : Sound n v m k row := by
  have hchain' : m.chain k = (pre ++ [w]) ++ seg := by rw [hchain]; simp
  refine ⟨fun o ho => howner o ?_, fun y hy => ?_, ?_⟩
  · rw [hchain'] at ho
    cases pre <;> exact ho
  · cases pre with
    | nil =>
      -- The second copy is the first that is carried on.
      have hw := howner w rfl
      cases seg with
      | nil =>
        rw [hchain] at hy
        cases hy
      | cons z seg =>
        rw [hchain] at hy
        cases hy
        cases cells with
        | nil =>
          rw [carry_nil] at hback
          cases hback
        | cons cell cells =>
          have hnext : Copy.next n ⟨1, v⟩ = some ⟨2, v⟩ := if_pos (by show 1 < n; omega)
          rw [hw, Option.bind_some, hnext, List.map_cons, carry] at hback
          exact (List.cons.inj hback).1
    | cons a pre =>
      refine hsecond y ?_
      rw [hchain', List.getElem?_append_left (by simp)] at hy
      exact hy
  · rw [hchain', List.map_append]
    refine hfront.append (hback ▸ isChain_carry hcells fun c' hc' => ?_) fun a ha b hb => ?_
    · obtain ⟨c, -, hc⟩ := Option.bind_eq_some_iff.1 hc'
      exact (Copy.rank_of_next hc).2
    · rw [List.map_append, List.map_singleton, List.getLast?_concat, Option.mem_some_iff] at ha
      subst ha
      rw [hback] at hb
      exact follows_carry hle cells b hb

/-- A row is sound if the owner holds the first copy, and the second is carried on. -/
theorem sound_of_owner (hn : 2 ≤ n) (hchain : m.chain k = o :: seg) (ho : row o = some ⟨1, v⟩)
    {cells : List (Option Copy)} (hcells : cells.IsChain (Follows n))
    (hback : seg.map row = carry n (some ⟨2, v⟩) cells) : Sound n v m k row := by
  have hnext : (row o).bind (Copy.next n) = some ⟨2, v⟩ := by
    rw [ho]
    exact if_pos hn
  have hchain' : m.chain k = [] ++ o :: seg := hchain
  refine sound_of_carry hn hchain' (fun a ha => ?_) (fun y hy => ?_)
    (List.isChain_singleton _) hcells (by rw [hback, hnext]) fun c hc => ?_
  · cases ha
    exact ho
  · cases hy
  · rw [ho] at hc
    cases hc
    show 1 ≤ n
    omega

/-- A sound row stays sound if nothing changes up to some node, and the copy of that is carried
    on. -/
theorem Sound.of_carry (h : Sound n v m k row) (hn : 2 ≤ n) {m' : Members} {rest : List Point}
    (hchain : m.chain k = (pre ++ [w]) ++ rest) (hchain' : m'.chain k = pre ++ w :: seg)
    (hrow : ∀ q ∈ pre ++ [w], row₁ q = row q) {cells : List (Option Copy)}
    (hcells : cells.IsChain (Follows n))
    (hback : seg.map row₁ = carry n ((row w).bind (Copy.next n)) cells)
    (hle : ∀ c, row w = some c → c.rank ≤ n) : Sound n v m' k row₁ := by
  have hw := hrow w (by simp)
  have hfollows := h.follows
  rw [hchain, List.map_append] at hfollows
  refine sound_of_carry hn hchain' (fun o ho => ?_) (fun y hy => ?_) ?_ hcells ?_ ?_
  · rw [hrow o (List.mem_of_head? ho)]
    exact h.owner o (by rw [hchain, List.head?_append, ho, Option.some_or])
  · rw [hrow y (List.mem_of_getElem? hy)]
    refine h.second y ?_
    rw [hchain, List.getElem?_append_left (List.getElem?_eq_some_iff.1 hy).1, hy]
  · rw [List.map_congr_left hrow]
    exact hfollows.left_of_append
  · rw [hback, hw]
  · rw [hw]
    exact hle

/-! ## Stale copies -/

/-- The copy that `q` holds is stale, and would come round to the owner if `q` sent it on. -/
def Strays (n : Nat) (v : Bytes) (m : Members) (k : Point) (row : Row) (q : Point) : Prop :=
  ∃ c, row q = some c ∧ c.value ≠ v ∧ c.rank + m.distance k q ≤ n

/-- The move sends a stale copy round to the owner of the key, whose last value is `v`. If `p`
    joins, the node before it sends its copy on. If `x` fails, the node before it does so too,
    except that it has got a new copy if it is within reach of the new owner; and before that
    the node behind `x` sends on its second copy, which has become a first one. -/
def Endangers (E : Setting) (key : String) (v : Bytes) (m : Members) (row : Row) :
    Cluster.Move → Prop
  | .join p => ∃ w, (m.insert p).predecessor p = some w ∧
    Strays E.copies.toNat v (m.insert p) (E.point key) row w
  | .fail x =>
    (∃ y c, m.successor x = some y ∧ row y = some c ∧ c.rank = 2 ∧ c.value ≠ v ∧
      1 + (m.erase x).distance (E.point key) y ≤ E.copies.toNat) ∨
    ∃ w, m.predecessor x = some w ∧ Strays E.copies.toNat v (m.erase x) (E.point key) row w ∧
      ¬(m.owner (E.point key) = some x ∧ (m.erase x).size ≤ E.copies.toNat)
  | _ => False

/-- A stale copy comes out of a stretch if the ranks last. -/
theorem spill_stale_iff {c : Copy} (hc : c.rank ≤ n) (d : Nat) :
    (∃ c', spill n (some c) d = some c' ∧ c'.value ≠ v) ↔ c.value ≠ v ∧ c.rank + d ≤ n := by
  rw [spill_some hc]
  constructor
  · rintro ⟨c', hc', hv⟩
    split at hc'
    · cases hc'
      exact ⟨hv, by assumption⟩
    · cases hc'
  · rintro ⟨hv, hd⟩
    exact ⟨_, if_pos hd, hv⟩

/-- A copy strays if it comes out of what is behind it. -/
theorem strays_iff (hchain : m.chain k = pre ++ w :: seg)
    (hle : ∀ c, row w = some c → c.rank ≤ n) :
    Strays n v m k row w ↔
      ∃ c, spill n ((row w).bind (Copy.next n)) seg.length = some c ∧ c.value ≠ v := by
  have hspill : spill n ((row w).bind (Copy.next n)) seg.length =
      spill n (row w) (seg.length + 1) := rfl
  rw [hspill, Strays, Members.distance_of_chain hchain]
  cases hw : row w with
  | none => simp
  | some c =>
    rw [spill_stale_iff (hle c hw)]
    simp

/-- The last value does not make a stale copy. -/
theorem not_stale_next (r : Nat) :
    ¬∃ c, (some ⟨r, v⟩ : Option Copy).bind (Copy.next n) = some c ∧ c.value ≠ v := by
  rintro ⟨c, hc, hv⟩
  exact hv (Copy.value_of_next hc)

theorem refresh_of_value {s : Option Copy} (hs : ¬∃ c, s = some c ∧ c.value ≠ v) :
    refresh (some ⟨1, v⟩) s = some ⟨1, v⟩ := by
  refine refresh_eq_self fun c hc h hh => ?_
  by_contra hne
  refine hs ⟨c, hc, fun e => hne ?_⟩
  rw [← Option.some.inj hh, e]

theorem value_refresh_ne {held : Option Copy} {s : Option Copy}
    (hs : ∃ c, s = some c ∧ c.value ≠ v) :
    (refresh held s).map (·.value) ≠ some v := by
  obtain ⟨c, rfl, hv⟩ := hs
  cases held with
  | none => nofun
  | some h => exact fun e => hv (Option.some.inj e)

variable {E : Setting} {key : String}

/-! ## What the moves keep -/

/-- A put makes a row sound whose copies behind the owner follow one another. -/
theorem sound_write (hchain : m.chain (E.point key) = o :: seg)
    (hcells : (seg.map row).IsChain (Follows E.copies.toNat)) :
    Sound E.copies.toNat v m (E.point key) (row.write E m key o ⟨1, v⟩) := by
  obtain ⟨howner, hseg⟩ := written row hchain v
  exact sound_of_owner (two_le E) hchain howner hcells hseg

/-- A node joins that does not become the owner. -/
theorem Sound.join (h : Sound E.copies.toNat v m (E.point key) row) (hkept : row.Kept E m)
    (hp : p ∉ m) (hchain : m.chain (E.point key) = pre ++ w :: seg)
    (hchain' : (m.insert p).chain (E.point key) = pre ++ w :: p :: seg) :
    (¬Endangers E key v m row (.join p) →
      Sound E.copies.toNat v (m.insert p) (E.point key) (row.move E m key (.join p))) ∧
    (Endangers E key v m row (.join p) →
      Lost v (m.insert p) (E.point key) (row.move E m key (.join p))) := by
  have hsplit : m.chain (E.point key) = (pre ++ [w]) ++ seg := by rw [hchain]; simp
  have hsplit' : (m.insert p).chain (E.point key) = (pre ++ [w]) ++ p :: seg := by
    rw [hchain']
    simp
  obtain ⟨o, hhead⟩ : ∃ o, (pre ++ [w]).head? = some o := ⟨_, List.head?_eq_some_head (by simp)⟩
  have ho : (m.chain (E.point key)).head? = some o := by
    rw [hsplit, List.head?_append, hhead, Option.some_or]
  have ho' := (Members.head?_eq_of_chain hchain hchain').trans ho
  have hnone : row p = none := hkept.eq_none hp
  have hle : ∀ c, row w = some c → c.rank ≤ E.copies.toNat := fun c hc => (hkept w c hc).2.2
  have hs := spread_join hp hnone hchain' ho' (h.owner o ho) rfl fun c hc => (hkept w c hc).2.1
  have hpred : (m.insert p).predecessor p = some w := Members.predecessor_of_chain hchain'
  -- The copy of `w` goes through `p` and the nodes behind it, and may come round to the owner.
  have hendangers : Endangers E key v m row (.join p) ↔
      ∃ c, spill E.copies.toNat ((row w).bind (Copy.next E.copies.toNat)) (p :: seg).length =
        some c ∧ c.value ≠ v := by
    rw [← strays_iff hchain' hle, Endangers, hpred]
    simp
  refine ⟨fun hsafe => ?_, fun hlost => ⟨o, ho', ?_⟩⟩
  · rw [hendangers] at hsafe
    have hrow : ∀ q ∈ pre ++ [w], row.move E m key (.join p) q = row q := by
      intro q hq
      by_cases hqo : q = o
      · rw [hqo, hs.owner, h.owner o ho, refresh_of_value hsafe]
      · have hn := (m.insert p).nodup_chain (E.point key)
        rw [hsplit', List.nodup_append] at hn
        exact hs.other q hqo fun hq' => hn.2.2 q hq q hq' rfl
    have hfollows := h.follows
    rw [hsplit, List.map_append] at hfollows
    refine h.of_carry (two_le E) hsplit hchain' hrow ?_ hs.stretch hle
    rw [List.map_cons, hnone, List.isChain_cons]
    exact ⟨fun _ _ _ hc => absurd hc (Option.some_ne_none _).symm, hfollows.right_of_append⟩
  · rw [hendangers] at hlost
    rw [hs.owner]
    exact value_refresh_ne hlost

/-- A sound row stays sound if a new owner gets the first copy and the old one keeps the second. -/
theorem Sound.of_new_owner (h : Sound n v m k row) {m' : Members} {s : Point}
    (hchain : m.chain k = s :: seg) (hchain' : m'.chain k = p :: s :: seg)
    (hp : row₁ p = some ⟨1, v⟩) (hs : row₁ s = some ⟨2, v⟩) (hseg : seg.map row₁ = seg.map row) :
    Sound n v m' k row₁ := by
  have hfollows := h.follows
  rw [hchain, List.map_cons] at hfollows
  refine ⟨fun o ho => ?_, fun y hy => ?_, ?_⟩
  · rw [hchain'] at ho
    cases ho
    exact hp
  · rw [hchain'] at hy
    cases hy
    exact hs
  · rw [hchain', List.map_cons, List.map_cons, hp, hs, hseg, List.isChain_cons, List.isChain_cons]
    refine ⟨fun b hb c hc => .inr ⟨⟨2, v⟩, ?_, ?_⟩, fun b hb c hc => ?_,
      (List.isChain_cons.1 hfollows).2⟩
    · exact (Option.mem_some_iff.1 hb).symm
    · rw [← Option.some.inj hc]
      exact ⟨le_rfl, rfl⟩
    · -- The second copy was behind the old owner.
      cases seg with
      | nil => cases hb
      | cons z seg =>
        rw [List.map_cons, List.head?_cons, h.second z (by rw [hchain]; rfl)] at hb
        rw [← Option.some.inj hc]
        exact .inr ⟨⟨2, v⟩, (Option.mem_some_iff.1 hb).symm, by omega, rfl⟩

/-- A node joins that becomes the owner. -/
theorem Sound.join_owner (h : Sound E.copies.toNat v m (E.point key) row) (hkept : row.Kept E m)
    (hp : p ∉ m) {s : Point} (hchain : m.chain (E.point key) = s :: seg)
    (hchain' : (m.insert p).chain (E.point key) = p :: s :: seg) :
    (¬Endangers E key v m row (.join p) →
      Sound E.copies.toNat v (m.insert p) (E.point key) (row.move E m key (.join p))) ∧
    (Endangers E key v m row (.join p) →
      Lost v (m.insert p) (E.point key) (row.move E m key (.join p))) := by
  have htwo := two_le E
  have hheld : row s = some ⟨1, v⟩ := h.owner s (by rw [hchain]; rfl)
  have hnodup := (m.insert p).nodup_chain (E.point key)
  rw [hchain', List.nodup_cons, List.nodup_cons] at hnodup
  obtain ⟨hpseg, hsseg, -⟩ := hnodup
  have hps : p ≠ s := fun e => hpseg (e ▸ List.mem_cons_self)
  obtain ⟨w, hlast⟩ : ∃ w, (s :: seg).getLast? = some w := ⟨_, List.getLast?_cons⟩
  obtain ⟨pre, hpre⟩ : ∃ pre, s :: seg = pre ++ [w] := List.getLast?_eq_some_iff.1 hlast
  have hws : w ∈ s :: seg := List.mem_of_getLast? hlast
  have hwp : w ≠ p := fun e => hpseg (e ▸ hws)
  have hpred : (m.insert p).predecessor p = some w := by
    rw [Members.predecessor_of_head hchain', hlast]
  have hchainw : (m.insert p).chain (E.point key) = (p :: pre) ++ w :: [] := by
    rw [hchain', hpre]
    rfl
  have hs := spread_join_owner hp hchain' hlast hheld rfl (fun c hc => (hkept w c hc).2.1) rfl
  set row₁ := Function.update (Function.update row p (some ⟨1, v⟩)) s (some ⟨2, v⟩) with hrow₁
  have hp₁ : row₁ p = some ⟨1, v⟩ := by
    rw [hrow₁, Function.update_of_ne hps, Function.update_self]
  have hs₁ : row₁ s = some ⟨2, v⟩ := by rw [hrow₁, Function.update_self]
  have hstay : ∀ q, q ≠ p → q ≠ s → row₁ q = row q := fun q hqp hqs => by
    rw [hrow₁, Function.update_of_ne hqs, Function.update_of_ne hqp]
  -- The old owner's copy does not stray, neither with the old rank nor with the new one.
  have hendangers : Endangers E key v m row (.join p) ↔
      ∃ c, (row₁ w).bind (Copy.next E.copies.toNat) = some c ∧ c.value ≠ v := by
    rw [Endangers, hpred]
    simp only [Option.some.injEq, exists_eq_left']
    rw [strays_iff hchainw fun c hc => (hkept w c hc).2.2]
    by_cases hwo : w = s
    · rw [hwo, hheld, hs₁]
      exact iff_of_false (not_stale_next 1) (not_stale_next 2)
    · rw [hstay w hwp hwo]
      rfl
  refine ⟨fun hsafe => ?_, fun hlost => ⟨p, by rw [hchain']; rfl, ?_⟩⟩
  · rw [hendangers] at hsafe
    have howner : row.move E m key (.join p) p = some ⟨1, v⟩ := by
      rw [hs.owner, hp₁]
      exact refresh_of_value hsafe
    have hsecond : row.move E m key (.join p) s = some ⟨2, v⟩ := by
      rw [hs.other s hps.symm List.not_mem_nil, hs₁]
    have hrest : seg.map (row.move E m key (.join p)) = seg.map row := by
      refine List.map_congr_left fun q hq => ?_
      have hqp : q ≠ p := fun e => hpseg (e ▸ List.mem_cons_of_mem _ hq)
      rw [hs.other q hqp List.not_mem_nil, hstay q hqp fun e => hsseg (e ▸ hq)]
    exact h.of_new_owner hchain hchain' howner hsecond hrest
  · rw [hendangers] at hlost
    rw [hs.owner]
    exact value_refresh_ne hlost

/-! ### Failures -/

/-- A copy with two more ranks to come is of the value that is held two nodes further on. -/
theorem value_of_follows (h : ((m.chain k).map row).IsChain (Follows n))
    (hchain : m.chain k = pre ++ w :: x :: y :: seg) {c c' : Copy} (hw : row w = some c)
    (hy : row y = some c') (hrank : c.rank + 2 ≤ n) : c'.value = c.value := by
  rw [hchain, List.map_append, List.map_cons, List.map_cons, List.map_cons] at h
  obtain ⟨hwx, h⟩ := List.isChain_cons_cons.1 h.right_of_append
  obtain ⟨hxy, -⟩ := List.isChain_cons_cons.1 h
  obtain ⟨c₁, hx, hr, hv⟩ := (hwx c hw).resolve_left (by omega)
  obtain ⟨c₂, hy', -, hv'⟩ := (hxy c₁ hx).resolve_left (by omega)
  rw [hy, Option.some.injEq] at hy'
  rw [hy', hv', hv]

/-- Copies that follow one another do so after the first has taken over. -/
theorem TakenOver.isChain (ht : TakenOver n o y seg row row₁) (hyo : y ≠ o) (hyseg : y ∉ seg)
    (hn : 2 ≤ n) (h : ((y :: seg).map row).IsChain (Follows n)) :
    ((y :: seg).map row₁).IsChain (Follows n) := by
  rcases ht.cases with ⟨⟨r, value⟩, -, rfl, hs⟩ | ⟨-, rfl⟩
  · have hnext : (some ⟨1, value⟩ : Option Copy).bind (Copy.next n) = some ⟨2, value⟩ := if_pos hn
    have hhead := follows_carry (n := n) (a := some ⟨1, value⟩)
      (fun c hc => by cases hc; show 1 ≤ n; omega) (seg.map row)
    rw [hnext] at hhead
    rw [List.map_cons, hs.other y hyo hyseg, Function.update_self, hs.stretch, map_update hyseg,
      List.isChain_cons]
    exact ⟨hhead, isChain_carry (List.isChain_cons.1 h).2 fun c hc => by cases hc; exact hn⟩
  · exact h

/-- What comes round to the owner when the node at `y` takes over. -/
theorem TakenOver.owner (ht : TakenOver n o y seg row row₁) (hyo : y ≠ o) (hn : 2 ≤ n) :
    ∃ s, row₁ o = refresh (row o) s ∧ ∀ v, (∃ c, s = some c ∧ c.value ≠ v) ↔
      ∃ c, row y = some c ∧ c.rank = 2 ∧ c.value ≠ v ∧ 2 + seg.length ≤ n := by
  rcases ht.cases with ⟨⟨r, value⟩, hc, rfl, hs⟩ | ⟨hne, rfl⟩
  · refine ⟨spill n (some ⟨2, value⟩) seg.length, ?_, fun v => ?_⟩
    · rw [hs.owner, Function.update_of_ne hyo.symm]
    · rw [spill_stale_iff hn, hc]
      simp
  · refine ⟨none, rfl, fun v => iff_of_false (fun ⟨c, hc, _⟩ => by cases hc) ?_⟩
    rintro ⟨c, hc, hr, -⟩
    exact hne c hc hr

theorem TakenOver.other (ht : TakenOver n o y seg row row₁) {q : Point} (hqo : q ≠ o) (hqy : q ≠ y)
    (hq : q ∉ seg) : row₁ q = row q := by
  rcases ht.cases with ⟨c, -, -, hs⟩ | ⟨-, rfl⟩
  · rw [hs.other q hqo hq, Function.update_of_ne hqy]
  · rfl

/-- The row after `x` has failed, which was not the owner, and the node behind it has taken
    over. -/
theorem Sound.takenOver (h : Sound n v m k row) (hn : 2 ≤ n)
    (hchain : m.chain k = (pre ++ [w]) ++ x :: seg) (hhead : (pre ++ [w]).head? = some o)
    (hnil : seg = [] → row₁ = Function.update row x none)
    (hcons : ∀ y seg', seg = y :: seg' →
      TakenOver n o y seg' (Function.update row x none) row₁) :
    (∀ q ∈ pre ++ [w], q ≠ o → row₁ q = row q) ∧ (seg.map row₁).IsChain (Follows n) ∧
      ∃ s, row₁ o = refresh (some ⟨1, v⟩) s ∧ ((∃ c, s = some c ∧ c.value ≠ v) ↔
        ∃ y c, m.successor x = some y ∧ row y = some c ∧ c.rank = 2 ∧ c.value ≠ v ∧
          1 + (m.erase x).distance k y ≤ n) := by
  have ho : row o = some ⟨1, v⟩ :=
    h.owner o (by rw [hchain, List.head?_append, hhead, Option.some_or])
  have hnodup := m.nodup_chain k
  rw [hchain, List.nodup_append, List.nodup_cons] at hnodup
  obtain ⟨-, ⟨hxseg, hnodup⟩, hdis⟩ := hnodup
  have hoseg : o ∉ x :: seg := fun hseg => hdis o (List.mem_of_head? hhead) o hseg rfl
  have hstay : ∀ q, q ≠ x → Function.update row x none q = row q := fun q hq =>
    Function.update_of_ne hq _ _
  have hox : o ≠ x := fun e => hoseg (e ▸ List.mem_cons_self)
  cases seg with
  | nil =>
    rw [hnil rfl]
    refine ⟨fun q hq _ => hstay q (hdis q hq x List.mem_cons_self), .nil, none, ?_, ?_⟩
    · rw [hstay o hox, ho]
      rfl
    · -- The owner takes over, which holds the last value.
      refine iff_of_false (fun ⟨c, hc, _⟩ => by cases hc) ?_
      rintro ⟨y, c, hy, hc, hr, -⟩
      rw [Members.successor_eq hchain, List.nil_append, hhead, Option.some.injEq] at hy
      rw [← hy, ho, Option.some.injEq] at hc
      rw [← hc] at hr
      cases hr
  | cons y seg =>
    have ht := hcons y seg rfl
    have hyx : y ≠ x := fun e => hxseg (e ▸ List.mem_cons_self)
    have hyo : y ≠ o := fun e => hoseg (e ▸ List.mem_cons_of_mem _ List.mem_cons_self)
    have hfollows := h.follows
    rw [hchain, List.map_append] at hfollows
    have hsucc : m.successor x = some y := Members.successor_of_chain hchain
    have hleft : (m.erase x).chain k = (pre ++ [w]) ++ y :: seg :=
      Members.chain_erase_of_chain hchain
    refine ⟨fun q hq hqo => ?_, ht.isChain hyo (List.nodup_cons.1 hnodup).1 hn ?_, ?_⟩
    · have hqseg : q ∉ x :: y :: seg := fun hseg => hdis q hq q hseg rfl
      rw [List.mem_cons, List.mem_cons, not_or, not_or] at hqseg
      rw [ht.other hqo hqseg.2.1 hqseg.2.2, hstay q hqseg.1]
    · rw [map_update hxseg]
      exact (List.isChain_cons.1 hfollows.right_of_append).2
    · obtain ⟨s, hs, hstale⟩ := ht.owner hyo hn
      rw [hstay o hox, ho] at hs
      refine ⟨s, hs, ?_⟩
      have hadd : 2 + seg.length = 1 + (m.erase x).distance k y := by
        rw [Members.distance_of_chain hleft]
        omega
      rw [hstale v, hsucc, hstay y hyx, hadd]
      simp only [Option.some.injEq, exists_and_left, exists_eq_left']

/-- What a node sends round after a stale copy was taken over behind it is stale as well. -/
theorem Sound.stale_of_spill (h : Sound n v m k row) (hchain : m.chain k = pre ++ w :: x :: seg)
    (hsucc : m.successor x = some y) {c c' cw : Copy} (hy : row y = some c) (hr : c.rank = 2)
    (hv : c.value ≠ v) (hw : row w = some cw) (hle : cw.rank ≤ n)
    (hspill : spill n (some cw) (seg.length + 1) = some c') : c'.value ≠ v := by
  have hsplit : m.chain k = (pre ++ [w]) ++ x :: seg := by rw [hchain]; simp
  cases seg with
  | nil =>
    -- The node behind is the owner, whose copy is a first one.
    have ho := h.owner y (by
      rw [hsplit, List.head?_append_of_ne_nil _ (by simp)]
      rw [← hsucc, Members.successor_eq hsplit, List.nil_append])
    rw [hy, Option.some.injEq] at ho
    rw [ho] at hr
    cases hr
  | cons z seg =>
    obtain rfl : z = y := Option.some.inj ((Members.successor_of_chain hsplit).symm.trans hsucc)
    have hvalue := value_of_spill hle hspill
    rw [spill_some hle] at hspill
    split at hspill
    · rw [List.length_cons] at *
      rw [hvalue, ← value_of_follows h.follows hchain hw hy (by omega)]
      exact hv
    · cases hspill

/-- After a stale copy has come round to the owner, nothing that the node before the failed one
    sends round brings the last value back. -/
theorem Sound.refresh_stale (h : Sound n v m k row) (hn : 2 ≤ n)
    (hchain : m.chain k = pre ++ w :: x :: seg) (hfront : w ≠ o → row₁ w = row w)
    (hle : ∀ c, row w = some c → c.rank ≤ n) {s : Option Copy}
    (ho : row₁ o = refresh (some ⟨1, v⟩) s) (hs : ∃ c, s = some c ∧ c.value ≠ v)
    (htaken : ∃ y c, m.successor x = some y ∧ row y = some c ∧ c.rank = 2 ∧ c.value ≠ v) :
    (refresh (row₁ o) (spill n ((row₁ w).bind (Copy.next n)) seg.length)).map (·.value) ≠
      some v := by
  cases hspill : spill n ((row₁ w).bind (Copy.next n)) seg.length with
  | none =>
    rw [refresh_none, ho]
    exact value_refresh_ne hs
  | some c₂ =>
    -- What comes round after the stale copy is stale as well.
    refine value_refresh_ne ⟨c₂, rfl, ?_⟩
    by_cases hwo : w = o
    · obtain ⟨c, rfl, hv⟩ := hs
      rw [hwo, ho] at hspill
      have hvalue : c₂.value = c.value :=
        value_of_spill (c := ⟨1, c.value⟩) (by show 1 ≤ n; omega) (d := seg.length + 1) hspill
      rw [hvalue]
      exact hv
    · obtain ⟨y, c, hsucc, hy, hr, hv⟩ := htaken
      rw [hfront hwo] at hspill
      cases hw : row w with
      | none =>
        rw [hw, Option.bind_none, spill_none] at hspill
        cases hspill
      | some cw =>
        rw [hw] at hspill
        exact h.stale_of_spill hchain hsucc hy hr hv hw (hle cw hw) hspill

/-- A node fails that is not the owner. -/
theorem Sound.fail (h : Sound E.copies.toNat v m (E.point key) row) (hkept : row.Kept E m)
    (hchain : m.chain (E.point key) = pre ++ w :: x :: seg) :
    (¬Endangers E key v m row (.fail x) →
      Sound E.copies.toNat v (m.erase x) (E.point key) (row.move E m key (.fail x))) ∧
    (Endangers E key v m row (.fail x) →
      Lost v (m.erase x) (E.point key) (row.move E m key (.fail x))) := by
  have hsplit : m.chain (E.point key) = (pre ++ [w]) ++ x :: seg := by rw [hchain]; simp
  have hleft : (m.erase x).chain (E.point key) = pre ++ w :: seg := by
    rw [Members.chain_erase_of_chain hsplit, List.append_assoc]
    rfl
  obtain ⟨o, hhead⟩ : ∃ o, (pre ++ [w]).head? = some o := ⟨_, List.head?_eq_some_head (by simp)⟩
  have hho : (m.chain (E.point key)).head? = some o := by
    rw [hsplit, List.head?_append, hhead, Option.some_or]
  have ho' := (Members.head?_eq_of_chain hchain hleft).trans hho
  have ho := h.owner o hho
  have hnodup := m.nodup_chain (E.point key)
  rw [hsplit, List.nodup_append] at hnodup
  obtain ⟨-, -, hdis⟩ := hnodup
  have hox : o ≠ x := hdis o (List.mem_of_head? hhead) x List.mem_cons_self
  have hpred : m.predecessor x = some w := Members.predecessor_of_chain hchain
  obtain ⟨row₁, hnil, hcons, hs⟩ := spread_fail hchain hho ho rfl fun q c hc => (hkept q c hc).2.1
  obtain ⟨hfront, hcells, s, hs₁, hstale⟩ := h.takenOver (two_le E) hsplit hhead hnil hcons
  have hle : ∀ c, row w = some c → c.rank ≤ E.copies.toNat := fun c hc => (hkept w c hc).2.2
  have hendangers : Endangers E key v m row (.fail x) ↔ (∃ c, s = some c ∧ c.value ≠ v) ∨
      Strays E.copies.toNat v (m.erase x) (E.point key) row w := by
    have hne : m.owner (E.point key) ≠ some x := by
      rw [Members.owner_eq_head, hho]
      exact fun e => hox (Option.some.inj e)
    rw [Endangers, hstale, hpred]
    simp [hne]
  rw [hendangers]
  -- Two copies go round: first that of the node behind `x`, then that of `w`. The key is lost to
  -- the first stale one that reaches the owner.
  by_cases hsafe : ∃ c, s = some c ∧ c.value ≠ v
  · refine ⟨fun hn => absurd (.inl hsafe) hn, fun _ => ⟨o, ho', ?_⟩⟩
    obtain ⟨y, c, hsucc, hy, hr, hv, -⟩ := hstale.1 hsafe
    rw [hs.owner]
    exact h.refresh_stale (two_le E) hchain (hfront w (by simp)) hle hs₁ hsafe
      ⟨y, c, hsucc, hy, hr, hv⟩
  · have hrow₁ : ∀ q ∈ pre ++ [w], row₁ q = row q := by
      intro q hq
      by_cases hqo : q = o
      · rw [hqo, hs₁, refresh_of_value hsafe, ho]
      · exact hfront q hq hqo
    have hw₁ := hrow₁ w (by simp)
    have ho₁ := hrow₁ o (List.mem_of_head? hhead)
    rw [hw₁] at hs
    rw [strays_iff hleft hle, or_iff_right hsafe]
    refine ⟨fun hnot => ?_, fun hlost => ⟨o, ho', ?_⟩⟩
    · refine h.of_carry (two_le E) hsplit hleft (fun q hq => ?_) hcells hs.stretch hle
      by_cases hqo : q = o
      · rw [hqo, hs.owner, ho₁, ho, refresh_of_value hnot]
      · have hqseg : q ∉ seg := fun hseg => hdis q hq q (List.mem_cons_of_mem _ hseg) rfl
        rw [hs.other q hqo hqseg, hrow₁ q hq]
    · rw [hs.owner]
      exact value_refresh_ne hlost

/-- The last node of a stretch that a copy was sent into holds that copy or what it held. -/
theorem last_of_carry {r : Nat} (hr : r ≤ n)
    (h : (pre ++ [w]).map row₁ = carry n (some ⟨r, v⟩) ((pre ++ [w]).map row)) :
    row₁ w = if r + pre.length ≤ n then some ⟨r + pre.length, v⟩ else row w := by
  rw [List.map_append, List.map_append, carry_append, List.length_map, spill_some hr] at h
  have hlast := (List.append_inj' h (by split <;> simp [carry])).2
  split at hlast
  · rw [if_pos (by assumption)]
    exact (List.cons.inj hlast).1
  · rw [if_neg (by assumption)]
    exact (List.cons.inj hlast).1

/-- If the owner fails, the key is in danger if the last node of the chain holds a stale copy after
    the node behind the owner has taken over. -/
theorem endangers_fail_owner_iff (hkept : row.Kept E m)
    (hchain : m.chain (E.point key) = x :: y :: seg) (hlast : (y :: seg).getLast? = some w)
    (hy : row y = some ⟨2, v⟩) (hy₁ : row₁ y = some ⟨1, v⟩)
    (hseg₁ : seg.map row₁ = carry E.copies.toNat (some ⟨2, v⟩) (seg.map row)) :
    Endangers E key v m row (.fail x) ↔
      ∃ c, (row₁ w).bind (Copy.next E.copies.toNat) = some c ∧ c.value ≠ v := by
  have htwo := two_le E
  have hleft : (m.erase x).chain (E.point key) = y :: seg := Members.chain_erase_of_head hchain
  have hsize : (m.erase x).size = seg.length + 1 := by
    rw [← Members.length_chain (m.erase x) (E.point key), hleft, List.length_cons]
  have hfirst : Endangers E key v m row (.fail x) ↔
      Strays E.copies.toNat v (m.erase x) (E.point key) row w ∧
        ¬(m.erase x).size ≤ E.copies.toNat := by
    rw [Endangers, Members.successor_of_head hchain, Members.predecessor_of_head hchain, hlast,
      Members.owner_eq_head, hchain]
    simp [hy]
  rw [hfirst]
  rcases List.eq_nil_or_concat' seg with rfl | ⟨pre, z, rfl⟩
  · -- The only node left has taken over itself.
    obtain rfl : y = w := Option.some.inj hlast
    rw [hy₁]
    exact iff_of_false (fun hstray => hstray.2 (by rw [hsize]; simp; omega)) (not_stale_next 1)
  · obtain rfl : z = w := by
      rw [← List.cons_append, List.getLast?_concat] at hlast
      exact Option.some.inj hlast
    rw [last_of_carry htwo hseg₁, hsize, List.length_append, List.length_singleton]
    split <;> rename_i hle
    · exact iff_of_false (fun hstray => hstray.2 (by omega)) (not_stale_next _)
    · rw [and_iff_left (by omega)]
      have hlastleft : (m.erase x).chain (E.point key) = (y :: pre) ++ z :: [] := hleft
      exact strays_iff hlastleft fun c hc => (hkept z c hc).2.2

/-- The owner fails. -/
theorem Sound.fail_owner (h : Sound E.copies.toNat v m (E.point key) row) (hkept : row.Kept E m)
    (hchain : m.chain (E.point key) = x :: y :: seg) :
    (¬Endangers E key v m row (.fail x) →
      Sound E.copies.toNat v (m.erase x) (E.point key) (row.move E m key (.fail x))) ∧
    (Endangers E key v m row (.fail x) →
      Lost v (m.erase x) (E.point key) (row.move E m key (.fail x))) := by
  have htwo := two_le E
  have hleft : (m.erase x).chain (E.point key) = y :: seg := Members.chain_erase_of_head hchain
  have hy : row y = some ⟨2, v⟩ := h.second y (by rw [hchain]; rfl)
  have hnodup := m.nodup_chain (E.point key)
  rw [hchain, List.nodup_cons, List.nodup_cons] at hnodup
  obtain ⟨hx, hyseg, -⟩ := hnodup
  obtain ⟨w, hlast⟩ : ∃ w, (y :: seg).getLast? = some w := ⟨_, List.getLast?_cons⟩
  obtain ⟨row₁, hs₁, hs⟩ := spread_fail_owner hchain hlast hy rfl fun q c hc => (hkept q c hc).2.1
  obtain ⟨hy₁, hseg₁⟩ := hs₁.of_owner htwo hyseg
  rw [map_update fun h => hx (List.mem_cons_of_mem _ h)] at hseg₁
  rw [endangers_fail_owner_iff hkept hchain hlast hy hy₁ hseg₁]
  refine ⟨fun hsafe => ?_, fun hlost => ⟨y, by rw [hleft]; rfl, ?_⟩⟩
  · have howner : row.move E m key (.fail x) y = some ⟨1, v⟩ := by
      rw [hs.owner, hy₁]
      exact refresh_of_value hsafe
    have hstay : seg.map (row.move E m key (.fail x)) = seg.map row₁ :=
      List.map_congr_left fun q hq =>
        hs.other q (ne_of_mem_of_not_mem hq hyseg) List.not_mem_nil
    have hfollows := h.follows
    rw [hchain] at hfollows
    exact sound_of_owner htwo hleft howner
      (List.isChain_cons.1 (List.isChain_cons.1 hfollows).2).2 (by rw [hstay, hseg₁])
  · rw [hs.owner]
    exact value_refresh_ne hlost

/-! ### All moves -/

/-- A key that was never put has no copies, and the row of any other is sound. -/
def Tracks (E : Setting) (key : String) (m : Members) (row : Row) : Option Bytes → Prop
  | none => row = fun _ => none
  | some v => 1 ≤ m.size ∧ Sound E.copies.toNat v m (E.point key) row

/-- A move keeps a row sound, unless it endangers the key: then the last value is lost. -/
theorem Sound.move {mv : Cluster.Move} (h : Sound E.copies.toNat v m (E.point key) row)
    (hsize : 1 ≤ m.size) (hkept : row.Kept E m) (hadm : mv.Admissible E m) :
    (¬Endangers E key v m row mv →
      Tracks E key (mv.members m) (row.move E m key mv) (mv.write key (some v))) ∧
    (Endangers E key v m row mv →
      Lost v (mv.members m) (E.point key) (row.move E m key mv)) := by
  -- A put and a delete both write at the owner, which sends the copy all along the chain.
  have hput : ∀ {o} v', (m.chain (E.point key)).head? = some o →
      Tracks E key m (row.write E m key o ⟨1, v'⟩) (some v') := by
    intro o v' ho
    obtain ⟨seg, hchain⟩ := List.head?_eq_some_iff.1 ho
    have hfollows := h.follows
    rw [hchain] at hfollows
    exact ⟨hsize, sound_write hchain (List.isChain_cons.1 hfollows).2⟩
  cases mv with
  | clock now => exact ⟨fun _ => ⟨hsize, h⟩, False.elim⟩
  | get via key' => exact ⟨fun _ => ⟨hsize, h⟩, False.elim⟩
  | put via key' value =>
    refine ⟨fun _ => ?_, False.elim⟩
    by_cases hk : key = key'
    · rw [Row.move, if_pos hk, Cluster.Move.write, if_pos hk]
      exact hput value (Cluster.head_chain_target key via hsize)
    · rw [Row.move, if_neg hk, Cluster.Move.write, if_neg hk]
      exact ⟨hsize, h⟩
  | delete via key' =>
    refine ⟨fun _ => ?_, False.elim⟩
    by_cases hk : key = key'
    · have ho := Cluster.head_chain_target (E := E) key via hsize
      rw [Row.move, if_pos hk, Cluster.Move.write, if_pos hk, h.owner _ ho]
      exact hput [] ho
    · rw [Row.move, if_neg hk, Cluster.Move.write, if_neg hk]
      exact ⟨hsize, h⟩
  | join p =>
    have hp : p ∉ m := hadm
    have hgrown : 1 ≤ (m.insert p).size := by
      rw [Members.size_insert hp]
      omega
    rcases Members.chain_insert_cases hp hsize (E.point key) with
      ⟨s, seg, hold, hnew⟩ | ⟨pre, w, seg, hold, hnew⟩
    · exact (h.join_owner hkept hp hold hnew).imp_left fun hs hsafe => ⟨hgrown, hs hsafe⟩
    · exact (h.join hkept hp hold hnew).imp_left fun hs hsafe => ⟨hgrown, hs hsafe⟩
  | fail x =>
    obtain ⟨hx, htwo⟩ := hadm
    have hleft : 1 ≤ (m.erase x).size := by
      have hsize' := Members.size_erase hx
      omega
    rcases Members.chain_cases hx htwo (E.point key) with ⟨y, seg, hchain⟩ | ⟨pre, w, seg, hchain⟩
    · exact (h.fail_owner hkept hchain).imp_left fun hs hsafe => ⟨hleft, hs hsafe⟩
    · exact (h.fail hkept hchain).imp_left fun hs hsafe => ⟨hleft, hs hsafe⟩

/-- As long as a key was never put it has no copies, and the first put makes its row sound. -/
theorem tracks_of_none {mv : Cluster.Move} (hadm : mv.Admissible E m) :
    Tracks E key (mv.members m) (Row.move E m key (fun _ => none) mv) (mv.write key none) := by
  by_cases hput : ∃ via value, mv = .put via key value
  · obtain ⟨via, value, rfl⟩ := hput
    obtain ⟨seg, hchain⟩ :=
      List.head?_eq_some_iff.1 (Cluster.head_chain_target (E := E) key via hadm.1)
    rw [Row.move, if_pos rfl, Cluster.Move.write, if_pos rfl]
    refine ⟨hadm.1, sound_write hchain (List.Pairwise.isChain ?_)⟩
    exact List.pairwise_map.2 (List.pairwise_of_forall fun _ _ _ hc => by cases hc)
  · have hput : ∀ via value, mv ≠ .put via key value := fun via value e => hput ⟨via, value, e⟩
    rw [Cluster.Move.write_none hput, move_none mv hput]
    rfl

/-- What is tracked stays so after a move that does not endanger the key. -/
theorem Tracks.move {mv : Cluster.Move} {last : Option Bytes} (h : Tracks E key m row last)
    (hkept : row.Kept E m) (hadm : mv.Admissible E m)
    (hsafe : ∀ v, last = some v → ¬Endangers E key v m row mv) :
    Tracks E key (mv.members m) (row.move E m key mv) (mv.write key last) := by
  cases last with
  | none =>
    cases (show row = fun _ => none from h)
    exact tracks_of_none hadm
  | some v => exact (h.2.move h.1 hkept hadm).1 (hsafe v rfl)

end Row

end ReplicaRing

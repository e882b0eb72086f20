import ReplicaRing.Proofs.Cluster

/-!
# Rows along the chain

Seen along the chain of its key, a copy that is sent on from a node fills the stretch of the
chain behind it, with one rank after the other, until the ranks are used up
(`Row.carry`). What is left over at the end of the chain (`Row.spill`) comes to the owner, which
keeps its rank and takes the value (`Row.refresh`). `Row.Spread` says this of two rows, and
`Row.spread_send` that it is what happens.

From it follows what each move makes of a row, for a key whose owner holds the first copy:
`Row.spread_write`, `Row.spread_join`, `Row.spread_join_owner`, `Row.spread_fail`,
`Row.spread_fail_owner`.
-/

namespace ReplicaRing.Row

/-! ## Stretches of a chain -/

/-- The stretch after `c` was sent into it. -/
def carry (n : Nat) : Option Copy → List (Option Copy) → List (Option Copy)
  | some c, _ :: cells => some c :: carry n (c.next n) cells
  | _, cells => cells

/-- What comes out of a stretch of length `d` that `c` was sent into. -/
def spill (n : Nat) (c : Option Copy) : (d : Nat) → Option Copy
  | 0 => c
  | d + 1 => spill n (c.bind (Copy.next n)) d

/-- What an owner that held `held` has after `c` came round to it. -/
def refresh (held : Option Copy) (c : Option Copy) : Option Copy :=
  match c with
  | none => held
  | some c => held.map fun h => ⟨h.rank, c.value⟩

variable {n : Nat}

@[simp] theorem carry_none (cells : List (Option Copy)) : carry n none cells = cells := by
  cases cells <;> rfl

@[simp] theorem carry_nil (c : Option Copy) : carry n c [] = [] := by
  cases c <;> rfl

@[simp] theorem refresh_none (held : Option Copy) : refresh held none = held := rfl

@[simp] theorem spill_none (d : Nat) : spill n none d = none := by
  induction d with
  | zero => rfl
  | succ d ih => exact ih

/-- The copy that comes out has the same value, and its rank tells the length of the
    stretch. -/
theorem spill_some {c : Copy} (hc : c.rank ≤ n) (d : Nat) :
    spill n (some c) d = if c.rank + d ≤ n then some ⟨c.rank + d, c.value⟩ else none := by
  induction d generalizing c with
  | zero => exact (if_pos hc).symm
  | succ d ih =>
    rw [spill, Option.bind_some, Copy.next]
    by_cases hlt : c.rank < n
    · rw [if_pos hlt, ih (c := ⟨c.rank + 1, c.value⟩) hlt]
      have hadd : c.rank + 1 + d = c.rank + (d + 1) := by omega
      rw [hadd]
    · rw [if_neg hlt, spill_none, if_neg (by omega)]

theorem value_of_spill {c c' : Copy} (hc : c.rank ≤ n) {d : Nat}
    (h : spill n (some c) d = some c') : c'.value = c.value := by
  rw [spill_some hc] at h
  split at h
  · rw [← Option.some.inj h]
  · cases h

theorem refresh_eq_self {held : Option Copy} {c : Option Copy}
    (h : ∀ c', c = some c' → ∀ h', held = some h' → h'.value = c'.value) :
    refresh held c = held := by
  cases c with
  | none => rfl
  | some c =>
    cases held with
    | none => rfl
    | some h' => rw [refresh, Option.map_some, ← h c rfl h' rfl]

/-- The copy's own value leaves the value of the owner as it is. -/
theorem refresh_spill {c : Copy} (hc : c.rank ≤ n) (r d : Nat) :
    refresh (some ⟨r, c.value⟩) (spill n (some c) d) = some ⟨r, c.value⟩ := by
  refine refresh_eq_self fun c' hc' h hh => ?_
  rw [← Option.some.inj hh, value_of_spill hc hc']

theorem refresh_next {a : Option Copy} {v : Bytes} (h : ∀ c, a = some c → c.value = v) (r : Nat) :
    refresh (some ⟨r, v⟩) (a.bind (Copy.next n)) = some ⟨r, v⟩ := by
  refine refresh_eq_self fun c' hc' held hheld => ?_
  obtain ⟨c, hc, hnext⟩ := Option.bind_eq_some_iff.1 hc'
  rw [← Option.some.inj hheld, Copy.value_of_next hnext, h c hc]

/-- What comes out of the first part of a stretch is sent into the second. -/
theorem carry_append (c : Option Copy) (as bs : List (Option Copy)) :
    carry n c (as ++ bs) = carry n c as ++ carry n (spill n c as.length) bs := by
  induction as generalizing c with
  | nil => rw [carry_nil]; rfl
  | cons a as ih =>
    cases c with
    | none => rw [carry_none, carry_none, spill_none, carry_none]
    | some c =>
      rw [List.cons_append, carry, ih, carry, List.cons_append, List.length_cons, spill,
        Option.bind_some]

/-- A node that is not in the stretch does not change it. -/
theorem map_update {seg : List Point} {o : Point} (ho : o ∉ seg) (row : Row) (c : Option Copy) :
    seg.map (Function.update row o c) = seg.map row :=
  List.map_congr_left fun _ hq => Function.update_of_ne (ne_of_mem_of_not_mem hq ho) _ _

/-- `row'` is `row` after `c` was sent into the stretch `seg`, which ends before the owner
    `o`. -/
structure Spread (n : Nat) (o : Point) (seg : List Point) (c : Option Copy) (row row' : Row) :
    Prop where
  stretch : seg.map row' = carry n c (seg.map row)
  owner : row' o = refresh (row o) (spill n c seg.length)
  other : ∀ q, q ≠ o → q ∉ seg → row' q = row q

theorem Spread.refl (n : Nat) (o : Point) (seg : List Point) (row : Row) :
    Spread n o seg none row row where
  stretch := (carry_none _).symm
  owner := by rw [spill_none, refresh_none]
  other _ _ _ := rfl

/-- An owner that has written the value `v` sends it on. -/
theorem Spread.of_owner {o : Point} {seg : List Point} {v : Bytes} {row row' : Row} (hn : 2 ≤ n)
    (ho : o ∉ seg)
    (hs : Spread n o seg (some ⟨2, v⟩) (Function.update row o (some ⟨1, v⟩)) row') :
    row' o = some ⟨1, v⟩ ∧ seg.map row' = carry n (some ⟨2, v⟩) (seg.map row) := by
  constructor
  · rw [hs.owner, Function.update_self]
    exact refresh_spill (c := ⟨2, v⟩) hn 1 seg.length
  · rw [hs.stretch, map_update ho]

variable {m : Members} {k p o : Point} {pre seg : List Point} {row : Row}

theorem nextHop_of_chain {q : Point} (h : m.chain k = pre ++ p :: q :: seg) :
    (m.view p).nextHop = some q := by
  have hne : q ≠ p := (Members.ne_of_chain h).symm
  rw [View.nextHop, Members.view, Members.successor_of_chain h, Option.filter_some,
    if_pos (by simpa using hne)]

theorem nextHop_of_chain_last (h : m.chain k = o :: pre ++ [p]) :
    (m.view p).nextHop = some o := by
  have hne : o ≠ p := by
    rintro rfl
    exact Members.notMem_of_head h (by simp)
  rw [View.nextHop, Members.view, Members.successor_eq h, List.nil_append, List.head?_cons,
    Option.filter_some, if_pos (by simpa using hne)]

/-- A copy that comes round to the owner changes its value, and goes no further. -/
theorem walk_owner (ho : (m.chain k).head? = some o) {c h : Copy} (hheld : row o = some h)
    (hlt : h.rank < c.rank) (hone : c.rank ≠ 1) (hops : Nat) :
    walk n m k (hops + 1) o (some c) row =
      Function.update row o (refresh (row o) (some c)) := by
  have harrive : c.arrive n ((m.view o).owns k) (row o) = (⟨h.rank, c.value⟩, none) := by
    rw [Copy.arrive, hheld, Members.owns_eq ho, Option.filter_some, if_pos (by simp [hone, hlt])]
  simp only [walk_succ, Option.bind_some, harrive, send_none]
  rw [hheld]
  rfl

/-- A copy that is brought to another node is stored there, and the next one sent on. -/
theorem walk_other (ho : (m.chain k).head? = some o) (hp : p ≠ o) (c : Copy) (hops : Nat) :
    walk n m k (hops + 1) p (some c) row =
      send n m k hops (m.view p).nextHop (c.next n) (Function.update row p (some c)) := by
  have harrive : c.arrive n ((m.view p).owns k) (row p) = (c, c.next n) := by
    rw [Copy.arrive, Members.owns_eq ho, decide_eq_false hp.symm]
    cases row p with
    | none => rfl
    | some h => rw [Option.filter_some, if_neg (by simp)]
  simp only [walk_succ, Option.bind_some, harrive]

/-- A copy that a node sends on spreads over the stretch behind it, if the owner holds a lower
    one. -/
theorem spread_send (hchain : m.chain k = pre ++ p :: seg) (ho : (m.chain k).head? = some o)
    (halone : p = o → seg ≠ []) {h c : Copy} (hheld : row o = some h) (hlow : h.rank < c.rank)
    (htwo : 2 ≤ c.rank) (hle : c.rank ≤ n) {hops : Nat} (hhops : n < c.rank + hops) :
    Spread n o seg (some c) row (send n m k hops (m.view p).nextHop (some c) row) := by
  -- The walk is followed node by node; each node takes one hop and raises the rank.
  induction seg generalizing pre p row c hops with
  | nil =>
    obtain ⟨hops, rfl⟩ : ∃ d, hops = d + 1 := ⟨hops - 1, by omega⟩
    -- The chain ends here, and the copy comes round to the owner.
    cases pre with
    | nil =>
      rw [hchain] at ho
      exact absurd rfl (halone (Option.some.inj ho))
    | cons a pre =>
      have hao : a = o := by
        rw [hchain] at ho
        exact Option.some.inj ho
      subst hao
      have hchain' : m.chain k = a :: pre ++ [p] := hchain
      rw [nextHop_of_chain_last hchain', send,
        walk_owner ho hheld hlow (by omega)]
      exact ⟨rfl, Function.update_self .., fun q hq _ => Function.update_of_ne hq _ _⟩
  | cons q seg ih =>
    obtain ⟨hops, rfl⟩ : ∃ d, hops = d + 1 := ⟨hops - 1, by omega⟩
    have hchain' : m.chain k = (pre ++ [p]) ++ q :: seg := by rw [hchain]; simp
    have hqseg : q ∉ seg := Members.notMem_of_chain hchain'
    have hqo : q ≠ o := (Members.ne_of_head_chain hchain ho).symm
    have hheld' : Function.update row q (some c) o = some h := by
      rw [Function.update_of_ne hqo.symm, hheld]
    rw [nextHop_of_chain hchain, send, walk_other ho hqo]
    -- What follows is the same walk from `q` on, over the row in which `q` has its copy.
    have hrest : Spread n o seg (c.next n) (Function.update row q (some c))
        (send n m k hops (m.view q).nextHop (c.next n) (Function.update row q (some c))) := by
      rw [Copy.next]
      split
      · exact ih hchain' (fun e => absurd e hqo) hheld' (by show h.rank < c.rank + 1; omega)
          (by show 2 ≤ c.rank + 1; omega) (by assumption) (by show n < c.rank + 1 + hops; omega)
      · rw [send_none]
        exact .refl ..
    refine ⟨?_, ?_, fun r hro hr => ?_⟩
    · rw [List.map_cons, List.map_cons, carry, hrest.stretch, map_update hqseg,
        hrest.other q hqo hqseg, Function.update_self]
    · rw [hrest.owner, hheld', hheld, List.length_cons, spill, Option.bind_some]
    · rw [List.mem_cons, not_or] at hr
      rw [hrest.other r hro hr.2, Function.update_of_ne hr.1]

theorem nextHop_of_chain_alone (h : m.chain k = [p]) : (m.view p).nextHop = none := by
  rw [View.nextHop, Members.view, Members.successor_of_head h]
  rfl

/-- A copy that a node sends on spreads, also if the node is the only one and the copy has the
    value that it holds. -/
theorem spread_send_of_value (hchain : m.chain k = pre ++ p :: seg)
    (ho : (m.chain k).head? = some o) {h c : Copy} (hheld : row o = some h) (hone : h.rank = 1)
    (hvalue : p = o → h.value = c.value) (htwo : 2 ≤ c.rank) (hle : c.rank ≤ n) {hops : Nat}
    (hhops : n < c.rank + hops) :
    Spread n o seg (some c) row (send n m k hops (m.view p).nextHop (some c) row) := by
  by_cases halone : p = o ∧ seg = []
  · obtain ⟨rfl, rfl⟩ := halone
    have hpre : pre = [] := by
      cases pre with
      | nil => rfl
      | cons a pre =>
        rw [hchain] at ho
        cases ho
        exact absurd (by simp) (Members.notMem_of_head hchain)
    subst hpre
    rw [nextHop_of_chain_alone hchain, send]
    refine ⟨rfl, ?_, fun _ _ _ => rfl⟩
    rw [hheld]
    exact (refresh_eq_self fun c' hc' h' hh' => by
      rw [← Option.some.inj hh', ← Option.some.inj hc']
      exact hvalue rfl).symm
  · exact spread_send hchain ho (fun e hseg => halone ⟨e, hseg⟩) hheld (by omega) htwo hle hhops

/-- A node sends its copy to the node behind it. -/
theorem spread_replicate (hchain : m.chain k = pre ++ p :: seg)
    (ho : (m.chain k).head? = some o) {h : Copy} (hheld : row o = some h) (hone : h.rank = 1)
    (hrank : ∀ c, row p = some c → 1 ≤ c.rank) {hops : Nat} (hhops : n ≤ hops) :
    Spread n o seg ((row p).bind (Copy.next n)) row
      (send n m k hops (m.view p).nextHop ((row p).bind (Copy.next n)) row) := by
  cases hp : row p with
  | none =>
    rw [Option.bind_none, send_none]
    exact .refl ..
  | some c =>
    rw [Option.bind_some, Copy.next]
    have hc := hrank c hp
    split
    · refine spread_send_of_value hchain ho hheld hone (fun e => ?_)
        (show 2 ≤ c.rank + 1 by omega) (by assumption) (show n < c.rank + 1 + hops by omega)
      rw [e, hheld] at hp
      rw [Option.some.inj hp]
    · rw [send_none]
      exact .refl ..

theorem replicate_eq_send (hops : Nat) {q : Point} (hq : m.successor p = some q) :
    replicate n m k hops p q row =
      send n m k hops (m.view p).nextHop ((row p).bind (Copy.next n)) row := by
  have hne : q ≠ p := by simpa using (Option.filter_eq_some_iff.1 hq).2
  rw [replicate, if_neg hne, View.nextHop, Members.view, hq, Option.filter_some,
    if_pos (by simpa using hne)]

/-! ## Moves -/

variable {E : Setting} {key : String}

/-- What was never written stays so until it is put. -/
theorem move_none (mv : Cluster.Move) (hput : ∀ via value, mv ≠ .put via key value) :
    move E m key (fun _ => none) mv = fun _ => none := by
  have hreplicate : ∀ n m k hops p q,
      replicate n m k hops p q (fun _ => none) = fun _ => none := by
    intro n m k hops p q
    rw [replicate, Option.bind_none, send_none]
  have hupdate : ∀ p : Point, Function.update (fun _ => none : Row) p none = fun _ => none :=
    fun p => Function.update_eq_self p _
  have hreact : ∀ m hops p event, react E m key hops p (fun _ => none) event = fun _ => none := by
    intro m hops p event
    cases event with
    | newPredecessor previous current =>
      rw [react, migrate, Option.filter_none, Option.none_or, Option.map_none, hupdate, hupdate]
    | newSuccessor _ peer => exact hreplicate ..
    | predecessorFailed _ _ =>
      rw [react, takeOver, Option.filter_none, Option.map_none, send_none, hupdate]
    | successorFailed _ replacement =>
      cases replacement with
      | none => rfl
      | some peer => exact hreplicate ..
  have hreacts : ∀ m notes, reacts E m key (fun _ => none) notes = fun _ => none := by
    intro m notes
    induction notes with
    | nil => rfl
    | cons note notes ih =>
      rw [reacts, List.foldl_cons, hreact]
      exact ih
  cases mv with
  | clock _ => rfl
  | get _ _ => rfl
  | join p => rw [move, hupdate, hreacts]
  | fail p => rw [move, hupdate, hreacts]
  | put via key' value =>
    have hne : key ≠ key' := fun e => hput via value (e ▸ rfl)
    rw [move, if_neg hne]
  | delete via key' =>
    rw [move]
    split <;> rfl

theorem two_le (E : Setting) : 2 ≤ E.copies.toNat := E.two_le_copies

/-- A write of the owner begins a new chain. -/
theorem spread_write (row : Row) (hchain : m.chain (E.point key) = o :: seg) {c : Copy}
    (hc : c.rank = 1) :
    Spread E.copies.toNat o seg (some ⟨2, c.value⟩) (Function.update row o (some c))
      (row.write E m key o c) := by
  have ho : (m.chain (E.point key)).head? = some o := by rw [hchain]; rfl
  have htwo := two_le E
  have harrive : c.arrive E.copies.toNat ((m.view o).owns (E.point key)) (row o) =
      (c, some ⟨2, c.value⟩) := by
    have hnext : c.next E.copies.toNat = some ⟨2, c.value⟩ := by
      rw [Copy.next, hc, if_pos (by omega)]
    rw [Copy.arrive, ← hnext]
    cases row o with
    | none => rfl
    | some h => rw [Option.filter_some, if_neg (by simp [hc])]
  have hwalk : row.write E m key o c = send E.copies.toNat m (E.point key) E.copies.toNat
      (m.view o).nextHop (some ⟨2, c.value⟩) (Function.update row o (some c)) := by
    simp only [write, walk_succ, Option.bind_some, harrive]
  rw [hwalk]
  have hchain' : m.chain (E.point key) = [] ++ o :: seg := hchain
  exact spread_send_of_value (c := ⟨2, c.value⟩) hchain' ho (Function.update_self ..) hc
    (fun _ => rfl) le_rfl htwo (Nat.lt_add_of_pos_left Nat.two_pos)

theorem written (row : Row) (hchain : m.chain (E.point key) = o :: seg) (v : Bytes) :
    row.write E m key o ⟨1, v⟩ o = some ⟨1, v⟩ ∧
      seg.map (row.write E m key o ⟨1, v⟩) =
        carry E.copies.toNat (some ⟨2, v⟩) (seg.map row) :=
  (spread_write row hchain (c := ⟨1, v⟩) rfl).of_owner (two_le E) (Members.notMem_of_head hchain)

theorem given_eq (hp : p ∉ m) {s : Point} (hs : (m.insert p).successor p = some s) :
    Node.given E ((m.predecessor s).getD s) p key =
      decide ((m.insert p).owner (E.point key) = some p) := by
  rw [Bool.eq_iff_iff, Node.given, decide_eq_true_eq]
  exact Members.inArc_predecessor (Members.mem_insert.2 (.inl rfl))
    (Members.predecessor_insert hp hs)

/-- A node that does not hold the first copy, or need not give it, hands nothing over. -/
theorem migrate_of_ne_one {given : Bool} {s : Point}
    (h : ∀ c, row s = some c → ¬(c.rank = 1 ∧ given = true)) : migrate given s p row = row := by
  have hfilter : (row s).filter (fun c => decide (c.rank = 1 ∧ given = true)) = none := by
    rw [Option.filter_eq_none_iff]
    intro c hc
    simpa using h c hc
  have hdemote : (row s).map (Copy.demote given) = row s := by
    cases hc : row s with
    | none => rfl
    | some c => rw [Option.map_some, Copy.demote, if_neg (h c hc)]
  rw [migrate, hfilter, Option.none_or, hdemote, Function.update_eq_self, Function.update_eq_self]

/-- The node behind a new member that does not become the owner hands nothing over. -/
theorem react_newPredecessor_other {s : Point} (hp : p ∉ m)
    (hs : (m.insert p).successor p = some s)
    (ho : ((m.insert p).chain (E.point key)).head? = some o) (hop : o ≠ p) (hops : Nat)
    (row : Row) :
    row.react E (m.insert p) key hops s (.newPredecessor (m.predecessor s) p) = row := by
  have hgiven : Node.given E ((m.predecessor s).getD s) p key = false := by
    rw [given_eq hp hs, Members.owner_eq_head, ho]
    simpa using hop
  rw [react, hgiven, migrate_of_ne_one fun _ _ h => Bool.false_ne_true h.2]

/-- To a new member that does not become the owner the node before it sends its copy. -/
theorem spread_join {w : Point} (hp : p ∉ m) (hnone : row p = none)
    (hchain : (m.insert p).chain (E.point key) = pre ++ w :: p :: seg)
    (ho : ((m.insert p).chain (E.point key)).head? = some o) {h : Copy} (hheld : row o = some h)
    (hone : h.rank = 1) (hrank : ∀ c, row w = some c → 1 ≤ c.rank) :
    Spread E.copies.toNat o (p :: seg) ((row w).bind (Copy.next E.copies.toNat)) row
      (row.move E m key (.join p)) := by
  have hchain' : (m.insert p).chain (E.point key) = (pre ++ [w]) ++ p :: seg := by
    rw [hchain, List.append_assoc]
    rfl
  have hop : o ≠ p := by
    rintro rfl
    rw [hnone] at hheld
    cases hheld
  obtain ⟨s, hs⟩ := Members.exists_successor_of_chain hchain
  have hpred : (m.insert p).predecessor p = some w := Members.predecessor_of_chain hchain
  have hsucc : (m.insert p).successor w = some p := Members.successor_of_chain hchain
  have hmove : row.move E m key (.join p) =
      replicate E.copies.toNat (m.insert p) (E.point key) (E.copies.toNat + 1) w p row := by
    have hrow : Function.update row p none = row := Function.update_eq_self_iff.2 hnone.symm
    rw [move, hrow, reacts, Members.joinNotifications, hs, hpred]
    simp only [Option.map_some, Option.toList_some, List.singleton_append, List.foldl_cons,
      List.foldl_nil, react_newPredecessor_other hp hs ho hop]
    rfl
  rw [hmove, replicate_eq_send _ hsucc]
  exact spread_replicate hchain ho hheld hone hrank (by omega)

/-- A new member that becomes the owner gets the first copy from the owner before it, and then
    a copy from the last node of the chain. -/
theorem spread_join_owner {s w : Point} (hp : p ∉ m)
    (hchain : (m.insert p).chain (E.point key) = p :: s :: seg)
    (hlast : (s :: seg).getLast? = some w) {h : Copy} (hheld : row s = some h) (hone : h.rank = 1)
    (hrank : ∀ c, row w = some c → 1 ≤ c.rank) {row₁ : Row}
    (hrow₁ : row₁ = Function.update (Function.update row p (some h)) s (some ⟨2, h.value⟩)) :
    Spread E.copies.toNat p [] ((row₁ w).bind (Copy.next E.copies.toNat)) row₁
      (row.move E m key (.join p)) := by
  have ho : ((m.insert p).chain (E.point key)).head? = some p := by rw [hchain]; rfl
  have hnodup := (m.insert p).nodup_chain (E.point key)
  rw [hchain] at hnodup
  have hps : p ≠ s := fun e => (List.nodup_cons.1 hnodup).1 (e ▸ List.mem_cons_self)
  have hsucc : (m.insert p).successor p = some s := Members.successor_of_head hchain
  have hpred : (m.insert p).predecessor p = some w := by
    rw [Members.predecessor_of_head hchain, hlast]
  obtain ⟨pre, hpre⟩ : ∃ pre, s :: seg = pre ++ [w] := List.getLast?_eq_some_iff.1 hlast
  have hchainw : (m.insert p).chain (E.point key) = (p :: pre) ++ w :: [] := by
    rw [hchain, hpre]
    rfl
  have hsuccw : (m.insert p).successor w = some p := by
    rw [Members.successor_eq hchainw]
    rfl
  have hgiven : Node.given E ((m.predecessor s).getD s) p key = true := by
    rw [given_eq hp hsucc, Members.owner_eq_head, ho]
    simp
  have hp₁ : row₁ p = some h := by
    rw [hrow₁, Function.update_of_ne hps, Function.update_self]
  have hmove : row.move E m key (.join p) =
      replicate E.copies.toNat (m.insert p) (E.point key) (E.copies.toNat + 1) w p row₁ := by
    -- First the owner before it hands its copy over, then the last node sends its own.
    have hmigrate : react E (m.insert p) key (E.copies.toNat + 1) s (Function.update row p none)
        (.newPredecessor (m.predecessor s) p) = row₁ := by
      rw [hrow₁, react, hgiven, migrate, Function.update_of_ne hps.symm, hheld, Option.filter_some,
        if_pos (by simp [hone]), Option.some_or, Function.update_idem, Option.map_some,
        Copy.demote, if_pos ⟨hone, rfl⟩]
    rw [move, reacts, Members.joinNotifications, hsucc, hpred]
    simp only [Option.map_some, Option.toList_some, List.singleton_append, List.foldl_cons,
      List.foldl_nil, hmigrate]
    rfl
  rw [hmove, replicate_eq_send _ hsuccw]
  refine spread_replicate hchainw ho hp₁ hone (fun c hc => ?_) (by omega)
  rw [hrow₁] at hc
  by_cases hws : w = s
  · rw [hws, Function.update_self, Option.some.injEq] at hc
    rw [← hc]
    exact Nat.le_succ 1
  · have hwp : w ≠ p := by
      rintro rfl
      exact (List.nodup_cons.1 hnodup).1 (hpre ▸ by simp)
    rw [Function.update_of_ne hws, Function.update_of_ne hwp] at hc
    exact hrank c hc

/-- `row₁` is `row` after the node at `y` has taken over from its predecessor, with the stretch
    `seg` of the chain behind it. -/
def TakenOver (n : Nat) (o y : Point) (seg : List Point) (row row₁ : Row) : Prop :=
  (∀ c, row y = some c → c.rank = 2 →
    Spread n o seg (some c) (Function.update row y (some ⟨1, c.value⟩)) row₁) ∧
  ((∀ c, row y = some c → c.rank ≠ 2) → row₁ = row)

theorem TakenOver.cases {y : Point} {row₁ : Row} (ht : TakenOver n o y seg row row₁) :
    (∃ c, row y = some c ∧ c.rank = 2 ∧
      Spread n o seg (some c) (Function.update row y (some ⟨1, c.value⟩)) row₁) ∨
    (∀ c, row y = some c → c.rank ≠ 2) ∧ row₁ = row := by
  by_cases htwo : ∃ c, row y = some c ∧ c.rank = 2
  · obtain ⟨c, hc, hr⟩ := htwo
    exact .inl ⟨c, hc, hr, ht.1 c hc hr⟩
  · have hne : ∀ c, row y = some c → c.rank ≠ 2 := fun c hc hr => htwo ⟨c, hc, hr⟩
    exact .inr ⟨hne, ht.2 hne⟩

/-- A node that does not hold the second copy takes nothing over. -/
theorem takeOver_of_ne_two (h : ∀ c, row p = some c → c.rank ≠ 2) (hops : Nat) :
    takeOver n m k hops p row = row := by
  have hfilter : (row p).filter (fun c => decide (c.rank = 2)) = none := by
    rw [Option.filter_eq_none_iff]
    intro c hc
    simpa using h c hc
  have hpromote : (row p).map Copy.promote = row p := by
    cases hc : row p with
    | none => rfl
    | some c => rw [Option.map_some, Copy.promote, if_neg (h c hc)]
  rw [takeOver, hfilter, send_none, hpromote, Function.update_eq_self]

theorem takenOver (row : Row) (hchain : m.chain k = pre ++ p :: seg)
    (ho : (m.chain k).head? = some o) (hn : 2 ≤ n)
    (hheld : p = o ∨ ∃ h, row o = some h ∧ h.rank = 1) {hops : Nat} (hhops : n ≤ hops) :
    TakenOver n o p seg row (takeOver n m k hops p row) := by
  constructor
  · intro c hc htwo
    have hpromote : (row p).map Copy.promote = some ⟨1, c.value⟩ := by
      rw [hc, Option.map_some, Copy.promote, if_pos htwo]
    have hle : c.rank ≤ n := by omega
    have hlt : n < c.rank + hops := by omega
    rw [takeOver, hpromote, hc, Option.filter_some, if_pos (by simpa using htwo)]
    by_cases hpo : p = o
    · subst hpo
      exact spread_send_of_value (h := ⟨1, c.value⟩) (c := c) hchain ho
        (Function.update_self ..) rfl (fun _ => rfl) htwo.ge hle hlt
    · obtain ⟨h, hh, hone⟩ := hheld.resolve_left hpo
      refine spread_send_of_value hchain ho ?_ hone (fun e => absurd e hpo) htwo.ge hle hlt
      rw [Function.update_of_ne (Ne.symm hpo), hh]
  · exact fun hne => takeOver_of_ne_two hne hops

/-- Outside the stretch all ranks stay. -/
theorem Spread.rank {c : Option Copy} {row' : Row} (hs : Spread n o seg c row row') {q : Point}
    (hq : q ∉ seg) : (row' q).map (·.rank) = (row q).map (·.rank) := by
  by_cases hqo : q = o
  · rw [hqo, hs.owner]
    cases spill n c seg.length with
    | none => rfl
    | some c => exact Option.map_map ..
  · rw [hs.other q hqo hq]

theorem one_le_of_mem_carry (n : Nat) (cells : List (Option Copy)) {c : Option Copy}
    (hcells : ∀ c, some c ∈ cells → 1 ≤ c.rank) (hc : ∀ c', c = some c' → 1 ≤ c'.rank) :
    ∀ c', some c' ∈ carry n c cells → 1 ≤ c'.rank := by
  induction cells generalizing c with
  | nil =>
    rw [carry_nil]
    exact hcells
  | cons cell cells ih =>
    cases c with
    | none =>
      rw [carry_none]
      exact hcells
    | some c =>
      intro c' hc'
      rw [carry, List.mem_cons] at hc'
      rcases hc' with h | h
      · exact hc c' h.symm
      · exact ih (fun c hc => hcells c (List.mem_cons_of_mem _ hc))
          (fun c₂ h₂ => (Copy.rank_of_next h₂).1) c' h

/-- Ranks count from 1 after a spread if they did before. -/
theorem Spread.one_le {c : Option Copy} {row' : Row} (hs : Spread n o seg c row row')
    (hrow : ∀ q c, row q = some c → 1 ≤ c.rank) (hc : ∀ c', c = some c' → 1 ≤ c'.rank) (q : Point) :
    ∀ c, row' q = some c → 1 ≤ c.rank := by
  intro c' hc'
  by_cases hq : q ∈ seg
  · refine one_le_of_mem_carry n (seg.map row) (fun c h => ?_) hc c' ?_
    · obtain ⟨r, -, hr⟩ := List.mem_map.1 h
      exact hrow r c hr
    · rw [← hs.stretch]
      exact List.mem_map.2 ⟨q, hq, hc'⟩
  · have h := hs.rank hq
    rw [hc', Option.map_some, eq_comm, Option.map_eq_some_iff] at h
    obtain ⟨c₀, hc₀, hr⟩ := h
    exact hr ▸ hrow q c₀ hc₀

theorem TakenOver.rank {y : Point} {row₁ : Row} (ht : TakenOver n o y seg row row₁) {q : Point}
    (hqy : q ≠ y) (hq : q ∉ seg) : (row₁ q).map (·.rank) = (row q).map (·.rank) := by
  rcases ht.cases with ⟨c, -, -, hs⟩ | ⟨-, rfl⟩
  · rw [hs.rank hq, Function.update_of_ne hqy]
  · rfl

/-- The node behind a failed one takes over. If the failed one was the last of the chain, that is
    the owner, which holds the first copy, and nothing changes. -/
theorem exists_takenOver {w x : Point} (hchain : m.chain k = pre ++ w :: x :: seg)
    (ho : (m.chain k).head? = some o) {h : Copy} (hheld : row o = some h) (hone : h.rank = 1)
    (hn : 2 ≤ n) {hops : Nat} (hhops : n ≤ hops) :
    ∃ s row₁, m.successor x = some s ∧ row₁ = takeOver n (m.erase x) k hops s row ∧
      (seg = [] → row₁ = row) ∧
      (∀ y seg', seg = y :: seg' → TakenOver n o y seg' row row₁) ∧
      ∀ q ∈ pre ++ [w], (row₁ q).map (·.rank) = (row q).map (·.rank) := by
  have hchain' : m.chain k = (pre ++ [w]) ++ x :: seg := by rw [hchain, List.append_cons]
  have hleft : (m.erase x).chain k = (pre ++ [w]) ++ seg := Members.chain_erase_of_chain hchain'
  have hhead : (pre ++ [w]).head? = some o := by
    rw [hchain] at ho
    cases pre <;> exact ho
  have ho' : ((m.erase x).chain k).head? = some o := by
    rw [hleft, List.head?_append, hhead, Option.some_or]
  cases seg with
  | nil =>
    -- Behind the last node of the chain comes the owner again, whose copy is no second one.
    have hs : m.successor x = some o := by
      rw [Members.successor_eq hchain', List.nil_append, hhead]
    have hround : (m.erase x).chain k = [] ++ o :: (pre ++ [w]).tail := by
      rw [hleft, List.append_nil]
      exact (List.cons_head?_tail hhead).symm
    have hstay := (takenOver row hround ho' hn (.inl rfl) hhops).2 fun c hc => by
      rw [hheld, Option.some.injEq] at hc
      rw [← hc]
      omega
    exact ⟨o, _, hs, rfl, fun _ => hstay, fun _ _ he => absurd he.symm (List.cons_ne_nil _ _),
      fun q _ => by rw [hstay]⟩
  | cons y seg =>
    have ht := takenOver row hleft ho' hn (.inr ⟨h, hheld, hone⟩) hhops
    have hnodup := m.nodup_chain k
    rw [hchain', List.nodup_append] at hnodup
    refine ⟨y, _, Members.successor_of_chain hchain', rfl,
      fun he => absurd he (List.cons_ne_nil _ _), fun y' seg' he => ?_, fun q hq => ht.rank ?_ ?_⟩
    · obtain ⟨rfl, rfl⟩ := List.cons.inj he
      exact ht
    · exact hnodup.2.2 q hq y (by simp)
    · exact fun hqs => hnodup.2.2 q hq q (by simp [hqs]) rfl

/-- The node before a failed one sends its copy to the node behind it. -/
theorem react_successorFailed {w x : Point} :
    react E m key (E.copies.toNat + 1) w row (.successorFailed x (m.successor w)) =
      send E.copies.toNat m (E.point key) (E.copies.toNat + 1) (m.view w).nextHop
        ((row w).bind (Copy.next E.copies.toNat)) row := by
  cases hs : m.successor w with
  | none => rw [View.nextHop, Members.view, hs]; rfl
  | some q => exact replicate_eq_send _ hs

/-- If a node fails that is not the owner, the node behind it takes over, and the node before it
    sends its copy on. -/
theorem spread_fail {w x : Point} (hchain : m.chain (E.point key) = pre ++ w :: x :: seg)
    (ho : (m.chain (E.point key)).head? = some o) {h : Copy} (hheld : row o = some h)
    (hone : h.rank = 1) (hrank : ∀ q c, row q = some c → 1 ≤ c.rank) :
    ∃ row₁,
      (seg = [] → row₁ = Function.update row x none) ∧
      (∀ y seg', seg = y :: seg' →
        TakenOver E.copies.toNat o y seg' (Function.update row x none) row₁) ∧
      Spread E.copies.toNat o seg ((row₁ w).bind (Copy.next E.copies.toNat)) row₁
        (row.move E m key (.fail x)) := by
  have hnodup := m.nodup_chain (E.point key)
  rw [hchain, List.append_cons, List.nodup_append] at hnodup
  have hhead : (pre ++ [w]).head? = some o := by
    rw [hchain] at ho
    cases pre <;> exact ho
  have hox : o ≠ x := hnodup.2.2 o (List.mem_of_head? hhead) x List.mem_cons_self
  have hwx : w ≠ x := hnodup.2.2 w (by simp) x List.mem_cons_self
  have hheld₀ : Function.update row x none o = some h := by rw [Function.update_of_ne hox, hheld]
  have hpred : m.predecessor x = some w := Members.predecessor_of_chain hchain
  -- The node behind the failed one, and the row after it has taken over.
  obtain ⟨s, row₁, hs, hrow₁, hnil, hcons, hranks⟩ := exists_takenOver (n := E.copies.toNat)
    hchain ho hheld₀ hone (two_le E) (Nat.le_succ _)
  refine ⟨row₁, hnil, hcons, ?_⟩
  obtain ⟨h', hheld₁, hone₁⟩ : ∃ h', row₁ o = some h' ∧ h'.rank = 1 := by
    have h := hranks o (List.mem_of_head? hhead)
    rw [hheld₀, Option.map_some, hone, Option.map_eq_some_iff] at h
    exact h
  have hrank₁ : ∀ c, row₁ w = some c → 1 ≤ c.rank := by
    intro c hc
    have h := hranks w (by simp)
    rw [hc, Option.map_some, Function.update_of_ne hwx, eq_comm, Option.map_eq_some_iff] at h
    obtain ⟨c', hc', hr⟩ := h
    exact hr ▸ hrank w c' hc'
  have hleft : (m.erase x).chain (E.point key) = pre ++ w :: seg := by
    rw [List.append_cons] at hchain ⊢
    exact Members.chain_erase_of_chain hchain
  have hmove : row.move E m key (.fail x) =
      react E (m.erase x) key (E.copies.toNat + 1) w row₁
        (.successorFailed x ((m.erase x).successor w)) := by
    rw [move, reacts, Members.failNotifications, hs, hpred, hrow₁]
    rfl
  rw [hmove, react_successorFailed]
  exact spread_replicate hleft ((Members.head?_eq_of_chain hchain hleft).trans ho) hheld₁ hone₁
    hrank₁ (by omega)

/-- If the owner fails, the node behind it takes over, and the last node of the chain sends it
    its copy. -/
theorem spread_fail_owner {x y w : Point} (hchain : m.chain (E.point key) = x :: y :: seg)
    (hlast : (y :: seg).getLast? = some w) {c : Copy} (hc : row y = some c) (htwo : c.rank = 2)
    (hrank : ∀ q c, row q = some c → 1 ≤ c.rank) :
    ∃ row₁, Spread E.copies.toNat y seg (some c)
        (Function.update (Function.update row x none) y (some ⟨1, c.value⟩)) row₁ ∧
      Spread E.copies.toNat y [] ((row₁ w).bind (Copy.next E.copies.toNat)) row₁
        (row.move E m key (.fail x)) := by
  have hleft : (m.erase x).chain (E.point key) = y :: seg :=
    Members.chain_erase_of_head hchain
  have ho' : ((m.erase x).chain (E.point key)).head? = some y := by rw [hleft]; rfl
  have hnodup := m.nodup_chain (E.point key)
  rw [hchain] at hnodup
  have hyx : y ≠ x := fun e => (List.nodup_cons.1 hnodup).1 (e ▸ List.mem_cons_self)
  have hsucc : m.successor x = some y := Members.successor_of_head hchain
  have hpred : m.predecessor x = some w := by
    rw [Members.predecessor_of_head hchain, hlast]
  have hc₀ : Function.update row x none y = some c := by rw [Function.update_of_ne hyx, hc]
  have hround : (m.erase x).chain (E.point key) = [] ++ y :: seg := hleft
  -- The node behind is told first and takes over; the one before acts on what this leaves.
  have ht := (takenOver (Function.update row x none) hround ho' (two_le E)
    (.inl rfl) (Nat.le_succ _)).1 c hc₀ htwo
  set row₁ := takeOver E.copies.toNat (m.erase x) (E.point key) (E.copies.toNat + 1) y
    (Function.update row x none)
  obtain ⟨pre, hpre⟩ : ∃ pre, y :: seg = pre ++ [w] := List.getLast?_eq_some_iff.1 hlast
  have hleft' : (m.erase x).chain (E.point key) = pre ++ w :: [] := by rw [hleft, hpre]
  have hheld₁ : ∃ h, row₁ y = some h ∧ h.rank = 1 := by
    have hy : y ∉ seg := (List.nodup_cons.1 (List.nodup_cons.1 hnodup).2).1
    have h := ht.rank hy
    rw [Function.update_self, Option.map_some, Option.map_eq_some_iff] at h
    exact h
  obtain ⟨h₁, hheld₁, hone₁⟩ := hheld₁
  have hrank₁ : ∀ c, row₁ w = some c → 1 ≤ c.rank := by
    refine ht.one_le (fun q c' hc' => ?_) (fun c' hc' => ?_) w
    · by_cases hqy : q = y
      · rw [hqy, Function.update_self, Option.some.injEq] at hc'
        rw [← hc']
      · rw [Function.update_of_ne hqy] at hc'
        by_cases hqx : q = x
        · rw [hqx, Function.update_self] at hc'
          cases hc'
        · rw [Function.update_of_ne hqx] at hc'
          exact hrank q c' hc'
    · rw [← Option.some.inj hc']
      omega
  refine ⟨row₁, ht, ?_⟩
  have hmove : row.move E m key (.fail x) =
      react E (m.erase x) key (E.copies.toNat + 1) w row₁
        (.successorFailed x ((m.erase x).successor w)) := by
    rw [move, reacts, Members.failNotifications, hsucc, hpred]
    rfl
  rw [hmove, react_successorFailed]
  exact spread_replicate hleft' ho' hheld₁ hone₁ hrank₁ (by omega)

end ReplicaRing.Row

import ReplicaRing.Node
import ReplicaRing.Proofs.Store

/-!
# What a node does, key by key

A node shows a shelf as its store does (`Node.Shows`), and a batch is a shelf too
(`Batch.shelf`): the copies it brings. All a node does it does for every key apart, so what
becomes of its shelf, and what it sends on, is told by functions on the copies of one key:

* `Copy.arrive`: a copy is brought to a node that stores it and sends the next one on, unless
  it came round to an owner that holds a lower one;
* `Copy.next`: the copy that a node sends to a new successor;
* `Copy.promote`: a second copy becomes the first.

`Node.Shows.makeReplicas`, `replicateTo`, `takeOver` and `migrate` say that this is what the
operations of a node do.
-/

namespace ReplicaRing

/-! ## One key -/

namespace Copy

/-- The next copy of a chain of `n`. -/
def next (n : Nat) (c : Copy) : Option Copy :=
  if c.rank < n then some ⟨c.rank + 1, c.value⟩ else none

/-- What a node that held `held` has once `c` is brought to it, and what it sends on. -/
def arrive (n : Nat) (owned : Bool) (held : Option Copy) (c : Copy) : Copy × Option Copy :=
  match held.filter fun h => c.rank ≠ 1 ∧ owned ∧ h.rank < c.rank with
  | some h => (⟨h.rank, c.value⟩, none)
  | none => (c, c.next n)

/-- The second copy as the first. -/
def promote (c : Copy) : Copy := if c.rank = 2 then ⟨1, c.value⟩ else c

/-- A first copy that was handed over as the second. -/
def demote (given : Bool) (c : Copy) : Copy := if c.rank = 1 ∧ given then ⟨2, c.value⟩ else c

theorem rank_of_next {n : Nat} {c c' : Copy} (h : c.next n = some c') :
    1 ≤ c'.rank ∧ c'.rank ≤ n := by
  rw [next] at h
  split at h
  · rw [Option.some.injEq] at h
    rw [← h]
    exact ⟨Nat.succ_pos _, by assumption⟩
  · cases h

theorem value_of_next {n : Nat} {c c' : Copy} (h : c.next n = some c') : c'.value = c.value := by
  rw [next] at h
  split at h
  · rw [← Option.some.inj h]
  · cases h

@[simp] theorem value_promote (c : Copy) : c.promote.value = c.value := by
  rw [promote]
  split <;> rfl

end Copy

/-! ## Shelves -/

namespace Shelf

/-- One copy. -/
def single (key : String) (c : Copy) : Shelf := Function.update (fun _ => none) key (some c)

variable (n : Nat) (owns : String → Bool) (f g : Shelf)

/-- The shelf of a node that the copies `g` are brought to. -/
def settled : Shelf := fun k =>
  match g k with
  | none => f k
  | some c => some (c.arrive n (owns k) (f k)).1

/-- What the node sends on. -/
def onward : Shelf := fun k => (g k).bind fun c => (c.arrive n (owns k) (f k)).2

end Shelf

/-! ## Batches -/

namespace Batch

/-- The copies that a batch brings. -/
def shelf (b : Batch) : Shelf := fun k =>
  (b.find? fun x => x.1.name = k).map fun x => ⟨x.1.rank.toNat, x.2⟩

/-- The batch brings at most one copy of each key, and only copies that are allowed. -/
structure Fits (E : Setting) (b : Batch) : Prop where
  nodup : (b.map fun x => x.1.name).Nodup
  key : ∀ x ∈ b, x.1.key = E.space.key x.1.name
  allows : ∀ x ∈ b, E.Allows x.1.name ⟨x.1.rank.toNat, x.2⟩

variable {E : Setting} {b : Batch} {r : Replica} {value : Bytes}

@[simp] theorem shelf_nil : shelf [] = fun _ => none := rfl

theorem shelf_cons (r : Replica) (value : Bytes) (b : Batch) :
    shelf ((r, value) :: b) = Function.update (shelf b) r.name (some ⟨r.rank.toNat, value⟩) := by
  funext k
  by_cases hk : k = r.name
  · subst hk
    rw [Function.update_self, shelf, List.find?_cons_of_pos (by simp)]
    rfl
  · rw [Function.update_of_ne hk, shelf, shelf, List.find?_cons_of_neg (by simpa using Ne.symm hk)]

theorem shelf_eq_none {k : String} : b.shelf k = none ↔ k ∉ b.map fun x => x.1.name := by
  rw [shelf, Option.map_eq_none_iff, List.find?_eq_none, List.mem_map]
  simp

theorem Fits.shelf_of_mem {x : Replica × Bytes} (h : Fits E b) (hx : x ∈ b) :
    b.shelf x.1.name = some ⟨x.1.rank.toNat, x.2⟩ := by
  have hnodup := h.nodup
  clear h
  induction b with
  | nil => exact absurd hx List.not_mem_nil
  | cons y b ih =>
    obtain ⟨r, value⟩ := y
    obtain ⟨hr, hnodup⟩ := List.nodup_cons.1 hnodup
    rw [shelf_cons]
    rcases List.mem_cons.1 hx with rfl | hx
    · rw [Function.update_self]
    · have hne : x.1.name ≠ r.name := fun he => hr (List.mem_map.2 ⟨x, hx, he⟩)
      rw [Function.update_of_ne hne]
      exact ih hx hnodup

theorem fits_nil : Fits E [] where
  nodup := List.nodup_nil
  key _ hx := absurd hx List.not_mem_nil
  allows _ hx := absurd hx List.not_mem_nil

theorem Fits.tail {x : Replica × Bytes} (h : Fits E (x :: b)) : Fits E b where
  nodup := (List.nodup_cons.1 h.nodup).2
  key y hy := h.key y (List.mem_cons_of_mem _ hy)
  allows y hy := h.allows y (List.mem_cons_of_mem _ hy)

theorem insert_perm (value : Bytes) (h : r.name ∉ b.map fun x => x.1.name) :
    (Batch.insert r value b).Perm ((r, value) :: b) := by
  induction b with
  | nil => exact .refl _
  | cons x b ih =>
    obtain ⟨s, v⟩ := x
    rw [List.map_cons, List.mem_cons, not_or] at h
    rw [Batch.insert]
    split
    · exact .refl _
    · rw [if_neg h.1]
      exact ((ih h.2).cons _).trans (.swap _ _ _)

theorem shelf_insert (value : Bytes) (h : r.name ∉ b.map fun x => x.1.name) :
    shelf (Batch.insert r value b) =
      Function.update (shelf b) r.name (some ⟨r.rank.toNat, value⟩) := by
  induction b with
  | nil => exact shelf_cons r value []
  | cons x b ih =>
    obtain ⟨s, v⟩ := x
    rw [List.map_cons, List.mem_cons, not_or] at h
    rw [Batch.insert]
    split
    · exact shelf_cons r value _
    · rw [if_neg h.1, shelf_cons, shelf_cons, ih h.2, Function.update_comm (Ne.symm h.1)]

theorem Fits.insert (hb : Fits E b) (value : Bytes) (h : r.name ∉ b.map fun x => x.1.name)
    (hkey : r.key = E.space.key r.name) (ha : E.Allows r.name ⟨r.rank.toNat, value⟩) :
    Fits E (Batch.insert r value b) := by
  have hp := insert_perm value h
  refine ⟨?_, fun x hx => ?_, fun x hx => ?_⟩
  · rw [(hp.map _).nodup_iff, List.map_cons, List.nodup_cons]
    exact ⟨h, hb.nodup⟩
  · rcases List.mem_cons.1 (hp.mem_iff.1 hx) with rfl | hx
    · exact hkey
    · exact hb.key x hx
  · rcases List.mem_cons.1 (hp.mem_iff.1 hx) with rfl | hx
    · exact ha
    · exact hb.allows x hx

end Batch

/-! ## Storing batches -/

/-- The node shows the shelf after at most `b` writes to each key. -/
structure Node.Shows (E : Setting) (b : Nat) (node : Node) (f : Shelf) : Prop where
  space : node.space = E.space
  copies : node.copies = E.copies
  store : node.store.Shows E (fun _ => b) f

namespace Node

variable {E : Setting} {b : String → Nat} {node : Node} {store : Store} {f : Shelf} {view : View}
  {r : Replica} {key : String} {value : Bytes} {now : Time} {c : Copy}

/-- The keys of the setting that the view gives to its node. -/
def owned (E : Setting) (view : View) (k : String) : Bool := view.owns (E.point k)

theorem exists_refresh (hs : store.Shows E b f) (hc : f key = some c)
    (hkey : r.key = E.space.key key) (hrank : r.rank.toNat = c.rank)
    (hl : value.length ≤ E.longest) (hb : b key < E.budget) (hnow : now.toNat ≤ E.latest) :
    ∃ store', refresh store r value now = (.ok (), store') ∧
      store'.Shows E (Function.update b key (b key + 1))
        (Function.update f key (some ⟨c.rank, value⟩)) := by
  have ha := hs.allows key c hc
  have hname : r.name = key := congrArg Key.name hkey
  obtain ⟨store₁, hg, hs₁⟩ := hs.get ha.key
  rw [hc, Option.map_some] at hg
  by_cases hv : c.value = value
  · refine ⟨store₁, by rw [refresh, hname, hg]; exact if_pos (congrArg some hv), ?_⟩
    have hf : Function.update f key (some ⟨c.rank, value⟩) = f :=
      Function.update_eq_self_iff.2 (by rw [hc, ← hv])
    rw [hf]
    refine hs₁.mono fun k => ?_
    by_cases hk : k = key
    · subst hk
      rw [Function.update_self]
      exact Nat.le_succ _
    · rw [Function.update_of_ne hk]
  · obtain ⟨t, store₂, hp, hs₂⟩ := hs₁.putReplica (r := r) value hkey
      ⟨ha.key, hrank ▸ ha.one_le_rank, hrank ▸ ha.rank_le, hl⟩ hb hnow
    rw [hrank] at hs₂
    refine ⟨store₂, ?_, hs₂⟩
    rw [refresh, hname, hg]
    simp only [Option.some.injEq, if_neg hv, hp]
    rfl

/-- The lower copy that keeps an owner from storing another one. -/
theorem lowerHeld?_of_filter (view : View) (hs : node.store.Shows E b f)
    (hkey : r.key = E.space.key key) :
    (∀ h, (f key).filter (fun h => r.rank.toNat ≠ 1 ∧ owned E view key ∧ h.rank < r.rank.toNat) =
      some h → ∃ held, node.lowerHeld? view r = some held ∧ held.key = E.space.key key ∧
        held.rank.toNat = h.rank) ∧
    ((f key).filter (fun h => r.rank.toNat ≠ 1 ∧ owned E view key ∧ h.rank < r.rank.toNat) =
      none → node.lowerHeld? view r = none) := by
  have hname : r.name = key := congrArg Key.name hkey
  have hone : r.rank = 1 ↔ r.rank.toNat = 1 := UInt32.toNat_inj.symm
  have howns : view.owns r.key.point = owned E view key := by rw [hkey]; rfl
  rw [lowerHeld?, howns, hname]
  by_cases hskip : r.rank = 1 ∨ owned E view key = false
  · -- First copies, and copies of keys that another node owns, are always stored.
    rw [if_pos hskip]
    refine ⟨fun h hh => ?_, fun _ => rfl⟩
    rw [Option.filter_eq_some_iff] at hh
    rw [hone] at hskip
    rcases hskip with h' | h' <;> simp [h'] at hh
  · rw [if_neg hskip]
    rw [hone, not_or, Bool.not_eq_false] at hskip
    cases hf : f key with
    | none => exact ⟨nofun, fun _ => by rw [hs.replica?_eq_none.2 hf]; rfl⟩
    | some h =>
      obtain ⟨held, hheld, hk, hr⟩ := hs.replica?_eq_some hf
      have hlt : held.rank < r.rank ↔ h.rank < r.rank.toNat := by rw [UInt32.lt_iff_toNat_lt, hr]
      rw [hheld, Option.filter_some, Option.filter_some]
      simp only [hlt, ne_eq, hskip, not_false_eq_true, true_and, decide_eq_true_eq]
      by_cases hlt' : h.rank < r.rank.toNat
      · rw [if_pos hlt', if_pos hlt']
        refine ⟨fun h' hh => ?_, nofun⟩
        rw [Option.some.injEq] at hh
        exact ⟨held, rfl, hk, hh ▸ hr⟩
      · rw [if_neg hlt', if_neg hlt']
        exact ⟨nofun, fun _ => rfl⟩

/-- One copy is brought to the node. -/
theorem exists_storeReplica (view : View) (hs : node.store.Shows E b f)
    (hn : node.copies = E.copies)
    (hkey : r.key = E.space.key key) (ha : E.Allows key ⟨r.rank.toNat, value⟩)
    (hb : b key < E.budget) (hnow : now.toNat ≤ E.latest) :
    ∃ goesOn store', node.storeReplica view r value now = (.ok goesOn, store') ∧
      store'.Shows E (Function.update b key (b key + 1)) (Function.update f key
        (some (Copy.arrive E.copies.toNat (owned E view key) (f key) ⟨r.rank.toNat, value⟩).1)) ∧
      (Copy.arrive E.copies.toNat (owned E view key) (f key) ⟨r.rank.toNat, value⟩).2 =
        if goesOn then some ⟨r.rank.toNat + 1, value⟩ else none := by
  obtain ⟨hsome, hnone⟩ := lowerHeld?_of_filter view hs hkey
  rw [storeReplica, Copy.arrive]
  cases hf : (f key).filter
      fun h => r.rank.toNat ≠ 1 ∧ owned E view key ∧ h.rank < r.rank.toNat with
  | some h =>
    obtain ⟨held, hheld, hk, hr⟩ := hsome h hf
    have hfk : f key = some h := (Option.filter_eq_some_iff.1 hf).1
    obtain ⟨store', hre, hs'⟩ := exists_refresh hs hfk hk hr ha.length_le hb hnow
    refine ⟨false, store', ?_, hs', rfl⟩
    rw [hheld]
    simp only [hre]
    rfl
  | none =>
    obtain ⟨t, store', hp, hs'⟩ := hs.putReplica value hkey ha hb hnow
    refine ⟨decide (r.rank < node.copies), store', ?_, hs', ?_⟩
    · rw [hnone hf]
      simp only [hp]
      rfl
    · have hlt : r.rank < node.copies ↔ r.rank.toNat < E.copies.toNat := by
        rw [hn, UInt32.lt_iff_toNat_lt]
      simp only [Copy.next, hlt, decide_eq_true_eq]

/-- What is gathered for the next node when a copy of a new key was brought to this one. -/
theorem gathered {onward : Batch} {held : Option Copy} {own goesOn : Bool} (honward : onward.Fits E)
    (hfresh : r.name ∉ onward.map fun x => x.1.name) (hkey : r.key = E.space.key r.name)
    (ha : E.Allows r.name ⟨r.rank.toNat, value⟩)
    (hon : (Copy.arrive E.copies.toNat own held ⟨r.rank.toNat, value⟩).2 =
      if goesOn then some ⟨r.rank.toNat + 1, value⟩ else none) :
    Batch.Fits E (if goesOn then Batch.insert { r with rank := r.rank + 1 } value onward
      else onward) ∧
    Batch.shelf (if goesOn then Batch.insert { r with rank := r.rank + 1 } value onward
      else onward) = Function.update onward.shelf r.name
        (Copy.arrive E.copies.toNat own held ⟨r.rank.toNat, value⟩).2 := by
  cases goesOn with
  | false =>
    refine ⟨honward, ?_⟩
    rw [hon, if_neg Bool.false_ne_true, if_neg Bool.false_ne_true,
      Function.update_eq_self_iff.2 (Batch.shelf_eq_none.2 hfresh).symm]
  | true =>
    -- Nothing goes on from the last rank, so the next one does not wrap round.
    have hlt : r.rank.toNat < E.copies.toNat := by
      by_contra hge
      rw [if_pos rfl, Copy.arrive] at hon
      split at hon
      · cases hon
      · rw [Copy.next, if_neg hge] at hon
        cases hon
    have hsucc := Rank.toNat_succ_of_lt (UInt32.lt_iff_toNat_lt.2 hlt)
    refine ⟨honward.insert value hfresh hkey ?_, ?_⟩
    · exact ⟨ha.key, hsucc ▸ Nat.succ_pos _, hsucc ▸ hlt, ha.length_le⟩
    · have hins := Batch.shelf_insert (r := { r with rank := r.rank + 1 }) value hfresh
      rw [if_pos rfl, hins, hon, if_pos rfl, hsucc]
      rfl

/-- A write to the first key of a batch leaves room for one to each of the others. -/
theorem count_le {B : Nat} {batch : Batch} (hr : r.name ∉ batch.map fun x => x.1.name)
    (hb : ∀ k, b k ≤ B + 1) (hbB : ∀ x ∈ (r, value) :: batch, b x.1.name ≤ B) :
    (∀ k, Function.update b r.name (b r.name + 1) k ≤ B + 1) ∧
      ∀ x ∈ batch, Function.update b r.name (b r.name + 1) x.1.name ≤ B := by
  constructor
  · intro k
    by_cases hk : k = r.name
    · subst hk
      rw [Function.update_self]
      exact Nat.succ_le_succ (hbB (r, value) List.mem_cons_self)
    · rw [Function.update_of_ne hk]
      exact hb k
  · intro x hx
    have hne : x.1.name ≠ r.name := fun h => hr (h ▸ List.mem_map_of_mem hx)
    rw [Function.update_of_ne hne]
    exact hbB x (List.mem_cons_of_mem _ hx)

/-- The first copy of a batch is settled before the others. -/
theorem settled_shelf_cons (n : Nat) (own : String → Bool) (f : Shelf) {batch : Batch}
    (hr : r.name ∉ batch.map fun x => x.1.name) :
    Shelf.settled n own (Function.update f r.name
        (some (Copy.arrive n (own r.name) (f r.name) ⟨r.rank.toNat, value⟩).1)) batch.shelf =
      f.settled n own (Batch.shelf ((r, value) :: batch)) := by
  funext k
  rw [Shelf.settled, Shelf.settled, Batch.shelf_cons]
  by_cases hk : k = r.name
  · subst hk
    rw [Function.update_self, Batch.shelf_eq_none.2 hr, Function.update_self]
  · rw [Function.update_of_ne hk, Function.update_of_ne hk]

/-- All copies of a batch are brought to the node, and those that go on are gathered. -/
theorem exists_storeReplicas {B : Nat} (view : View) (hB : B < E.budget)
    (hnow : now.toNat ≤ E.latest)
    {batch onward : Batch} (hn : node.copies = E.copies) (hspace : node.space = E.space)
    (hs : node.store.Shows E b f) (hb : ∀ k, b k ≤ B + 1) (hbatch : batch.Fits E)
    (hbB : ∀ x ∈ batch, b x.1.name ≤ B) (honward : onward.Fits E)
    (hdisjoint : ∀ k, batch.shelf k = none ∨ onward.shelf k = none) :
    ∃ onward' node', node.storeReplicas view now onward batch = (.ok onward', node') ∧
      node'.Shows E (B + 1) (f.settled E.copies.toNat (owned E view) batch.shelf) ∧
      onward'.Fits E ∧ ∀ k, onward'.shelf k =
        (f.onward E.copies.toNat (owned E view) batch.shelf k).or (onward.shelf k) := by
  induction batch generalizing node b f onward with
  | nil => exact ⟨onward, node, rfl, ⟨hspace, hn, hs.mono hb⟩, honward, fun _ => rfl⟩
  | cons x batch ih =>
    obtain ⟨r, value⟩ := x
    have hkey : r.key = E.space.key r.name := hbatch.key _ List.mem_cons_self
    have ha : E.Allows r.name ⟨r.rank.toNat, value⟩ := hbatch.allows _ List.mem_cons_self
    have hr : r.name ∉ batch.map fun x => x.1.name := (List.nodup_cons.1 hbatch.nodup).1
    have hbr : b r.name ≤ B := hbB (r, value) List.mem_cons_self
    obtain ⟨goesOn, store', hstore, hs', hon⟩ :=
      exists_storeReplica view hs hn hkey ha (hbr.trans_lt hB) hnow
    -- What is gathered stays a batch: no key of it is still to come.
    have hfresh : r.name ∉ onward.map fun x => x.1.name := by
      rw [← Batch.shelf_eq_none]
      refine (hdisjoint r.name).resolve_left fun h => ?_
      rw [Batch.shelf_cons, Function.update_self] at h
      cases h
    have hrest : Batch.shelf batch r.name = none := Batch.shelf_eq_none.2 hr
    obtain ⟨hfits, hshelf⟩ := gathered honward hfresh hkey ha hon
    obtain ⟨hb', hbB'⟩ := count_le hr hb hbB
    have hn' : { node with store := store' }.copies = E.copies := hn
    obtain ⟨onward', node', hrec, hs'', hfits', hshelf'⟩ :=
      ih hn' hspace hs' hb' hbatch.tail hbB' hfits
        fun k => by
          by_cases hk : k = r.name
          · subst hk
            exact .inl hrest
          · rw [hshelf, Function.update_of_ne hk]
            have := hdisjoint k
            rwa [Batch.shelf_cons, Function.update_of_ne hk] at this
    refine ⟨onward', node', ?_, ?_, hfits', fun k => ?_⟩
    · rw [storeReplicas, hstore]
      exact hrec
    · rw [← settled_shelf_cons _ _ _ hr]
      exact hs''
    · rw [hshelf' k, hshelf, Shelf.onward, Shelf.onward, Batch.shelf_cons]
      by_cases hk : k = r.name
      · subst hk
        rw [Function.update_self, hrest, Function.update_self, Option.bind_none,
          Option.none_or, Batch.shelf_eq_none.2 hfresh, Option.or_none, Function.update_self,
          Option.bind_some]
      · rw [Function.update_of_ne hk, Function.update_of_ne hk, Function.update_of_ne hk]

/-- No rank of a batch that fits is refused. -/
theorem rankError?_of_fits (hn : node.copies = E.copies) {batch : Batch} (hbatch : batch.Fits E) :
    node.rankError? batch = none :=
  rankError?_eq_none fun x hx =>
    ⟨(hbatch.allows x hx).one_le_rank, hn ▸ (hbatch.allows x hx).rank_le⟩

/-- A batch that was handed over is stored as it is. -/
theorem exists_storeAll {B : Nat} (hB : B < E.budget) (hnow : now.toNat ≤ E.latest) {batch : Batch}
    (hs : store.Shows E b f) (hb : ∀ k, b k ≤ B + 1) (hbatch : batch.Fits E)
    (hbB : ∀ x ∈ batch, b x.1.name ≤ B) :
    ∃ store', storeAll store now batch = (.ok (), store') ∧
      store'.Shows E (fun _ => B + 1) fun k => (batch.shelf k).or (f k) := by
  induction batch generalizing store b f with
  | nil => exact ⟨store, rfl, hs.mono hb⟩
  | cons x batch ih =>
    obtain ⟨r, value⟩ := x
    have hr : r.name ∉ batch.map fun x => x.1.name := (List.nodup_cons.1 hbatch.nodup).1
    obtain ⟨t, store₁, hput, hs₁⟩ := hs.putReplica value
      (hbatch.key _ List.mem_cons_self) (hbatch.allows _ List.mem_cons_self)
      ((hbB (r, value) List.mem_cons_self).trans_lt hB) hnow
    obtain ⟨hb', hbB'⟩ := count_le hr hb hbB
    obtain ⟨store', hrec, hs'⟩ := ih hs₁ hb' hbatch.tail hbB'
    refine ⟨store', ?_, ?_⟩
    · rw [storeAll, hput]
      exact hrec
    · convert hs' using 1
      funext k
      rw [Batch.shelf_cons]
      by_cases hk : k = r.name
      · subst hk
        rw [Function.update_self, Function.update_self, Batch.shelf_eq_none.2 hr]
        rfl
      · rw [Function.update_of_ne hk, Function.update_of_ne hk]

/-! ## Listed replicas -/

/-- Replicas that a node may ask for the values of: of each key at most one, and only of keys
    that it holds. -/
structure Known (E : Setting) (f : Shelf) (rs : List Replica) : Prop where
  nodup : (rs.map (·.name)).Nodup
  key : ∀ r ∈ rs, r.key = E.space.key r.name
  held : ∀ r ∈ rs, ∃ c, f r.name = some c
  one_le_rank : ∀ r ∈ rs, 1 ≤ r.rank.toNat
  rank_le : ∀ r ∈ rs, r.rank.toNat ≤ E.copies.toNat

/-- The replicas with the values of the shelf. -/
def valued (f : Shelf) (rs : List Replica) : Shelf := fun k =>
  (Catalog.find? rs k).bind fun r => (f k).map fun c => ⟨r.rank.toNat, c.value⟩

theorem Known.tail {rs : List Replica} (h : Known E f (r :: rs)) : Known E f rs where
  nodup := (List.nodup_cons.1 h.nodup).2
  key s hs := h.key s (List.mem_cons_of_mem _ hs)
  held s hs := h.held s (List.mem_cons_of_mem _ hs)
  one_le_rank s hs := h.one_le_rank s (List.mem_cons_of_mem _ hs)
  rank_le s hs := h.rank_le s (List.mem_cons_of_mem _ hs)

theorem valued_cons {rs : List Replica} (hr : r.name ∉ rs.map (·.name)) (hc : f r.name = some c) :
    valued f (r :: rs) =
        Function.update (valued f rs) r.name (some ⟨r.rank.toNat, c.value⟩) ∧
      valued f rs r.name = none := by
  constructor
  · funext k
    by_cases hk : k = r.name
    · subst hk
      rw [Function.update_self, valued, Catalog.find?, List.find?_cons_of_pos (by simp), hc]
      rfl
    · rw [Function.update_of_ne hk, valued, valued, Catalog.find?, Catalog.find?,
        List.find?_cons_of_neg (by simpa using Ne.symm hk)]
  · have hnone : Catalog.find? rs r.name = none := by
      rw [Catalog.find?, List.find?_eq_none]
      intro s hs
      rw [decide_eq_true_eq]
      exact fun h => hr (h ▸ List.mem_map_of_mem hs)
    rw [valued, hnone, Option.bind_none]

/-- The last values of known replicas are gathered. -/
theorem exists_latestValues {rs : List Replica} {batch : Batch} (hs : store.Shows E b f)
    (hrs : Known E f rs) (hbatch : batch.Fits E)
    (hnew : ∀ k, valued f rs k = none ∨ batch.shelf k = none) :
    ∃ batch' store', latestValues store batch rs = (.ok batch', store') ∧ store'.Shows E b f ∧
      batch'.Fits E ∧ ∀ k, batch'.shelf k = (valued f rs k).or (batch.shelf k) := by
  induction rs generalizing store batch with
  | nil => exact ⟨batch, store, rfl, hs, hbatch, fun _ => rfl⟩
  | cons r rs ih =>
    obtain ⟨c, hc⟩ := hrs.held r List.mem_cons_self
    have ha := hs.allows _ _ hc
    have hr : r.name ∉ rs.map (·.name) := (List.nodup_cons.1 hrs.nodup).1
    obtain ⟨hcons, hnone⟩ := valued_cons hr hc
    obtain ⟨store₁, hget, hs₁⟩ := hs.get ha.key
    rw [hc, Option.map_some] at hget
    -- The value of `r` is still to be gathered, so the batch has nothing under its name.
    have hfresh : batch.shelf r.name = none := by
      refine (hnew r.name).resolve_left fun h => ?_
      rw [hcons, Function.update_self] at h
      cases h
    have hins := Batch.shelf_insert c.value (Batch.shelf_eq_none.1 hfresh)
    obtain ⟨batch', store', hrec, hs', hfits, hshelf⟩ := ih hs₁ hrs.tail
      (hbatch.insert c.value (Batch.shelf_eq_none.1 hfresh)
        (hrs.key r List.mem_cons_self) ⟨ha.key, hrs.one_le_rank r List.mem_cons_self,
          hrs.rank_le r List.mem_cons_self, ha.length_le⟩) fun k => by
        by_cases hk : k = r.name
        · exact .inl (hk ▸ hnone)
        · rw [hins, Function.update_of_ne hk]
          have := hnew k
          rwa [hcons, Function.update_of_ne hk] at this
    refine ⟨batch', store', ?_, hs', hfits, fun k => ?_⟩
    · rw [latestValues, hget]
      exact hrec
    · rw [hshelf k, hins, hcons]
      by_cases hk : k = r.name
      · subst hk
        rw [Function.update_self, Function.update_self, hnone]
        rfl
      · rw [Function.update_of_ne hk, Function.update_of_ne hk]

/-- The replicas of a batch are known to a node that holds all copies of it. -/
theorem known_of_sub {batch : Batch} (hfits : batch.Fits E)
    (hsub : ∀ k c, batch.shelf k = some c → f k = some c) : Known E f (batch.map (·.1)) := by
  refine ⟨?_, fun r hr => ?_, fun r hr => ?_, fun r hr => ?_, fun r hr => ?_⟩
  · rw [List.map_map]
    exact hfits.nodup
  all_goals obtain ⟨x, hx, rfl⟩ := List.mem_map.1 hr
  · exact hfits.key x hx
  · exact ⟨_, hsub _ _ (hfits.shelf_of_mem hx)⟩
  · exact (hfits.allows x hx).one_le_rank
  · exact (hfits.allows x hx).rank_le

/-- The replicas of a batch have the values of the shelf if that holds all copies of it. -/
theorem valued_of_sub {batch : Batch} (hsub : ∀ k c, batch.shelf k = some c → f k = some c) :
    valued f (batch.map (·.1)) = batch.shelf := by
  funext k
  have hfind : Catalog.find? (batch.map (·.1)) k =
      (batch.find? fun x => x.1.name = k).map (·.1) := List.find?_map
  rw [valued, hfind]
  cases hx : batch.find? fun x => x.1.name = k with
  | none => rw [Batch.shelf, hx]; rfl
  | some x =>
    have hshelf : batch.shelf k = some ⟨x.1.rank.toNat, x.2⟩ := by rw [Batch.shelf, hx]; rfl
    rw [hshelf, hsub k _ hshelf]
    rfl

/-- Known replicas get another rank. -/
theorem exists_setRanks {rs : List Replica} (rank : Rank) (hs : store.Shows E b f)
    (hrs : Known E f rs) (hone : 1 ≤ rank.toNat) (hle : rank.toNat ≤ E.copies.toNat) :
    ∃ store', setRanks store rank rs = (.ok (), store') ∧ store'.Shows E b fun k =>
      ((valued f rs k).map fun c => ⟨rank.toNat, c.value⟩).or (f k) := by
  induction rs generalizing store f with
  | nil => exact ⟨store, rfl, hs⟩
  | cons r rs ih =>
    obtain ⟨c, hc⟩ := hrs.held r List.mem_cons_self
    have hr : r.name ∉ rs.map (·.name) := (List.nodup_cons.1 hrs.nodup).1
    obtain ⟨store₁, hset, hs₁⟩ := hs.setRank hc hone hle
    have hf : ∀ k, k ≠ r.name → Function.update f r.name (some ⟨rank.toNat, c.value⟩) k = f k :=
      fun k hk => Function.update_of_ne hk _ _
    have hne : ∀ s ∈ rs, s.name ≠ r.name := fun s hs h => hr (h ▸ List.mem_map_of_mem hs)
    -- A key that has got its rank is not met again.
    have hrs' : Known E (Function.update f r.name (some ⟨rank.toNat, c.value⟩)) rs :=
      { hrs.tail with held := fun s hs => hf _ (hne s hs) ▸ hrs.tail.held s hs }
    obtain ⟨store', hrec, hs'⟩ := ih hs₁ hrs'
    refine ⟨store', ?_, ?_⟩
    · rw [setRanks, hset]
      exact hrec
    · convert hs' using 1
      funext k
      obtain ⟨hcons, hnone⟩ := valued_cons hr hc
      rw [hcons]
      by_cases hk : k = r.name
      · subst hk
        have hnone' := (valued_cons hr
          (Function.update_self r.name (some (⟨rank.toNat, c.value⟩ : Copy)) f)).2
        rw [Function.update_self, Function.update_self, hnone']
        rfl
      · have hv : valued (Function.update f r.name (some ⟨rank.toNat, c.value⟩)) rs k =
            valued f rs k := by rw [valued, valued, hf k hk]
        rw [Function.update_of_ne hk, hf k hk, hv]

theorem find?_select (es : List Replica) (hes : Catalog.Sorted es) (P : Replica → Bool)
    {up : Replica → Replica} (hup : ∀ r, (up r).name = r.name) (k : String) :
    Catalog.find? ((es.filter P).map up) k = ((Catalog.find? es k).filter P).map up := by
  induction es with
  | nil => rfl
  | cons r es ih =>
    obtain ⟨hlt, hes'⟩ := List.pairwise_cons.1 hes
    have ih := ih hes'
    by_cases hk : r.name = k
    · have hfind : Catalog.find? (r :: es) k = some r :=
        List.find?_cons_of_pos (by simpa using hk)
      have hnone : Catalog.find? es k = none :=
        Catalog.find?_eq_none fun s hs => hk ▸ hlt s hs
      rw [hfind, Option.filter_some]
      by_cases hP : P r
      · rw [List.filter_cons_of_pos hP, if_pos hP, List.map_cons]
        exact List.find?_cons_of_pos (by rw [hup, decide_eq_true_eq]; exact hk)
      · rw [List.filter_cons_of_neg hP, if_neg hP, ih, hnone]
        rfl
    · have hfind : Catalog.find? (r :: es) k = Catalog.find? es k :=
        List.find?_cons_of_neg (by simpa using hk)
      rw [hfind, ← ih]
      by_cases hP : P r
      · rw [List.filter_cons_of_pos hP, List.map_cons]
        exact List.find?_cons_of_neg (by rw [hup, decide_eq_true_eq]; exact hk)
      · rw [List.filter_cons_of_neg hP]

/-- Replicas chosen from those that are listed, under ranks of their own. -/
theorem known_select (up : Replica → Replica) (hs : store.Shows E b f) {P : Replica → Bool}
    {g : String → Copy → Option Copy} (hup : ∀ r, (up r).key = r.key)
    (hg : ∀ r c, r.key = E.space.key r.name → r.rank.toNat = c.rank →
      (if P r then some (⟨(up r).rank.toNat, c.value⟩ : Copy) else none) = g r.name c)
    (hrank : ∀ k c c', f k = some c → g k c = some c' →
      1 ≤ c'.rank ∧ c'.rank ≤ E.copies.toNat) :
    Known E f ((store.keySet.filter P).map up) ∧
      valued f ((store.keySet.filter P).map up) = fun k => (f k).bind (g k) := by
  have hname : ∀ r, (up r).name = r.name := fun r => congrArg Key.name (hup r)
  have hranks : ∀ r ∈ store.keySet, P r → 1 ≤ (up r).rank.toNat ∧
      (up r).rank.toNat ≤ E.copies.toNat := by
    intro r hr hP
    obtain ⟨hkey, c, hc, hrk⟩ := hs.of_mem_keySet hr
    have h := hg r c hkey hrk
    rw [if_pos hP] at h
    exact hrank r.name c _ hc h.symm
  refine ⟨⟨?_, fun r hr => ?_, fun r hr => ?_, fun r hr => ?_, fun r hr => ?_⟩, ?_⟩
  · have hcomp : (·.name) ∘ up = Replica.name := funext hname
    rw [List.map_map, hcomp]
    exact (Catalog.nodup_names hs.sorted).sublist (List.filter_sublist.map _)
  · obtain ⟨s, hs', rfl⟩ := List.mem_map.1 hr
    rw [hup, hname]
    exact (hs.of_mem_keySet (List.mem_filter.1 hs').1).1
  · obtain ⟨s, hs', rfl⟩ := List.mem_map.1 hr
    obtain ⟨-, c, hc, -⟩ := hs.of_mem_keySet (List.mem_filter.1 hs').1
    exact ⟨c, (hname s).symm ▸ hc⟩
  · obtain ⟨s, hs', rfl⟩ := List.mem_map.1 hr
    exact (hranks s (List.mem_filter.1 hs').1 (List.mem_filter.1 hs').2).1
  · obtain ⟨s, hs', rfl⟩ := List.mem_map.1 hr
    exact (hranks s (List.mem_filter.1 hs').1 (List.mem_filter.1 hs').2).2
  · -- What is found under a name is the replica listed under it, if that one was chosen.
    funext k
    rw [valued, find?_select store.keySet hs.sorted P hname]
    cases hf : f k with
    | none =>
      have hnone : Catalog.find? store.keySet k = none := hs.replica?_eq_none.2 hf
      rw [hnone]
      rfl
    | some c =>
      obtain ⟨r, hr, hkey, hrk⟩ := hs.replica?_eq_some hf
      have hr' : Catalog.find? store.keySet k = some r := hr
      have hrn : r.name = k := congrArg Key.name hkey
      rw [hr', Option.filter_some, Option.bind_some, ← hrn,
        ← hg r c (hrn.symm ▸ hkey) hrk]
      by_cases hP : P r
      · rw [if_pos hP, if_pos hP]
        rfl
      · rw [if_neg hP, if_neg hP]
        rfl

/-- Replicas chosen from those that are listed. -/
theorem known_filter (hs : store.Shows E b f) {P : Replica → Bool} {p : String → Copy → Bool}
    (hp : ∀ r c, r.key = E.space.key r.name → r.rank.toNat = c.rank → P r = p r.name c) :
    Known E f (store.keySet.filter P) ∧
      valued f (store.keySet.filter P) = fun k => (f k).filter (p k) := by
  obtain ⟨hknown, hvalued⟩ := known_select id hs (P := P)
    (g := fun k c => if p k c then some c else none) (fun _ => rfl)
    (fun r c hkey hr => by rw [hp r c hkey hr, id_eq, hr])
    fun k c c' hc h => by
      obtain ⟨-, h⟩ := Option.ite_none_right_eq_some.1 h
      have ha := hs.allows k c hc
      rw [← Option.some.inj h]
      exact ⟨ha.one_le_rank, ha.rank_le⟩
  rw [List.map_id] at hknown hvalued
  refine ⟨hknown, hvalued.trans (funext fun k => ?_)⟩
  cases f k <;> rfl

/-! ## Steps -/

/-- The step sends the copies `g` to `peer?`, if there are any and it is there, and the reply
    is `reply` once that has them. -/
inductive Sends (E : Setting) (g : Shelf) (reply : Reply) : Option Point → Step → Prop
  | alone : Sends E g reply none (.done (.ok reply))
  | nothing (peer? : Option Point) (h : g = fun _ => none) :
      Sends E g reply peer? (.done (.ok reply))
  | batch (peer : Point) {batch : Batch} (fits : batch.Fits E) (shelf : batch.shelf = g)
      (ne : batch ≠ []) : Sends E g reply (some peer) (forward peer batch reply)

/-- The key lies between `lower` and `current`. -/
def given (E : Setting) (lower current : Point) (k : String) : Bool :=
  (E.point k).inArc lower current false true

/-- The step hands the copies `g` over to `current`, if there are any. -/
inductive Hands (E : Setting) (g : Shelf) (current : Point) : Step → Prop
  | nothing (h : g = fun _ => none) : Hands E g current (.done (.ok .done))
  | batch {batch : Batch} (fits : batch.Fits E) (shelf : batch.shelf = g) :
      Hands E g current (.ask current (.putObjects batch) (.migrated (batch.map (·.1))))

namespace Shows

variable {B : Nat}

theorem mono {B' : Nat} (hs : node.Shows E B f) (hB : B ≤ B') : node.Shows E B' f :=
  ⟨hs.space, hs.copies, hs.store.mono fun _ => hB⟩

/-- A batch is brought to the node. -/
theorem makeReplicas (hs : node.Shows E B f) (hB : B < E.budget) (hnow : now.toNat ≤ E.latest)
    {batch : Batch} (hbatch : batch.Fits E) (view : View) (reply : Reply) :
    ∃ step node', node.makeReplicas view now batch reply = (step, node') ∧
      node'.Shows E (B + 1) (f.settled E.copies.toNat (owned E view) batch.shelf) ∧
      Sends E (f.onward E.copies.toNat (owned E view) batch.shelf) reply view.nextHop step := by
  obtain ⟨onward, node', hstore, hs', hfits, hshelf⟩ := exists_storeReplicas view hB hnow
    hs.copies hs.space hs.store (fun _ => Nat.le_succ B) hbatch (fun _ _ => le_rfl) Batch.fits_nil
    fun _ => .inr rfl
  have hshelf' : onward.shelf = f.onward E.copies.toNat (owned E view) batch.shelf := by
    funext k
    rw [hshelf k, Batch.shelf_nil, Option.or_none]
  rw [Node.makeReplicas, rankError?_of_fits hs.copies hbatch]
  cases onward with
  | nil =>
    refine ⟨_, node', by simp only [hstore], hs', .nothing _ ?_⟩
    rw [← hshelf', Batch.shelf_nil]
  | cons x onward =>
    cases view.nextHop with
    | none => exact ⟨_, node', by simp only [hstore], hs', .alone⟩
    | some peer => exact ⟨_, node', by simp only [hstore], hs',
      .batch peer hfits hshelf' (List.cons_ne_nil _ _)⟩

theorem sendLatest (hs : node.Shows E B f) {rs : List Replica} (hrs : Known E f rs)
    (ask : Batch → Step) :
    ∃ (batch : Batch) (node' : Node), node'.Shows E B f ∧ batch.Fits E ∧ batch.shelf = valued f rs ∧
      node.sendLatest rs ask = (if batch = [] then .done (.ok .done) else ask batch, node') := by
  obtain ⟨batch, store', hlatest, hs', hfits, hshelf⟩ :=
    exists_latestValues hs.store hrs Batch.fits_nil fun _ => .inr rfl
  refine ⟨batch, { node with store := store' }, ⟨hs.space, hs.copies, hs'⟩, hfits, ?_, ?_⟩
  · funext k
    rw [hshelf k, Batch.shelf_nil, Option.or_none]
  · rw [Node.sendLatest, hlatest]
    cases batch with
    | nil => rfl
    | cons x batch => rfl

theorem sends_of_batch {batch : Batch} {g : Shelf} (hfits : batch.Fits E) (hg : batch.shelf = g)
    (peer : Point) (reply : Reply) :
    Sends E g reply (some peer)
      (if batch = [] then .done (.ok reply) else forward peer batch reply) := by
  by_cases hb : batch = []
  · rw [if_pos hb]
    exact .nothing _ (by rw [← hg, hb, Batch.shelf_nil])
  · rw [if_neg hb]
    exact .batch peer hfits hg hb

/-- Every copy that has a next one is sent to a new successor. -/
theorem replicateTo (hs : node.Shows E B f) (view : View) (peer : Point) :
    ∃ step node', node.replicateTo view peer = (step, node') ∧ node'.Shows E B f ∧
      Sends E (fun k => (f k).bind (Copy.next E.copies.toNat)) .done
        (if peer = view.self then none else some peer) step := by
  rw [Node.replicateTo]
  by_cases hp : peer = view.self
  · rw [if_pos hp, if_pos hp]
    exact ⟨_, node, rfl, hs, .alone⟩
  · rw [if_neg hp, if_neg hp]
    have hg : ∀ (r : Replica) (c : Copy), r.key = E.space.key r.name → r.rank.toNat = c.rank →
        (if decide (r.rank < node.copies) then some (⟨(r.rank + 1).toNat, c.value⟩ : Copy)
          else none) = c.next E.copies.toNat := by
      intro r c _ hr
      have hlt : r.rank < node.copies ↔ c.rank < E.copies.toNat := by
        rw [hs.copies, UInt32.lt_iff_toNat_lt, hr]
      simp only [Copy.next, hlt, decide_eq_true_eq]
      split
      · rename_i hless
        rw [Rank.toNat_succ_of_lt (hlt.2 hless), hr]
      · rfl
    obtain ⟨hknown, hvalued⟩ := known_select (fun r => { r with rank := r.rank + 1 }) hs.store
      (g := fun _ => Copy.next E.copies.toNat) (fun _ => rfl) hg fun _ _ _ _ => Copy.rank_of_next
    obtain ⟨batch, node', hs', hfits, hshelf, heq⟩ :=
      hs.sendLatest hknown fun batch => forward peer batch .done
    exact ⟨_, node', heq, hs', sends_of_batch hfits (hshelf.trans hvalued) peer .done⟩

/-- The second copies become first ones, and their chains are walked anew. -/
theorem takeOver (hs : node.Shows E B f) (view : View) :
    ∃ step node', node.takeOver view = (step, node') ∧
      node'.Shows E B (fun k => (f k).map Copy.promote) ∧
      Sends E (fun k => (f k).filter fun c => c.rank = 2) .done view.nextHop step := by
  have hle := E.two_le_copies
  obtain ⟨hknown, hvalued⟩ := known_filter hs.store (P := fun r => r.rank = 2)
    (p := fun _ c => c.rank = 2) fun r c _ hr => by
      have htwo : r.rank = 2 ↔ c.rank = 2 := by rw [← hr]; exact UInt32.toNat_inj.symm
      simp only [htwo]
  obtain ⟨store₁, hset, hs₁⟩ := exists_setRanks 1 hs.store hknown (by decide)
    (by show 1 ≤ _; omega)
  have hpromote : (fun k => ((valued f (node.store.keySet.filter fun r => r.rank = 2) k).map
      fun c => (⟨(1 : Rank).toNat, c.value⟩ : Copy)).or (f k)) = fun k => (f k).map Copy.promote := by
    funext k
    rw [hvalued]
    cases hf : f k with
    | none => simp [hf]
    | some c => by_cases hc : c.rank = 2 <;> simp [hf, Copy.promote, hc, Option.filter_some]
  rw [hpromote] at hs₁
  -- The chosen replicas are as they were before their ranks changed, but their keys are still held.
  have hgather : Known E (fun k => (f k).map Copy.promote)
      (node.store.keySet.filter fun r => r.rank = 2) :=
    { hknown with
      held := fun r hr => by
        obtain ⟨c, hc⟩ := hknown.held r hr
        exact ⟨c.promote, by rw [hc]; rfl⟩ }
  rw [Node.takeOver]
  simp only [hset]
  cases view.nextHop with
  | none => exact ⟨_, _, rfl, ⟨hs.space, hs.copies, hs₁⟩, .alone⟩
  | some peer =>
    have hs₁' : Shows E B { node with store := store₁ } fun k => (f k).map Copy.promote :=
      ⟨hs.space, hs.copies, hs₁⟩
    obtain ⟨batch, node', hs', hfits, hshelf, heq⟩ :=
      hs₁'.sendLatest hgather fun batch => forward peer batch .done
    refine ⟨_, node', heq, hs', sends_of_batch hfits (hshelf.trans ?_) peer .done⟩
    funext k
    have hv := congrFun hvalued k
    rw [valued] at hv ⊢
    cases hf : f k with
    | none => simp
    | some c =>
      simp only [hf, Option.map_some, Copy.value_promote] at hv ⊢
      exact hv

/-- The first copies of the keys between `lower` and a new predecessor are handed over to
    it. -/
theorem migrate (hs : node.Shows E B f) (view : View) {current : Point} (hne : current ≠ view.self)
    (lower : Point) :
    ∃ step node', node.migrate view lower current = (step, node') ∧ node'.Shows E B f ∧
      Hands E (fun k => (f k).filter fun c => c.rank = 1 ∧ given E lower current k) current step := by
  obtain ⟨hknown, hvalued⟩ := known_filter hs.store
    (P := fun r => r.rank = 1 && r.key.point.inArc lower current false true)
    (p := fun k c => c.rank = 1 ∧ given E lower current k) fun r c hkey hr => by
      have hone : r.rank = 1 ↔ c.rank = 1 := by rw [← hr]; exact UInt32.toNat_inj.symm
      have harc : r.key.point.inArc lower current false true = given E lower current r.name := by
        rw [given, Setting.point, ← hkey]
      simp only [harc, hone, Bool.decide_and, Bool.decide_eq_true]
  obtain ⟨batch, node', hs', hfits, hshelf, heq⟩ := hs.sendLatest hknown fun batch =>
    .ask current (.putObjects batch) (.migrated (batch.map (·.1)))
  have hg := hshelf.trans hvalued
  rw [Node.migrate, if_neg hne]
  refine ⟨_, node', heq, hs', ?_⟩
  by_cases hb : batch = []
  · rw [if_pos hb]
    exact .nothing (by rw [← hg, hb, Batch.shelf_nil])
  · rw [if_neg hb]
    exact .batch hfits hg

theorem count (hs : node.Shows E B f) (m : Metric) (n : Nat) : (node.count m n).Shows E B f :=
  ⟨hs.space, hs.copies, hs.store.tally _⟩

theorem countEvent (hs : node.Shows E B f) (kind : String) : (node.countEvent kind).Shows E B f :=
  ⟨hs.space, hs.copies, hs.store.tally _⟩

/-- What was handed over is kept as second copies. -/
theorem resume_migrated (hs : node.Shows E B f) {batch : Batch} {lower current : Point}
    (hfits : batch.Fits E)
    (hg : batch.shelf = fun k => (f k).filter fun c => c.rank = 1 ∧ given E lower current k)
    (reply : Reply) :
    ∃ node', node.resume (.migrated (batch.map (·.1))) (.ok reply) = (.ok .done, node') ∧
      node'.Shows E B fun k => (f k).map (Copy.demote (given E lower current k)) := by
  have hsub : ∀ k c, batch.shelf k = some c → f k = some c := fun k c hc => by
    rw [hg] at hc
    exact (Option.filter_eq_some_iff.1 hc).1
  obtain ⟨store', hset, hs'⟩ := exists_setRanks 2
    (hs.count .objectsMigrated (batch.map (·.1)).length).store (known_of_sub hfits hsub)
    (by decide) E.two_le_copies
  have htwo : (2 : Rank) ≤ node.copies := by
    rw [hs.copies, UInt32.le_iff_toNat_le]
    exact E.two_le_copies
  refine ⟨{ node.count .objectsMigrated (batch.map (·.1)).length with store := store' }, ?_,
    ⟨hs.space, hs.copies, ?_⟩⟩
  · rw [resume]
    exact (if_pos htwo).trans (by rw [hset]; rfl)
  · convert hs' using 1
    funext k
    rw [valued_of_sub hsub, hg]
    cases hf : f k with
    | none => simp [hf]
    | some c =>
      by_cases hc : c.rank = 1 ∧ given E lower current k <;>
        simp [hf, Copy.demote, hc, Option.filter_some]

/-! ## Requests -/

/-- The reply to a read tells the value of the copy. -/
theorem getObject (hs : node.Shows E B f) (hkey : key ∈ E.keys) (view : View) (now : Time) :
    ∃ node', node.start view now (.getObject key) =
      (.done (.ok (.value ((f key).map (·.value)))), node') ∧ node'.Shows E B f := by
  obtain ⟨store', hget, hs'⟩ := hs.store.get hkey
  exact ⟨{ node with store := store' }, by rw [start, hget]; rfl, hs.space, hs.copies, hs'⟩

theorem putObjects (hs : node.Shows E B f) (hB : B < E.budget) (hnow : now.toNat ≤ E.latest)
    {batch : Batch} (hbatch : batch.Fits E) (view : View) :
    ∃ node', node.start view now (.putObjects batch) = (.done (.ok .done), node') ∧
      node'.Shows E (B + 1) fun k => (batch.shelf k).or (f k) := by
  obtain ⟨store', hstore, hs'⟩ :=
    exists_storeAll hB hnow hs.store (fun _ => Nat.le_succ B) hbatch fun _ _ => le_rfl
  refine ⟨{ node with store := store' }, ?_, hs.space, hs.copies, hs'⟩
  rw [start, Node.putObjects, rankError?_of_fits hs.copies hbatch, hstore]
  rfl

theorem makeReplicas_single (hs : node.Shows E B f) (value : Bytes) (hB : B < E.budget)
    (hnow : now.toNat ≤ E.latest) (hkey : r.key = E.space.key key)
    (ha : E.Allows key ⟨r.rank.toNat, value⟩) (view : View) (reply : Reply) :
    ∃ step node', node.makeReplicas view now [(r, value)] reply = (step, node') ∧
      node'.Shows E (B + 1)
        (f.settled E.copies.toNat (owned E view) (.single key ⟨r.rank.toNat, value⟩)) ∧
      Sends E (f.onward E.copies.toNat (owned E view) (.single key ⟨r.rank.toNat, value⟩)) reply
        view.nextHop step := by
  have hname : r.name = key := congrArg Key.name hkey
  have hfits : Batch.Fits E [(r, value)] := by
    refine ⟨List.nodup_singleton _, fun x hx => ?_, fun x hx => ?_⟩
    · rw [List.mem_singleton.1 hx, hname]
      exact hkey
    · rw [List.mem_singleton.1 hx, hname]
      exact ha
  have hshelf : Batch.shelf [(r, value)] = .single key ⟨r.rank.toNat, value⟩ := by
    rw [Batch.shelf_cons, hname, Batch.shelf_nil]
    rfl
  rw [← hshelf]
  exact hs.makeReplicas hB hnow hfits view reply

/-- A write is brought to the node as the first copy. -/
theorem putObject (hs : node.Shows E B f) (hB : B < E.budget) (hnow : now.toNat ≤ E.latest)
    (hkey : key ∈ E.keys) (hl : value.length ≤ E.longest) (view : View) :
    ∃ step node', node.start view now (.putObject key value) = (step, node') ∧
      node'.Shows E (B + 1) (f.settled E.copies.toNat (owned E view) (.single key ⟨1, value⟩)) ∧
      Sends E (f.onward E.copies.toNat (owned E view) (.single key ⟨1, value⟩)) .done
        view.nextHop step := by
  have hle := E.two_le_copies
  have hprimary : (Replica.primary (node.space.key key)).key = E.space.key key := by
    rw [hs.space]
    rfl
  exact hs.makeReplicas_single (r := .primary (node.space.key key)) value hB hnow hprimary
    ⟨hkey, le_rfl, by show 1 ≤ _; omega, hl⟩ view .done

/-- A deletion is the write of a tombstone, under the rank of the copy. -/
theorem delete_of_some (hs : node.Shows E B f) (hB : B < E.budget) (hnow : now.toNat ≤ E.latest)
    (hc : f key = some c) (view : View) :
    ∃ step node', node.start view now (.delete key) = (step, node') ∧
      node'.Shows E (B + 1) (f.settled E.copies.toNat (owned E view) (.single key ⟨c.rank, []⟩)) ∧
      Sends E (f.onward E.copies.toNat (owned E view) (.single key ⟨c.rank, []⟩)) (.flag true)
        view.nextHop step := by
  obtain ⟨r, hr, hkey, hrank⟩ := hs.store.replica?_eq_some hc
  have ha := hs.store.allows key c hc
  obtain ⟨step, node', heq, h⟩ := hs.makeReplicas_single (r := r) [] hB hnow hkey
    ⟨ha.key, hrank ▸ ha.one_le_rank, hrank ▸ ha.rank_le, Nat.zero_le _⟩ view (.flag true)
  rw [hrank] at h
  refine ⟨step, node', ?_, h⟩
  rw [start, Node.delete, deletable, hr]
  exact heq

/-- A key that was never written is not deleted. -/
theorem delete_of_none (hs : node.Shows E B f) (hkey : key ∈ E.keys) (hf : f key = none)
    (view : View) (now : Time) :
    ∃ node', node.start view now (.delete key) = (.done (.ok (.flag false)), node') ∧
      node'.Shows E B f := by
  obtain ⟨store', hget, hs'⟩ := hs.store.get hkey
  refine ⟨{ node with store := store' }, ?_, hs.space, hs.copies, hs'⟩
  rw [start, Node.delete, deletable, hs.store.replica?_eq_none.2 hf, hget, hf]
  rfl

end Shows

end Node

end ReplicaRing

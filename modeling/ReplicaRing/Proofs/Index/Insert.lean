import ReplicaRing.Proofs.Index.Grow

/-!
# Insertion

An insertion searches for the place of the entry's time. An entry that may follow the others
comes after all of them, so that the search runs down the right edge of the index
(`Index.pathFrom_page`), the entry is put at the end of the last leaf (`Index.HoldsIn.addToLeaf`),
and the edge, which is *pressed* then (`Index.PressedIn`), is split (`Index.PressedIn.splitUp`).

Main statement: an insertion into an index that holds `es` makes one that holds `es` and
the entry (`Index.Holds.insert`).
-/

namespace ReplicaRing.Index

variable {w x y z : Index} {h d : Nat} {s k : Shape}

/-! ## The right edge -/

theorem Shape.edge_ne_nil (h : Nat) (s : Shape) : s.edge h ≠ [] := by
  cases h <;> simp [edge]

/-- A tree with a level below its top, by its last tree there. -/
theorem Shape.exists_concat (hs : s.Fits x (h + 1)) : ∃ i init k, s = .node i (init ++ [k]) := by
  obtain ⟨i, ks⟩ := s
  have hne : ks ≠ [] := hs.1
  exact ⟨i, ks.dropLast, ks.getLast hne, by rw [List.dropLast_concat_getLast hne]⟩

theorem Shape.edge_concat (h i : Nat) (init : List Shape) (k : Shape) :
    (Shape.node i (init ++ [k])).edge (h + 1) = k.edge h ++ [i] := by
  simp [edge, kids, page]

/-- The edge begins with the last leaf. -/
theorem Shape.head?_edge (hs : s.Fits x h) : (s.edge h).head? = (s.leaves h).getLast? := by
  induction h generalizing s with
  | zero => rfl
  | succ h ih =>
    obtain ⟨i, init, k, rfl⟩ := exists_concat hs
    have hk := hs.2.2 k (List.mem_append_right _ (List.mem_singleton_self k))
    rw [edge_concat, List.head?_append_of_ne_nil _ (edge_ne_nil h k), ih hk, leaves, kids,
      List.flatMap_append, List.flatMap_singleton,
      List.getLast?_append_of_ne_nil _ (leaves_ne_nil hk)]

theorem Shape.lt_length_pages (hs : s.Fits x h) : h < (s.pages h).length := by
  induction h generalizing s with
  | zero => exact Nat.zero_lt_one
  | succ h ih =>
    obtain ⟨i, init, k, rfl⟩ := exists_concat hs
    have := ih (hs.2.2 k (List.mem_append_right _ (List.mem_singleton_self k)))
    simp only [pages, kids, List.length_cons, List.flatMap_append, List.flatMap_singleton,
      List.length_append]
    omega

/-- The search for a time that is not before any of the entries runs down the right edge. -/
theorem pathFrom_page {t : Time} (hd : 0 < d) (hs : s.Fits x h) (hf : s.Filled x d h)
    (ht : ∀ e ∈ s.entries x h, e.time ≤ t) {fuel : Nat} (hfuel : h ≤ fuel) :
    x.pathFrom t fuel s.page = s.edge h := by
  induction h generalizing s fuel with
  | zero =>
    obtain ⟨es, prev, next, hp⟩ := hs
    cases fuel <;> simp [pathFrom, hp, Shape.edge]
  | succ h ih =>
    obtain ⟨i, init, k, rfl⟩ := Shape.exists_concat hs
    obtain ⟨fuel, rfl⟩ : ∃ n, fuel = n + 1 := ⟨fuel - 1, by omega⟩
    have hp : x.pages[i]? = _ := hs.2.1
    have htk : ∀ j ∈ init ++ [k], ∀ e ∈ j.entries x h, e.time ≤ t := fun j hj e he => by
      refine ht e ?_
      rw [Shape.entries_succ]
      exact List.mem_flatMap.2 ⟨j, hj, he⟩
    have hkm : k ∈ init ++ [k] := List.mem_append_right _ (List.mem_singleton_self k)
    have hk := ih (hs.2.2 k hkm) (hf k hkm).2.2 (htk k hkm) (Nat.le_of_succ_le_succ hfuel)
    -- No key of the page is above the time, so that the way goes on to the last child.
    have hkeys : ∀ u ∈ (init ++ [k]).tail.map (Shape.least x h), u ≤ t := by
      intro u hu
      obtain ⟨j, hj, rfl⟩ := List.mem_map.1 hu
      have hj := List.mem_of_mem_tail hj
      obtain ⟨hc, -, hfj⟩ := hf j hj
      obtain ⟨e, rest, he, hleast⟩ :=
        Shape.exists_head (Shape.entries_ne_nil hd (hs.2.2 j hj) hc hfj)
      exact hleast ▸ htk j hj e (he ▸ List.mem_cons_self)
    rw [Shape.edge_concat, Shape.page, pathFrom, hp]
    simp only [Shape.kids, List.takeWhile_eq_self_iff.2 fun u hu => decide_eq_true (hkeys u hu)]
    simp [hk]

/-- The trees of `x` when an entry has been put at the end of the last leaf, `l`. -/
theorem Shape.add_last {l : Nat} {es : List Entry} {e : Entry} {prev next : Option Nat}
    (hd : 0 < d) (hs : s.Fits x h) (hf : s.Filled x d h) (hc : s.count x h ≤ 2 * d)
    (hn : (s.pages h).Nodup) (hl : (s.leaves h).getLast? = some l)
    (hx : x.pages[l]? = some (.leaf es prev next))
    (hy : ∀ j ≠ l, y.pages[j]? = x.pages[j]?)
    (hyl : y.pages[l]? = some (.leaf (es ++ [e]) prev next)) :
    s.Fits y h ∧ s.entries y h = s.entries x h ++ [e] ∧ s.Pressed y d h ∧
      s.count x h ≤ s.count y h := by
  have hxl : x.entriesAt l = es := by simp [entriesAt, hx]
  have hyl' : y.entriesAt l = es ++ [e] := by simp [entriesAt, hyl]
  induction h generalizing s with
  | zero =>
    obtain ⟨i, ks⟩ := s
    obtain rfl : i = l := by simpa [leaves, page] using hl
    rw [count, page, hxl] at hc
    refine ⟨⟨_, _, _, hyl⟩, by simp [entries, leaves, page, hxl, hyl'], ?_, ?_⟩
    · rw [Pressed, count, page, hyl', List.length_append, List.length_singleton]
      omega
    · rw [count, count, page, hyl', hxl, List.length_append]
      omega
  | succ h ih =>
    obtain ⟨i, init, k, rfl⟩ := exists_concat hs
    obtain ⟨-, hp, hfits⟩ := hs
    simp only [kids, List.forall_mem_append, List.forall_mem_singleton] at hfits
    simp only [Filled, kids, List.forall_mem_append, List.forall_mem_singleton] at hf
    obtain ⟨hinit, hck, hck', hfk⟩ := hf
    rw [leaves, kids, List.flatMap_append, List.flatMap_singleton,
      List.getLast?_append_of_ne_nil _ (leaves_ne_nil hfits.2)] at hl
    simp only [pages, kids, page, List.nodup_cons, List.flatMap_append, List.flatMap_singleton,
      List.nodup_append, List.mem_append, not_or] at hn
    obtain ⟨⟨-, hik⟩, -, hnk, hdis⟩ := hn
    have hlk : l ∈ k.pages h := leaves_subset_pages h k (List.mem_of_getLast? hl)
    obtain ⟨hfk', hek, hpk, hcc⟩ := ih hfits.2 hfk hck' hnk hl
    have hag : ∀ j ∈ init, Agree x y (j.pages h) := by
      intro j hj p hp
      refine hy p ?_
      rintro rfl
      exact hdis p (List.mem_flatMap.2 ⟨j, hj, hp⟩) p hlk rfl
    -- Only the last leaf has changed, and not its first entry: no separator moves.
    have hle : ∀ j ∈ init, j.least y h = j.least x h := fun j hj => (hag j hj).leaves.least
    have hlek : k.least y h = k.least x h := by
      rw [least, least, hek, List.head?_append_of_ne_nil _ (entries_ne_nil hd hfits.2 hck hfk)]
    refine ⟨⟨by simp [kids], ?_, ?_⟩, ?_, ?_, ?_⟩
    · have hil : i ≠ l := by
        rintro rfl
        exact hik hlk
      have hp : x.pages[i]? = _ := hp
      rw [page, hy i hil, hp, kids, separators_graft [] hlek hle, List.map_nil,
        List.append_nil]
    · simp only [kids, List.forall_mem_append, List.forall_mem_singleton]
      exact ⟨fun j hj => (hag j hj).fits (hfits.1 j hj), hfk'⟩
    · simp only [entries_succ, kids, List.flatMap_append, List.flatMap_singleton, hek]
      rw [Agree.flatMap_entries hag, List.append_assoc]
    · refine ⟨?_, init, k, rfl, Agree.filled_node (i := i) hag hinit, by omega, hpk⟩
      rw [count] at hc
      omega
    · exact Nat.le_refl _

/-! ## Links -/

variable {prev : Option Nat} {ls : List Nat}

/-- Leaves stay linked if they keep their links. -/
theorem Linked.congr (hl : Linked x prev ls)
    (h : ∀ l ∈ ls, ∀ es prev next, x.pages[l]? = some (.leaf es prev next) →
      ∃ es', y.pages[l]? = some (.leaf es' prev next)) : Linked y prev ls := by
  induction ls generalizing prev with
  | nil => trivial
  | cons l ls ih =>
    obtain ⟨⟨es, hp⟩, hl⟩ := hl
    exact ⟨h l List.mem_cons_self es _ _ hp, ih hl fun l hl => h l (List.mem_cons_of_mem _ hl)⟩

/-- The last leaf has no leaf after it. -/
theorem Linked.exists_last {l : Nat} (hl : Linked x prev (ls ++ [l])) :
    ∃ es prev, x.pages[l]? = some (.leaf es prev none) := by
  induction ls generalizing prev with
  | nil =>
    obtain ⟨⟨es, hp⟩, -⟩ := hl
    exact ⟨es, _, hp⟩
  | cons a ls ih => exact ih hl.2

/-- A new leaf is linked behind the last one. -/
theorem Linked.halveLeaf {l : Nat} {es : List Entry} {p : Option Nat}
    (hl : Linked x prev (ls ++ [l])) (hp : x.pages[l]? = some (.leaf es p none))
    (hls : ∀ j ∈ ls, j < x.pages.size ∧ j ≠ l) :
    Linked (x.halveLeaf l es p) prev (ls ++ [l, x.pages.size]) := by
  have hlt := lt_size_of_getElem? hp
  induction ls generalizing prev with
  | nil =>
    obtain ⟨⟨es', hp'⟩, -⟩ := hl
    rw [hp, Option.some.injEq, Page.leaf.injEq] at hp'
    obtain ⟨-, rfl, -⟩ := hp'
    refine ⟨⟨es.take x.fanout, ?_⟩, ⟨es.drop x.fanout, ?_⟩, trivial⟩
    · rw [Index.halveLeaf, getElem?_set_push hlt, if_neg (Nat.ne_of_lt hlt), if_pos rfl]
      rfl
    · rw [Index.halveLeaf, getElem?_set_push hlt, if_pos rfl]
      rfl
  | cons a ls ih =>
    obtain ⟨⟨es', hp'⟩, hl⟩ := hl
    obtain ⟨ha, hne⟩ := hls a List.mem_cons_self
    refine ⟨⟨es', ?_⟩, ih hl fun j hj => hls j (List.mem_cons_of_mem _ hj)⟩
    rw [Index.halveLeaf, getElem?_set_push hlt, if_neg (Nat.ne_of_lt ha), if_neg hne, hp']
    cases ls <;> rfl

/-! ## Insertion -/

namespace HoldsIn

variable {es : List Entry}

/-- No leaf is empty, unless it is the only one. -/
theorem entriesAt_ne_nil (hx : x.HoldsIn h s es) (hh : h ≠ 0) :
    ∀ i ∈ s.leaves h, x.entriesAt i ≠ [] := by
  obtain ⟨h, rfl⟩ := Nat.exists_eq_succ_of_ne_zero hh
  intro i hi
  obtain ⟨k, hk, hi⟩ := List.mem_flatMap.1 hi
  obtain ⟨hc, -, hf⟩ := hx.filled k hk
  exact Shape.entriesAt_ne_nil (Nat.lt_of_lt_of_le Nat.zero_lt_two hx.two_le_fanout) hc hf i hi

theorem exists_leaves_concat (hx : x.HoldsIn h s es) : ∃ ls, s.leaves h = ls ++ [x.lastLeaf] := by
  have hl := hx.last
  rw [List.getLast?_eq_some_iff] at hl
  exact hl

theorem last?_eq (hx : x.HoldsIn h s es) : x.last? = es.getLast? := by
  obtain ⟨ls, hls⟩ := hx.exists_leaves_concat
  have he := hx.entries
  rw [Shape.entries, hls, List.flatMap_append, List.flatMap_singleton] at he
  rw [last?, ← he]
  by_cases hh : h = 0
  · subst hh
    have hnil : ls = [] := by
      have := congrArg List.length hls
      simpa [Shape.leaves] using this
    simp [hnil]
  · have hne := hx.entriesAt_ne_nil hh x.lastLeaf (by simp [hls])
    rw [List.getLast?_append_of_ne_nil _ hne]

theorem height_lt (hx : x.HoldsIn h s es) : h < x.pages.size := by
  have hsub : s.pages h ⊆ List.range x.pages.size := fun i hi =>
    List.mem_range.2 ((hx.mem_pages i).1 hi)
  have := (hx.nodup.subperm hsub).length_le
  rw [List.length_range] at this
  exact Nat.lt_of_lt_of_le (Shape.lt_length_pages hx.fits) this

/-- The way to the place of an entry that comes after all others. -/
theorem exists_path {t : Time} (hx : x.HoldsIn h s es) (ht : ∀ e ∈ es, e.time ≤ t) :
    ∃ above, x.path t = x.lastLeaf :: above ∧ s.edge h = x.lastLeaf :: above := by
  have hhead := Shape.head?_edge hx.fits
  rw [hx.last, List.head?_eq_some_iff] at hhead
  obtain ⟨above, habove⟩ := hhead
  refine ⟨above, ?_, habove⟩
  rw [path, ← hx.root, pathFrom_page (Nat.lt_of_lt_of_le Nat.zero_lt_two hx.two_le_fanout) hx.fits
    hx.filled (hx.entries ▸ ht) (Nat.le_of_lt hx.height_lt), habove]

end HoldsIn

/-- The trees `ss` of `z` hold the entries `es` in linked leaves, and there are no other
    pages. -/
structure Forest (z : Index) (h : Nat) (ss : List Shape) (es : List Entry) : Prop where
  two_le_fanout : 2 ≤ z.fanout
  fits : ∀ k ∈ ss, k.Fits z h
  filled : ∀ k ∈ ss, k.Filled z z.fanout h
  nodup : (ss.flatMap (Shape.pages h)).Nodup
  mem_pages : ∀ i, i ∈ ss.flatMap (Shape.pages h) ↔ i < z.pages.size
  first : (ss.flatMap (Shape.leaves h)).head? = some z.firstLeaf
  last : (ss.flatMap (Shape.leaves h)).getLast? = some z.lastLeaf
  linked : Linked z none (ss.flatMap (Shape.leaves h))
  entries : (ss.flatMap fun k => k.entries z h) = es
  size : z.size = es.length

variable {es : List Entry}

/-- A forest of one tree is a tree. -/
theorem Forest.holdsIn (hf : Forest z h [s] es) (hroot : s.page = z.root)
    (hle : s.count z h ≤ 2 * z.fanout) (hge : h ≠ 0 → 1 ≤ s.count z h) : z.HoldsIn h s es where
  two_le_fanout := hf.two_le_fanout
  fits := hf.fits s (List.mem_singleton_self s)
  filled := hf.filled s (List.mem_singleton_self s)
  count_le := hle
  one_le_count := hge
  root := hroot
  nodup := by simpa using hf.nodup
  mem_pages := by simpa using hf.mem_pages
  first := by simpa using hf.first
  last := by simpa using hf.last
  linked := by simpa using hf.linked
  entries := by simpa using hf.entries
  size := hf.size

/-- Two halves of a root become a tree below a new root. -/
theorem Forest.holdsIn_bubble {s₁ s₂ : Shape} (hf : Forest z h [s₁, s₂] es) {i : Nat}
    (hi : s₁.page = i) (h₁ : z.fanout ≤ s₁.count z h ∧ s₁.count z h ≤ 2 * z.fanout)
    (h₂ : z.fanout ≤ s₂.count z h ∧ s₂.count z h ≤ 2 * z.fanout) :
    (z.bubble i (s₂.least z h) s₂.page []).HoldsIn (h + 1) (.node z.pages.size [s₁, s₂]) es := by
  set v := z.bubble i (s₂.least z h) s₂.page [] with hv
  have hpush : ∀ j, v.pages[j]? =
      if j = z.pages.size then some (.branch [s₂.least z h] [i, s₂.page]) else z.pages[j]? := by
    intro j
    rw [hv, bubble, Array.getElem?_push]
  have hold : ∀ j < z.pages.size, v.pages[j]? = z.pages[j]? := fun j hj => by
    rw [hpush, if_neg (Nat.ne_of_lt hj)]
  have hag : ∀ k ∈ [s₁, s₂], Agree z v (k.pages h) := fun k hk j hj =>
    hold j (Shape.lt_size_of_mem_pages (hf.fits k hk) j hj)
  constructor
  case two_le_fanout => exact hf.two_le_fanout
  case fits =>
    refine Agree.fits_node hag (List.cons_ne_nil _ _) hf.fits ?_
    rw [hpush, if_pos rfl, ← hi]
    rfl
  case filled =>
    refine Agree.filled_node hag fun k hk => ?_
    rcases List.mem_pair.1 hk with rfl | rfl
    · exact ⟨h₁.1, h₁.2, hf.filled k hk⟩
    · exact ⟨h₂.1, h₂.2, hf.filled k hk⟩
  case count_le =>
    show 1 ≤ 2 * z.fanout
    have := hf.two_le_fanout
    omega
  case one_le_count => exact fun _ => Nat.le_refl _
  case root => rfl
  case nodup =>
    refine List.nodup_cons.2 ⟨fun h => ?_, hf.nodup⟩
    exact Nat.lt_irrefl _ ((hf.mem_pages _).1 h)
  case mem_pages =>
    intro j
    have := hf.mem_pages j
    rw [Shape.pages, List.mem_cons, Shape.kids, this, hv, bubble, Array.size_push, Shape.page]
    omega
  case first => exact hf.first
  case last => exact hf.last
  case linked =>
    refine hf.linked.congr fun l hl es prev next hp => ⟨es, ?_⟩
    rw [hold l (lt_size_of_getElem? hp), hp]
  case entries =>
    rw [Shape.entries_succ, ← hf.entries]
    exact Agree.flatMap_entries hag
  case size => exact hf.size

/-- A split leaf leaves the leaves linked. -/
theorem LeafSplit.linked {l : Nat} {more : List Nat} (hs : LeafSplit y l w more)
    (hl : Linked y none (ls ++ [l])) (hlast : y.lastLeaf = l)
    (hls : ∀ j ∈ ls, j < y.pages.size ∧ j ≠ l) :
    Linked w none (ls ++ l :: more) ∧ (l :: more).getLast? = some w.lastLeaf := by
  cases hs with
  | whole => exact ⟨hl, by rw [hlast]; rfl⟩
  | halved hp => exact ⟨hl.halveLeaf hp hls, rfl⟩

theorem LeafSplit.frame {l : Nat} {more : List Nat} (hs : LeafSplit y l w more) :
    w.fanout = y.fanout ∧ w.root = y.root ∧ w.firstLeaf = y.firstLeaf ∧ w.size = y.size := by
  cases hs <;> exact ⟨rfl, rfl, rfl, rfl⟩

/-- An entry that comes after those of its leaf is put at the end of it. -/
theorem addToLeaf_eq {l : Nat} {les : List Entry} {prev next : Option Nat} {e : Entry}
    (hp : x.pages[l]? = some (.leaf les prev next)) (hlt : ∀ e' ∈ les, e'.time < e.time) :
    x.addToLeaf l e =
      { x with
        pages := x.pages.setIfInBounds l (.leaf (les ++ [e]) prev next)
        size := x.size + 1 } := by
  have hpos : les.takeWhile (·.time < e.time) = les :=
    List.takeWhile_eq_self_iff.2 fun e' he' => decide_eq_true (hlt e' he')
  simp only [addToLeaf, hp, hpos, List.insertIdx_length_self]

/-- The index is a tree as in `HoldsIn`, but for the pages on its right edge, which may hold one
    entry or key too many. -/
structure PressedIn (y : Index) (h : Nat) (s : Shape) (es : List Entry) : Prop where
  two_le_fanout : 2 ≤ y.fanout
  fits : s.Fits y h
  pressed : s.Pressed y y.fanout h
  nodup : (s.pages h).Nodup
  mem_pages : ∀ i, i ∈ s.pages h ↔ i < y.pages.size
  first : (s.leaves h).head? = some y.firstLeaf
  last : (s.leaves h).getLast? = some y.lastLeaf
  linked : Linked y none (s.leaves h)
  entries : s.entries y h = es
  size : y.size = es.length

/-- An entry that comes after all others has been put into the last leaf. -/
theorem HoldsIn.addToLeaf {e : Entry} (hx : x.HoldsIn h s es) (hasc : Ascending (es ++ [e])) :
    ∃ y, x.addToLeaf x.lastLeaf e = y ∧ y.PressedIn h s (es ++ [e]) ∧
      s.count x h ≤ s.count y h ∧ y.fanout = x.fanout ∧ y.root = x.root ∧
      y.lastLeaf = x.lastLeaf := by
  obtain ⟨ls, hls⟩ := hx.exists_leaves_concat
  have hd : 0 < x.fanout := Nat.lt_of_lt_of_le Nat.zero_lt_two hx.two_le_fanout
  obtain ⟨les, prev, hp⟩ := (hls ▸ hx.linked).exists_last
  have hlt : ∀ e' ∈ les, e'.time < e.time := by
    intro e' he'
    have hmem : e' ∈ es := by
      rw [← hx.entries, Shape.entries, hls, List.flatMap_append, List.flatMap_singleton,
        entriesAt, hp]
      exact List.mem_append_right _ he'
    exact ((List.pairwise_append.1 hasc).2.2 e' hmem e (List.mem_singleton_self e)).1
  refine ⟨_, addToLeaf_eq hp hlt, ?_⟩
  set y : Index :=
    { x with
      pages := x.pages.setIfInBounds x.lastLeaf (.leaf (les ++ [e]) prev none)
      size := x.size + 1 } with hy
  have hyl : y.pages[x.lastLeaf]? = some (.leaf (les ++ [e]) prev none) := by
    simp [hy, lt_size_of_getElem? hp]
  have hyne : ∀ j ≠ x.lastLeaf, y.pages[j]? = x.pages[j]? := fun j hj => by
    simp [hy, Ne.symm hj]
  obtain ⟨hfits, hentries, hpressed, hcount⟩ :=
    Shape.add_last hd hx.fits hx.filled hx.count_le hx.nodup hx.last hp hyne hyl
  refine ⟨?_, hcount, rfl, rfl, rfl⟩
  constructor
  case two_le_fanout => exact hx.two_le_fanout
  case fits => exact hfits
  case pressed => exact hpressed
  case nodup => exact hx.nodup
  case mem_pages => simpa [hy] using hx.mem_pages
  case first => exact hx.first
  case last => exact hx.last
  case linked =>
    refine hx.linked.congr fun l hl es p n hpl => ?_
    by_cases hll : l = x.lastLeaf
    · subst hll
      rw [hp, Option.some.injEq, Page.leaf.injEq] at hpl
      obtain ⟨-, rfl, rfl⟩ := hpl
      exact ⟨_, hyl⟩
    · exact ⟨es, by rw [hyne l hll, hpl]⟩
  case entries => rw [hentries, hx.entries]
  case size => rw [hy, List.length_append, ← hx.size]; rfl

/-- What becomes of a tree when its right edge is split as far as necessary. -/
theorem PressedIn.splitUp {above : List Nat} (hy : y.PressedIn h s es) (hasc : Ascending es)
    (hedge : s.edge h = y.lastLeaf :: above) :
    ∃ z ss, Forest z h ss es ∧ z.fanout = y.fanout ∧ z.root = y.root ∧
      (ss.map Shape.page).head? = some s.page ∧
      Outcome y.fanout y z h s [] ss (y.splitUp y.lastLeaf above) := by
  have hd : 0 < y.fanout := Nat.lt_of_lt_of_le Nat.zero_lt_two hy.two_le_fanout
  obtain ⟨ls, hls⟩ := List.getLast?_eq_some_iff.1 hy.last
  have hlinked := hy.linked
  rw [hls] at hlinked
  have hnodup := (Shape.leaves_sublist_pages h s).nodup hy.nodup
  rw [hls, List.nodup_append] at hnodup
  have hother : ∀ j ∈ ls, j < y.pages.size ∧ j ≠ y.lastLeaf := by
    intro j hj
    refine ⟨?_, hnodup.2.2 j hj _ (List.mem_singleton_self _)⟩
    rw [← hy.mem_pages]
    exact Shape.leaves_subset_pages h s (by simp [hls, hj])
  obtain ⟨leaf, above', hedge', w, more, hsplit, z, ss, hr, hsame, hout⟩ :=
    splitUp_edge hd rfl hy.fits hy.pressed hy.nodup (hy.entries.symm ▸ hasc) hy.last
      hlinked.exists_last []
  rw [hedge, List.cons.injEq] at hedge'
  obtain ⟨rfl, rfl⟩ := hedge'
  rw [List.append_nil] at hout
  obtain ⟨hfanout, hroot, hfirst, hsize⟩ := hsplit.frame
  obtain ⟨hlink, hlast⟩ := hsplit.linked hlinked rfl hother
  -- The leaves that are split off come behind the last one, which keeps its page.
  have hleaves : ss.flatMap (Shape.leaves h) = ls ++ y.lastLeaf :: more := by
    rw [hr.leaves, hls, List.append_assoc, List.singleton_append]
  have hfan : z.fanout = y.fanout := hsame.fanout.trans hfanout
  refine ⟨z, ss, ?_, hfan, hsame.root.trans hroot, hr.page, hout⟩
  constructor
  case two_le_fanout => exact hfan ▸ hy.two_le_fanout
  case fits => exact hr.fits
  case filled => exact hfan ▸ hr.filled
  case nodup => exact hr.nodup
  case mem_pages =>
    intro i
    have h₁ := hy.mem_pages i
    have h₂ := hr.size_le
    rw [hr.mem_pages, h₁]
    omega
  case first =>
    have h₁ := hy.first
    rw [hls] at h₁
    rw [hleaves, hsame.firstLeaf, hfirst]
    cases ls <;> exact h₁
  case last =>
    rw [hleaves, hsame.lastLeaf, ← hlast,
      List.getLast?_append_of_ne_nil _ (List.cons_ne_nil _ _)]
  case linked =>
    rw [hleaves]
    exact hlink.congr fun l _ es p n hpl => ⟨es, hsame.leaf hpl⟩
  case entries => rw [hr.entries, hy.entries]
  case size => rw [hsame.size, hsize, hy.size]

theorem HoldsIn.insert {e : Entry} (hx : x.HoldsIn h s es) (hasc : Ascending (es ++ [e]))
    (he : refusal? es.getLast? e = none) :
    ∃ x', x.insert e = .ok x' ∧ (∃ h s, x'.HoldsIn h s (es ++ [e])) ∧ x'.fanout = x.fanout := by
  obtain ⟨above, hpath, hedge⟩ := hx.exists_path fun e' he' =>
    UInt64.le_of_lt ((List.pairwise_append.1 hasc).2.2 e' he' e (List.mem_singleton_self e)).1
  obtain ⟨y, hy, hpressed, hcount, hyfan, hyroot, hylast⟩ := hx.addToLeaf hasc
  have hins : x.insert e = .ok (y.splitUp y.lastLeaf above) := by
    rw [Index.insert, hx.last?_eq, he]
    simp only [hpath, hy, hylast]
  obtain ⟨z, ss, hforest, hfan, hroot, hpage, hout⟩ :=
    hpressed.splitUp hasc (by rw [hedge, hylast])
  rw [hins]
  generalize y.splitUp y.lastLeaf above = v at hout
  -- Either the root is whole, or its halves get a new root.
  cases hout with
  | @whole s' hge hle =>
    rw [List.map_singleton, List.head?_singleton, Option.some.injEq] at hpage
    refine ⟨z, rfl, ⟨h, s', hforest.holdsIn ?_ (hfan.symm ▸ hle) fun hh => ?_⟩,
      hfan.trans hyfan⟩
    · rw [hpage, hx.root, hroot, hyroot]
    · exact (hx.one_le_count hh).trans (hcount.trans hge)
  | halved h₁ h₂ =>
    rw [List.map_cons, List.head?_cons, Option.some.injEq] at hpage
    rw [← hfan] at h₁ h₂
    exact ⟨_, rfl, ⟨_, _, hforest.holdsIn_bubble hpage h₁ h₂⟩, hfan.trans hyfan⟩

/-- An entry that may follow the others is put behind them. -/
theorem Holds.insert {e : Entry} (hx : x.Holds es) (he : refusal? es.getLast? e = none) :
    ∃ x', x.insert e = .ok x' ∧ x'.Holds (es ++ [e]) ∧ x'.fanout = x.fanout := by
  obtain ⟨hasc, h, s, hin⟩ := hx
  obtain ⟨x', hx', hin', hfan⟩ := hin.insert (hasc.concat he) he
  exact ⟨x', hx', ⟨hasc.concat he, hin'⟩, hfan⟩

end ReplicaRing.Index

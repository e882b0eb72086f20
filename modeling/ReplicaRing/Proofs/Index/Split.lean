import ReplicaRing.Proofs.Index.Shape

/-!
# Splitting a page

A page that has become overfull is split in two. Seen from the tree above it, the page's
tree has been *regrown* (`Index.Regrown`): other trees, of the same height and with the
same entries, stand in its place. A split of a leaf (`Index.regrown_halveLeaf`) and of a
branch (`Index.regrown_halveBranch`) both regrow a tree.
-/

namespace ReplicaRing.Index

variable {x y z : Index} {h d : Nat} {s k : Shape}

theorem getElem?_set_push {a : Array Page} {i : Nat} (hi : i < a.size) (v w : Page) (j : Nat) :
    ((a.setIfInBounds i v).push w)[j]? =
      if j = a.size then some w else if j = i then some v else a[j]? := by
  rw [Array.getElem?_push, Array.getElem?_setIfInBounds, Array.size_setIfInBounds]
  by_cases hj : j = i
  · subst hj
    simp [hi]
  · simp [hj, Ne.symm hj]

theorem lt_size_of_getElem? {i : Nat} {p : Page} (h : x.pages[i]? = some p) : i < x.pages.size :=
  (Array.getElem?_eq_some_iff.1 h).1

/-! ## Regrown trees -/

/-- Nothing but pages that are no leaves is different in `y`. -/
structure SameLeaves (x y : Index) : Prop where
  leaf : ∀ {i : Nat} {es : List Entry} {prev next : Option Nat},
    x.pages[i]? = some (.leaf es prev next) → y.pages[i]? = some (.leaf es prev next)
  fanout : y.fanout = x.fanout
  root : y.root = x.root
  firstLeaf : y.firstLeaf = x.firstLeaf
  lastLeaf : y.lastLeaf = x.lastLeaf
  size : y.size = x.size

theorem SameLeaves.refl (x : Index) : SameLeaves x x := ⟨fun h => h, rfl, rfl, rfl, rfl, rfl⟩

theorem SameLeaves.trans (hxy : SameLeaves x y) (hyz : SameLeaves y z) : SameLeaves x z where
  leaf hi := hyz.leaf (hxy.leaf hi)
  fanout := hyz.fanout.trans hxy.fanout
  root := hyz.root.trans hxy.root
  firstLeaf := hyz.firstLeaf.trans hxy.firstLeaf
  lastLeaf := hyz.lastLeaf.trans hxy.lastLeaf
  size := hyz.size.trans hxy.size

/-- The tree `s` of `x` has become the trees `ss` of `y`, with the same entries, `more`
    leaves at the right, and the new pages of `y`; other pages have not changed. -/
structure Regrown (d : Nat) (x y : Index) (h : Nat) (s : Shape) (ss : List Shape)
    (more : List Nat) : Prop where
  fits : ∀ k ∈ ss, k.Fits y h
  filled : ∀ k ∈ ss, k.Filled y d h
  page : (ss.map Shape.page).head? = some s.page
  entries : (ss.flatMap fun k => k.entries y h) = s.entries x h
  leaves : ss.flatMap (Shape.leaves h) = s.leaves h ++ more
  nodup : (ss.flatMap (Shape.pages h)).Nodup
  mem_pages : ∀ i, i ∈ ss.flatMap (Shape.pages h) ↔
    i ∈ s.pages h ∨ x.pages.size ≤ i ∧ i < y.pages.size
  size_le : x.pages.size ≤ y.pages.size
  agree : ∀ i < x.pages.size, i ∉ s.pages h → y.pages[i]? = x.pages[i]?

namespace Regrown

variable {ss : List Shape} {more : List Nat}

theorem refl (hf : s.Fits x h) (hd : s.Filled x d h) (hn : (s.pages h).Nodup) :
    Regrown d x x h s [s] [] where
  fits k hk := List.mem_singleton.1 hk ▸ hf
  filled k hk := List.mem_singleton.1 hk ▸ hd
  page := rfl
  entries := List.append_nil _
  leaves := by simp
  nodup := by simpa using hn
  mem_pages i := by
    have : ¬(x.pages.size ≤ i ∧ i < x.pages.size) := by omega
    simp [this]
  size_le := Nat.le_refl _
  agree _ _ _ := rfl

theorem trans {s' : Shape} {more' : List Nat} (hs : Regrown d x y h s [s'] more)
    (hs' : Regrown d y z h s' ss more') : Regrown d x z h s ss (more ++ more') where
  fits := hs'.fits
  filled := hs'.filled
  page := by
    rw [hs'.page]
    exact hs.page
  entries := by
    rw [hs'.entries, ← hs.entries]
    simp
  leaves := by
    have := hs.leaves
    rw [List.flatMap_singleton] at this
    rw [hs'.leaves, this, List.append_assoc]
  nodup := hs'.nodup
  mem_pages i := by
    have h₁ := hs.mem_pages i
    have h₂ := hs.size_le
    have h₃ := hs'.size_le
    rw [List.flatMap_singleton] at h₁
    rw [hs'.mem_pages, h₁]
    constructor
    · rintro ((hi | hi) | hi)
      · exact .inl hi
      · exact .inr ⟨hi.1, by omega⟩
      · exact .inr ⟨by omega, hi.2⟩
    · rintro (hi | hi)
      · exact .inl (.inl hi)
      · by_cases hy : i < y.pages.size
        · exact .inl (.inr ⟨hi.1, hy⟩)
        · exact .inr ⟨by omega, hi.2⟩
  size_le := hs.size_le.trans hs'.size_le
  agree i hi hn := by
    rw [hs'.agree i (Nat.lt_of_lt_of_le hi hs.size_le), hs.agree i hi hn]
    have h₁ := hs.mem_pages i
    rw [List.flatMap_singleton] at h₁
    rw [h₁]
    rintro (h | h)
    · exact hn h
    · omega

/-- The first of the regrown trees has the least time of all. -/
theorem least {k' : Shape} {ks : List Shape} (hr : Regrown d x y h s (k' :: ks) more)
    (hne : ks = [] ∨ k'.entries y h ≠ []) : k'.least y h = s.least x h := by
  rw [Shape.least, Shape.least, ← hr.entries, List.flatMap_cons]
  rcases hne with rfl | hne
  · simp
  · rw [List.head?_append_of_ne_nil _ hne]

end Regrown

/-! ## Splitting a leaf -/

theorem splitPage_leaf {es : List Entry} {prev next : Option Nat} {i : Nat}
    (hp : x.pages[i]? = some (.leaf es prev next)) (hle : es.length ≤ 2 * x.fanout) :
    x.splitPage i = (x, none) := by
  simp only [splitPage, hp, if_pos hle]

/-- The index whose last leaf `i`, holding `es`, is split. -/
def halveLeaf (x : Index) (i : Nat) (es : List Entry) (prev : Option Nat) : Index :=
  { x with
    pages := (x.pages.setIfInBounds i (.leaf (es.take x.fanout) prev (some x.pages.size))).push
      (.leaf (es.drop x.fanout) (some i) none)
    lastLeaf := x.pages.size }

theorem splitPage_leaf_overfull {es : List Entry} {prev : Option Nat} {i : Nat}
    (hp : x.pages[i]? = some (.leaf es prev none)) (hlast : x.lastLeaf = i)
    (hlt : 2 * x.fanout < es.length) :
    x.splitPage i = (x.halveLeaf i es prev,
      some ((((es.drop x.fanout).head?.map (·.time)).getD 0), x.pages.size)) := by
  simp only [splitPage, hp, if_neg (Nat.not_le.2 hlt), halveLeaf, if_pos hlast, linkBack]
  obtain ⟨e, rest, hd⟩ : ∃ e rest, es.drop x.fanout = e :: rest :=
    List.exists_cons_of_ne_nil fun h => by
      have := List.drop_eq_nil_iff.1 h
      omega
  rw [hd]
  rfl

theorem entriesAt_halveLeaf {es : List Entry} {prev : Option Nat} {i : Nat}
    (hp : x.pages[i]? = some (.leaf es prev none)) :
    (x.halveLeaf i es prev).entriesAt i = es.take x.fanout ∧
      (x.halveLeaf i es prev).entriesAt x.pages.size = es.drop x.fanout := by
  have hi := lt_size_of_getElem? hp
  rw [entriesAt, entriesAt, halveLeaf, getElem?_set_push hi, getElem?_set_push hi]
  simp [Nat.ne_of_lt hi]

theorem regrown_halveLeaf {es : List Entry} {prev : Option Nat} {i : Nat}
    (hp : x.pages[i]? = some (.leaf es prev none)) (ks : List Shape) :
    Regrown d x (x.halveLeaf i es prev) 0 (.node i ks)
      [.node i [], .node x.pages.size []] [x.pages.size] := by
  have hi := lt_size_of_getElem? hp
  have hg := getElem?_set_push hi (.leaf (es.take x.fanout) prev (some x.pages.size))
    (.leaf (es.drop x.fanout) (some i) none)
  obtain ⟨he₁, he₂⟩ := entriesAt_halveLeaf hp
  constructor
  case fits =>
    intro k hk
    rcases List.mem_pair.1 hk with rfl | rfl
    · refine ⟨es.take x.fanout, prev, some x.pages.size, ?_⟩
      rw [Shape.page, halveLeaf, hg, if_neg (Nat.ne_of_lt hi), if_pos rfl]
    · refine ⟨es.drop x.fanout, some i, none, ?_⟩
      rw [Shape.page, halveLeaf, hg, if_pos rfl]
  case filled => exact fun _ _ => trivial
  case page => rfl
  case entries =>
    have he : x.entriesAt i = es := by simp [entriesAt, hp]
    simp [Shape.entries, Shape.leaves, Shape.page, he₁, he₂, he]
  case leaves => rfl
  case nodup => simp [Shape.pages, Shape.page, Nat.ne_of_lt hi]
  case mem_pages =>
    intro j
    simp only [Shape.pages, Shape.page, List.flatMap_cons, List.flatMap_nil, List.append_nil,
      List.mem_append, List.mem_singleton, halveLeaf, Array.size_push, Array.size_setIfInBounds]
    omega
  case size_le => simp [halveLeaf]
  case agree =>
    intro j hj hne
    have hne : j ≠ i := fun e => hne (List.mem_singleton.2 e)
    rw [halveLeaf, hg, if_neg (Nat.ne_of_lt hj), if_neg hne]

/-! ## Splitting a branch -/

/-- The index whose branch `i` is split, the right half with the keys from `d + 1` on. -/
def halveBranch (x : Index) (i : Nat) (keys : List Time) (cs : List Nat) : Index :=
  { x with
    pages := (x.pages.setIfInBounds i
      (.branch (keys.take x.fanout) (cs.take (x.fanout + 1)))).push
      (.branch (keys.drop (x.fanout + 1)) (cs.drop (x.fanout + 1))) }

theorem splitPage_branch {keys : List Time} {cs : List Nat} {i : Nat}
    (hp : x.pages[i]? = some (.branch keys cs)) (hle : keys.length ≤ 2 * x.fanout) :
    x.splitPage i = (x, none) := by
  simp only [splitPage, hp, if_pos hle]

theorem splitPage_branch_overfull {keys : List Time} {cs : List Nat} {i : Nat} {key : Time}
    (hp : x.pages[i]? = some (.branch keys cs)) (hlt : 2 * x.fanout < keys.length)
    (hk : (keys.drop x.fanout).head? = some key) :
    x.splitPage i = (x.halveBranch i keys cs, some (key, x.pages.size)) := by
  simp only [splitPage, hp, if_neg (Nat.not_le.2 hlt), halveBranch]
  obtain ⟨rest, hd⟩ : ∃ rest, keys.drop x.fanout = key :: rest := by
    cases hd : keys.drop x.fanout with
    | nil => simp [hd] at hk
    | cons a rest =>
      rw [hd, List.head?_cons, Option.some.injEq] at hk
      exact ⟨rest, by rw [hk]⟩
  have hr : keys.drop (x.fanout + 1) = rest := by
    rw [← List.tail_drop, hd, List.tail_cons]
  rw [hd, hr]

/-- The least time below a branch is the one below its first child. -/
theorem Shape.least_node {i : Nat} {k : Shape} {ks : List Shape} (hne : k.entries x h ≠ []) :
    (Shape.node i (k :: ks)).least x (h + 1) = k.least x h := by
  rw [Shape.least, Shape.least, Shape.entries_succ, Shape.kids, List.flatMap_cons,
    List.head?_append_of_ne_nil _ hne]

theorem Shape.lt_size_of_mem_pages (hs : s.Fits x h) : ∀ i ∈ s.pages h, i < x.pages.size := by
  induction h generalizing s with
  | zero =>
    obtain ⟨es, prev, next, hp⟩ := hs
    intro i hi
    rw [List.mem_singleton.1 hi]
    exact lt_size_of_getElem? hp
  | succ h ih =>
    obtain ⟨-, hp, hk⟩ := hs
    intro i hi
    rcases List.mem_cons.1 hi with rfl | hi
    · exact lt_size_of_getElem? hp
    · obtain ⟨k, hk', hi⟩ := List.mem_flatMap.1 hi
      exact ih (hk k hk') i hi

/-- The trees below a branch stay as they are when it is split. -/
theorem agree_halveBranch {i : Nat} {ks : List Shape} (hs : (Shape.node i ks).Fits x (h + 1))
    (hn : ((Shape.node i ks).pages (h + 1)).Nodup) (keys : List Time) (cs : List Nat) :
    ∀ k ∈ ks, Agree x (x.halveBranch i keys cs) (k.pages h) := by
  intro k hk j hj
  have hjp : j ∈ ks.flatMap (Shape.pages h) := List.mem_flatMap.2 ⟨k, hk, hj⟩
  have hlt := Shape.lt_size_of_mem_pages hs j (List.mem_cons_of_mem _ hjp)
  have hji : j ≠ i := by
    rintro rfl
    exact (List.nodup_cons.1 hn).1 hjp
  have hi : i < x.pages.size := lt_size_of_getElem? hs.2.1
  rw [halveBranch, getElem?_set_push hi, if_neg (Nat.ne_of_lt hlt), if_neg hji]

/-- What is below the halves of a branch, from left to right, is what was below the branch. -/
theorem flatMap_take_append_drop {β : Type} (f : Shape → List β) (n : Nat) (ks : List Shape) :
    (ks.take n).flatMap f ++ (ks.drop n).flatMap f = ks.flatMap f := by
  rw [← List.flatMap_append, List.take_append_drop]

/-- The pages of the halves of a branch are its own and the one of the right half. -/
theorem Shape.pages_halves_perm (h i right n : Nat) (ks : List Shape) :
    ([node i (ks.take n), node right (ks.drop n)].flatMap (pages (h + 1))).Perm
      (right :: (node i ks).pages (h + 1)) := by
  simp only [List.flatMap_cons, List.flatMap_nil, List.append_nil, pages, kids, page]
  refine List.perm_middle.trans (.cons _ ?_)
  rw [List.cons_append, flatMap_take_append_drop]

theorem regrown_halveBranch {i : Nat} {ks : List Shape}
    (hs : (Shape.node i ks).Fits x (h + 1)) (hf : (Shape.node i ks).Filled x d (h + 1))
    (hn : ((Shape.node i ks).pages (h + 1)).Nodup) (hlen : x.fanout + 1 < ks.length) :
    Regrown d x (x.halveBranch i (ks.tail.map (Shape.least x h)) (ks.map Shape.page)) (h + 1)
      (.node i ks) [.node i (ks.take (x.fanout + 1)), .node x.pages.size (ks.drop (x.fanout + 1))]
      [] := by
  set y := x.halveBranch i (ks.tail.map (Shape.least x h)) (ks.map Shape.page) with hy
  have hlt := Shape.lt_size_of_mem_pages hs
  have hag : ∀ k ∈ ks, Agree x y (k.pages h) := agree_halveBranch hs hn _ _
  obtain ⟨-, hp, hk⟩ := hs
  have hi : i < x.pages.size := lt_size_of_getElem? hp
  have hg : ∀ j, y.pages[j]? = _ := getElem?_set_push hi _ _
  have hperm := Shape.pages_halves_perm h i x.pages.size (x.fanout + 1) ks
  -- The separators of a half are those of its children but the first. The one at the cut is in
  -- neither half: it goes to the page above.
  constructor
  case fits =>
    intro k hk'
    rcases List.mem_pair.1 hk' with rfl | rfl
    · refine Agree.fits_node (fun k hk => hag k (List.mem_of_mem_take hk)) ?_
        (fun k hk' => hk k (List.mem_of_mem_take hk')) ?_
      · exact List.ne_nil_of_length_pos (by rw [List.length_take]; omega)
      · have htake : (ks.take (x.fanout + 1)).tail = ks.tail.take x.fanout := by
          cases ks <;> simp
        rw [hg, if_neg (Nat.ne_of_lt hi), if_pos rfl, htake, List.map_take, List.map_take]
    · refine Agree.fits_node (fun k hk => hag k (List.mem_of_mem_drop hk)) ?_
        (fun k hk' => hk k (List.mem_of_mem_drop hk')) ?_
      · exact List.ne_nil_of_length_pos (by rw [List.length_drop]; omega)
      · rw [hg, if_pos rfl, List.tail_drop, ← List.drop_one, ← List.map_drop, ← List.map_drop,
          List.drop_drop, Nat.add_comm 1]
  case filled =>
    intro k hk'
    rcases List.mem_pair.1 hk' with rfl | rfl
    · exact Agree.filled_node (fun k hk => hag k (List.mem_of_mem_take hk))
        fun k hk => hf k (List.mem_of_mem_take hk)
    · exact Agree.filled_node (fun k hk => hag k (List.mem_of_mem_drop hk))
        fun k hk => hf k (List.mem_of_mem_drop hk)
  case page => rfl
  case entries =>
    simp only [List.flatMap_cons, List.flatMap_nil, List.append_nil, Shape.entries_succ, Shape.kids]
    rw [flatMap_take_append_drop, Agree.flatMap_entries hag]
  case leaves =>
    simp only [List.flatMap_cons, List.flatMap_nil, List.append_nil, Shape.leaves, Shape.kids]
    rw [flatMap_take_append_drop]
  case nodup =>
    rw [hperm.nodup_iff, List.nodup_cons]
    exact ⟨fun h => Nat.lt_irrefl _ (hlt _ h), hn⟩
  case mem_pages =>
    intro j
    have hnew : x.pages.size ≤ j ∧ j < y.pages.size ↔ j = x.pages.size := by
      rw [hy, halveBranch, Array.size_push, Array.size_setIfInBounds]
      omega
    rw [hperm.mem_iff, List.mem_cons, hnew, or_comm]
  case size_le => simp [hy, halveBranch]
  case agree =>
    intro j hj hne
    have hji : j ≠ i := fun e => hne (e ▸ List.mem_cons_self)
    rw [hg, if_neg (Nat.ne_of_lt hj), if_neg hji]

end ReplicaRing.Index

import ReplicaRing.Proofs.Index.Intact

/-!
# Pages in order

What the pages of an index are like, said of the array of pages alone (`Index.WellFormed`): where
the ways down from the root lead (`Index.descend`), how full a page is, how keys separate what is
below the children on their two sides, and how the leaves are linked.

An index that holds entries is a tree of some shape (`Index.Holds`), and each page is the top of a
part of it (`Index.Shape.exists_part`). A way down follows the shape, and the parts of a page are
told apart by the numbers on the way.

Main statement: an index that started empty is well-formed, whatever was offered to it
(`Index.wellFormed_offered`).
-/

namespace ReplicaRing.Index

variable {x : Index} {h d fuel i j : Nat} {s k : Shape} {es : List Entry} {slots : List Nat}

/-! ## Ways down -/

/-- The page that is reached from page `i` by going down, at each page to the child of the next
    number. -/
def descend (x : Index) (i : Nat) : List Nat → Option Nat
  | [] => some i
  | slot :: slots =>
    match x.pages[i]? with
    | some (.branch _ cs) => cs[slot]?.bind fun c => x.descend c slots
    | _ => none

/-- Page `i` is a leaf. -/
def IsLeaf (x : Index) (i : Nat) : Prop := ∃ es prev next, x.pages[i]? = some (.leaf es prev next)

theorem isLeaf_of_prevOf (h : x.prevOf i = some j) : x.IsLeaf i := by
  rw [prevOf] at h
  split at h
  · exact ⟨_, _, _, ‹_›⟩
  · cases h

theorem isLeaf_of_nextOf (h : x.nextOf i = some j) : x.IsLeaf i := by
  rw [nextOf] at h
  split at h
  · exact ⟨_, _, _, ‹_›⟩
  · cases h

/-- An entry with the time `t` is in a leaf that is reached from page `i`. -/
def TimeBelow (x : Index) (i : Nat) (t : Time) : Prop :=
  ∃ slots leaf, x.descend i slots = some leaf ∧ ∃ e ∈ x.entriesAt leaf, e.time = t

/-- The leaves below page `i` from left to right, `fuel` levels down at most. -/
def leavesFrom (x : Index) : (fuel : Nat) → Nat → List Nat
  | 0, i => [i]
  | fuel + 1, i =>
    match x.pages[i]? with
    | some (.branch _ cs) => cs.flatMap (leavesFrom x fuel)
    | _ => [i]

/-- All leaves from left to right. No way down is longer than there are pages. -/
def leaves (x : Index) : List Nat := x.leavesFrom x.pages.size x.root

/-- The pages of an index are a B+ tree of order `d`. -/
structure WellFormed (d : Nat) (x : Index) : Prop where
  /-- The ways down lead to pages of the index, and to each of them just one leads. -/
  lt_size : ∀ {slots : List Nat} {i : Nat}, x.descend x.root slots = some i → i < x.pages.size
  reached_once : ∀ i < x.pages.size, ∃! slots, x.descend x.root slots = some i
  /-- All leaves are equally deep. -/
  level : ∀ {slots : List Nat} {i : Nat}, x.descend x.root slots = some i → x.IsLeaf i →
    slots.length + 1 = x.depth
  leaf_size : ∀ {i : Nat} {es : List Entry} {prev next : Option Nat},
    x.pages[i]? = some (.leaf es prev next) → es.length ≤ 2 * d ∧ (i ≠ x.root → d ≤ es.length)
  branch_size : ∀ {i : Nat} {keys : List Time} {cs : List Nat},
    x.pages[i]? = some (.branch keys cs) →
      1 ≤ keys.length ∧ keys.length ≤ 2 * d ∧ (i ≠ x.root → d ≤ keys.length) ∧
        cs.length = keys.length + 1
  /-- A key is the least time below the child on its right, and above all below that on its left. -/
  separated : ∀ {i n left right : Nat} {keys : List Time} {cs : List Nat} {key : Time},
    x.pages[i]? = some (.branch keys cs) → keys[n]? = some key →
      cs[n]? = some left → cs[n + 1]? = some right →
      (∀ t, x.TimeBelow left t → t < key) ∧ x.TimeBelow right key ∧
        ∀ t, x.TimeBelow right t → key ≤ t
  nodup_leaves : x.leaves.Nodup
  mem_leaves : ∀ i, i ∈ x.leaves ↔ x.IsLeaf i
  first : x.leaves.head? = some x.firstLeaf
  last : x.leaves.getLast? = some x.lastLeaf
  /-- The leaf that is linked as the next one is the next to the right, if there is one. -/
  next : ∀ {n i : Nat}, x.leaves[n]? = some i → x.nextOf i = x.leaves[n + 1]?
  prev : ∀ i j, x.prevOf j = some i ↔ x.nextOf i = some j
  ascending : Ascending (x.leaves.flatMap x.entriesAt)
  size : x.size = (x.leaves.flatMap x.entriesAt).length

/-! ## Parts of a tree -/

namespace Shape

theorem not_isLeaf (hs : s.Fits x (h + 1)) : ¬x.IsLeaf s.page := by
  rintro ⟨es, prev, next, hp⟩
  rw [hs.2.1] at hp
  cases hp

/-- Every page is the top of a part of the tree, which is the whole tree or holds between `d` and
    `2 * d` entries or keys at its top. -/
theorem exists_part (hs : s.Fits x h) (hf : s.Filled x d h) (hi : i ∈ s.pages h) :
    ∃ h' s', s'.page = i ∧ s'.Fits x h' ∧ s'.Filled x d h' ∧
      (s'.entries x h').Sublist (s.entries x h) ∧
      (h' = h ∧ s' = s ∨ d ≤ s'.count x h' ∧ s'.count x h' ≤ 2 * d) := by
  induction h generalizing s with
  | zero => exact ⟨0, s, (List.mem_singleton.1 hi).symm, hs, hf, .refl _, .inl ⟨rfl, rfl⟩⟩
  | succ h ih =>
    rcases List.mem_cons.1 hi with rfl | hi
    · exact ⟨h + 1, s, rfl, hs, hf, .refl _, .inl ⟨rfl, rfl⟩⟩
    · obtain ⟨k, hk, hi⟩ := List.mem_flatMap.1 hi
      obtain ⟨hge, hle, hfk⟩ := hf k hk
      obtain ⟨h', s', hpage, hs', hf', hsub, hcount⟩ := ih (hs.2.2 k hk) hfk hi
      refine ⟨h', s', hpage, hs', hf', hsub.trans ?_, ?_⟩
      · rw [entries_succ]
        exact List.sublist_flatten_of_mem (List.mem_map_of_mem hk)
      · rcases hcount with ⟨rfl, rfl⟩ | hcount
        · exact .inr ⟨hge, hle⟩
        · exact .inr hcount

/-- The leaves of a tree are those of its pages that are leaves. -/
theorem mem_leaves_iff (hs : s.Fits x h) : i ∈ s.leaves h ↔ i ∈ s.pages h ∧ x.IsLeaf i := by
  induction h generalizing s with
  | zero =>
    refine (and_iff_left_of_imp fun hi => ?_).symm
    rw [List.mem_singleton.1 hi]
    exact hs
  | succ h ih =>
    have hk : ∀ k ∈ s.kids, (i ∈ k.leaves h ↔ i ∈ k.pages h ∧ x.IsLeaf i) := fun k hk =>
      ih (hs.2.2 k hk)
    constructor
    · intro hi
      obtain ⟨k, hkm, hi⟩ := List.mem_flatMap.1 hi
      obtain ⟨hi, hleaf⟩ := (hk k hkm).1 hi
      exact ⟨pages_subset_of_mem hkm hi, hleaf⟩
    · rintro ⟨hi, hleaf⟩
      rcases List.mem_cons.1 hi with rfl | hi
      · exact absurd hleaf (not_isLeaf hs)
      · obtain ⟨k, hkm, hi⟩ := List.mem_flatMap.1 hi
        exact List.mem_flatMap.2 ⟨k, hkm, (hk k hkm).2 ⟨hi, hleaf⟩⟩

/-- A way down from the top goes on from the top of one of the trees below it. -/
theorem descend_cons (hs : s.Fits x (h + 1)) (slot : Nat) (slots : List Nat) :
    x.descend s.page (slot :: slots) =
      s.kids[slot]?.bind fun k => x.descend k.page slots := by
  rw [descend, hs.2.1]
  simp only [List.getElem?_map, Option.bind_map]
  rfl

theorem descend_cons_eq_some (hs : s.Fits x (h + 1)) {slot : Nat} :
    x.descend s.page (slot :: slots) = some i ↔
      ∃ k, s.kids[slot]? = some k ∧ x.descend k.page slots = some i := by
  rw [descend_cons hs, Option.bind_eq_some_iff]

/-- No way leads down from a leaf. -/
theorem descend_leaf (hi : x.IsLeaf i) (slot : Nat) (slots : List Nat) :
    x.descend i (slot :: slots) = none := by
  obtain ⟨es, prev, next, hp⟩ := hi
  rw [descend, hp]

/-- The ways down lead to the pages of the tree. -/
theorem exists_descend_iff (hs : s.Fits x h) :
    (∃ slots, x.descend s.page slots = some i) ↔ i ∈ s.pages h := by
  induction h generalizing s with
  | zero =>
    rw [pages, List.mem_singleton]
    constructor
    · rintro ⟨_ | ⟨slot, slots⟩, hd⟩
      · exact (Option.some.inj hd).symm
      · rw [descend_leaf hs] at hd
        cases hd
    · rintro rfl
      exact ⟨[], rfl⟩
  | succ h ih =>
    rw [pages, List.mem_cons, List.mem_flatMap]
    constructor
    · rintro ⟨_ | ⟨slot, slots⟩, hd⟩
      · exact .inl (Option.some.inj hd).symm
      · obtain ⟨k, hk, hd⟩ := (descend_cons_eq_some hs).1 hd
        have hk := List.mem_of_getElem? hk
        exact .inr ⟨k, hk, (ih (hs.2.2 k hk)).1 ⟨slots, hd⟩⟩
    · rintro (rfl | ⟨k, hk, hi⟩)
      · exact ⟨[], rfl⟩
      · obtain ⟨slots, hd⟩ := (ih (hs.2.2 k hk)).2 hi
        obtain ⟨slot, hslot⟩ := List.mem_iff_getElem?.1 hk
        exact ⟨slot :: slots, (descend_cons_eq_some hs).2 ⟨k, hslot, hd⟩⟩

/-- A page is below one of the trees under the top only. -/
theorem slot_eq_of_mem_pages (hn : (s.kids.flatMap (pages h)).Nodup) {slot slot' : Nat}
    {k' : Shape} (hk : s.kids[slot]? = some k) (hk' : s.kids[slot']? = some k')
    (hi : i ∈ k.pages h) (hi' : i ∈ k'.pages h) : slot = slot' := by
  have hdis := List.pairwise_iff_getElem.1 (List.nodup_flatMap.1 hn).2
  obtain ⟨hlt, rfl⟩ := List.getElem?_eq_some_iff.1 hk
  obtain ⟨hlt', rfl⟩ := List.getElem?_eq_some_iff.1 hk'
  rcases lt_trichotomy slot slot' with h | h | h
  · exact absurd hi' (hdis slot slot' hlt hlt' h hi)
  · exact h
  · exact absurd hi (hdis slot' slot hlt' hlt h hi')

/-- Different ways lead to different pages. -/
theorem descend_injective (hs : s.Fits x h) (hn : (s.pages h).Nodup) {slots slots' : List Nat}
    (hd : x.descend s.page slots = some i) (hd' : x.descend s.page slots' = some i) :
    slots = slots' := by
  induction h generalizing s slots slots' with
  | zero =>
    cases slots with
    | cons => rw [descend_leaf hs] at hd; cases hd
    | nil =>
      cases slots' with
      | cons => rw [descend_leaf hs] at hd'; cases hd'
      | nil => rfl
  | succ h ih =>
    obtain ⟨htop, hn⟩ := List.nodup_cons.1 hn
    have hbelow : ∀ {slot slots}, x.descend s.page (slot :: slots) = some i →
        ∃ k, s.kids[slot]? = some k ∧ x.descend k.page slots = some i ∧ i ∈ k.pages h := by
      intro slot slots hd
      obtain ⟨k, hk, hd⟩ := (descend_cons_eq_some hs).1 hd
      have hkf := hs.2.2 k (List.mem_of_getElem? hk)
      exact ⟨k, hk, hd, (exists_descend_iff hkf).1 ⟨slots, hd⟩⟩
    have hnot : ∀ {slot slots}, x.descend s.page (slot :: slots) = some i → i ≠ s.page := by
      rintro slot slots hd rfl
      obtain ⟨k, hk, -, hi⟩ := hbelow hd
      exact htop (List.mem_flatMap.2 ⟨k, List.mem_of_getElem? hk, hi⟩)
    -- A way ends here, at a page that no subtree has, or goes on in one of them.
    cases slots with
    | nil =>
      cases slots' with
      | nil => rfl
      | cons => exact absurd (Option.some.inj hd).symm (hnot hd')
    | cons slot slots =>
      cases slots' with
      | nil => exact absurd (Option.some.inj hd').symm (hnot hd)
      | cons slot' slots' =>
        obtain ⟨k, hk, hd, hi⟩ := hbelow hd
        obtain ⟨k', hk', hd', hi'⟩ := hbelow hd'
        obtain rfl := slot_eq_of_mem_pages hn hk hk' hi hi'
        obtain rfl := Option.some.inj (hk.symm.trans hk')
        have hkm := List.mem_of_getElem? hk
        rw [ih (hs.2.2 k hkm) ((List.nodup_flatMap.1 hn).1 k hkm) hd hd']

/-- The leaves of a tree are as deep as the tree is high. -/
theorem length_of_descend (hs : s.Fits x h) (hd : x.descend s.page slots = some i)
    (hi : x.IsLeaf i) : slots.length = h := by
  induction h generalizing s slots with
  | zero =>
    cases slots with
    | nil => rfl
    | cons => rw [descend_leaf hs] at hd; cases hd
  | succ h ih =>
    cases slots with
    | nil => exact absurd (Option.some.inj hd ▸ hi) (not_isLeaf hs)
    | cons slot slots =>
      obtain ⟨k, hk, hd⟩ := (descend_cons_eq_some hs).1 hd
      rw [List.length_cons, ih (hs.2.2 k (List.mem_of_getElem? hk)) hd]

theorem depthFrom_page (hs : s.Fits x h) (hle : h ≤ fuel) : x.depthFrom fuel s.page = h + 1 := by
  induction h generalizing s fuel with
  | zero =>
    obtain ⟨es, prev, next, hp⟩ := hs
    cases fuel <;> simp [depthFrom, hp]
  | succ h ih =>
    obtain ⟨fuel, rfl⟩ := Nat.exists_eq_add_of_le' hle
    obtain ⟨hne, hp, hk⟩ := hs
    obtain ⟨k, ks, hks⟩ := List.exists_cons_of_ne_nil hne
    rw [← Nat.add_assoc, depthFrom, hp, hks, List.map_cons]
    exact congrArg (· + 1) (ih (hk k (hks ▸ List.mem_cons_self)) (Nat.le_add_left _ _))

theorem leavesFrom_page (hs : s.Fits x h) (hle : h ≤ fuel) :
    x.leavesFrom fuel s.page = s.leaves h := by
  induction h generalizing s fuel with
  | zero =>
    obtain ⟨es, prev, next, hp⟩ := hs
    cases fuel <;> simp [leavesFrom, hp, leaves]
  | succ h ih =>
    obtain ⟨fuel, rfl⟩ := Nat.exists_eq_add_of_le' hle
    obtain ⟨hne, hp, hk⟩ := hs
    rw [← Nat.add_assoc, leavesFrom, hp]
    simp only [List.flatMap_map, leaves]
    exact List.flatMap_congr fun k hk' => ih (hk k hk') (Nat.le_add_left _ _)

/-- The times below the top are those of the entries of the tree. -/
theorem timeBelow_iff (hs : s.Fits x h) {t : Time} :
    x.TimeBelow s.page t ↔ ∃ e ∈ s.entries x h, e.time = t := by
  have hleaf : ∀ {leaf : Nat} {e : Entry}, e ∈ x.entriesAt leaf → x.IsLeaf leaf := by
    intro leaf e he
    rw [entriesAt] at he
    split at he
    · exact ⟨_, _, _, ‹_›⟩
    · exact absurd he List.not_mem_nil
  simp only [entries, List.mem_flatMap, mem_leaves_iff hs]
  constructor
  · rintro ⟨slots, leaf, hd, e, he, rfl⟩
    exact ⟨e, ⟨leaf, ⟨(exists_descend_iff hs).1 ⟨slots, hd⟩, hleaf he⟩, he⟩, rfl⟩
  · rintro ⟨e, ⟨leaf, ⟨hi, -⟩, he⟩, rfl⟩
    obtain ⟨slots, hd⟩ := (exists_descend_iff hs).2 hi
    exact ⟨slots, leaf, hd, e, he, rfl⟩

/-- The least time of a tree with entries is that of one of them, and no other is before it. -/
theorem isLeast_least (hs : s.Fits x h) (hne : s.entries x h ≠ [])
    (ha : Ascending (s.entries x h)) :
    x.TimeBelow s.page (s.least x h) ∧ ∀ t, x.TimeBelow s.page t → s.least x h ≤ t := by
  obtain ⟨e, rest, he, hleast⟩ := exists_head hne
  simp only [timeBelow_iff hs, ← hleast, he]
  refine ⟨⟨e, List.mem_cons_self, rfl⟩, ?_⟩
  rintro t ⟨e', he', rfl⟩
  rw [he] at ha
  rcases List.mem_cons.1 he' with rfl | he'
  · exact UInt64.le_refl _
  · exact UInt64.le_of_lt (List.rel_of_pairwise_cons ha he').1

/-- A key between two trees next to each other keeps them apart. -/
theorem separates {init rest : List Shape} {l r : Shape} (hd : 0 < d) (hs : s.Fits x (h + 1))
    (hf : s.Filled x d (h + 1)) (ha : Ascending (s.entries x (h + 1)))
    (hkids : s.kids = init ++ l :: r :: rest) :
    (∀ t, x.TimeBelow l.page t → t < r.least x h) ∧ x.TimeBelow r.page (r.least x h) ∧
      ∀ t, x.TimeBelow r.page t → r.least x h ≤ t := by
  have hl : l ∈ s.kids := by simp [hkids]
  have hr : r ∈ s.kids := by simp [hkids]
  obtain ⟨hcount, -, hfr⟩ := hf r hr
  have hne := entries_ne_nil hd (hs.2.2 r hr) hcount hfr
  rw [entries_succ, hkids, List.flatMap_append, List.flatMap_cons, List.flatMap_cons] at ha
  have ha := (List.pairwise_append.1 ha).2.1
  refine ⟨?_, isLeast_least (hs.2.2 r hr) hne (List.pairwise_append.1
    (List.pairwise_append.1 ha).2.1).1⟩
  obtain ⟨e, es, he, hleast⟩ := exists_head hne
  intro t ht
  obtain ⟨e', he', rfl⟩ := (timeBelow_iff (hs.2.2 l hl)).1 ht
  rw [← hleast]
  exact ((List.pairwise_append.1 ha).2.2 e' he' e (by simp [he])).1

end Shape

/-! ## Indexes that hold entries -/

namespace HoldsIn

variable (hx : x.HoldsIn h s es)

include hx

theorem depth_eq : x.depth = h + 1 := by
  rw [depth, ← hx.root]
  exact Shape.depthFrom_page hx.fits hx.height_lt.le

theorem leaves_eq : x.leaves = s.leaves h := by
  rw [leaves, ← hx.root]
  exact Shape.leavesFrom_page hx.fits hx.height_lt.le

theorem mem_pages_of_getElem? {p : Page} (hp : x.pages[i]? = some p) : i ∈ s.pages h :=
  (hx.mem_pages i).2 (lt_size_of_getElem? hp)

/-- Every page is the top of a part of the tree, and no page but the root is less than half full. -/
theorem exists_part (ha : Ascending es) {p : Page} (hp : x.pages[i]? = some p) :
    ∃ (h' : Nat) (s' : Shape), s'.page = i ∧ s'.Fits x h' ∧ s'.Filled x x.fanout h' ∧
      Ascending (s'.entries x h') ∧ s'.count x h' ≤ 2 * x.fanout ∧
      (i ≠ x.root → x.fanout ≤ s'.count x h') ∧ (h' ≠ 0 → 1 ≤ s'.count x h') := by
  obtain ⟨h', s', hpage, hs', hf', hsub, hcount⟩ :=
    Shape.exists_part hx.fits hx.filled (hx.mem_pages_of_getElem? hp)
  have hasc : Ascending (s'.entries x h') := List.Pairwise.sublist (hx.entries ▸ hsub) ha
  have htwo := hx.two_le_fanout
  rcases hcount with ⟨rfl, rfl⟩ | ⟨hge, hle⟩
  · exact ⟨h', s', hpage, hs', hf', hasc, hx.count_le,
      fun hi => absurd (hpage.symm.trans hx.root) hi, hx.one_le_count⟩
  · exact ⟨h', s', hpage, hs', hf', hasc, hle, fun _ => hge, fun _ => by omega⟩

theorem leaf_size (ha : Ascending es) {les : List Entry} {prev next : Option Nat}
    (hp : x.pages[i]? = some (.leaf les prev next)) :
    les.length ≤ 2 * x.fanout ∧ (i ≠ x.root → x.fanout ≤ les.length) := by
  obtain ⟨h', s', rfl, hs', -, -, hle, hge, -⟩ := hx.exists_part ha hp
  cases h' with
  | zero =>
    rw [Shape.count, entriesAt, hp] at hle hge
    exact ⟨hle, hge⟩
  | succ h' => exact absurd ⟨les, prev, next, hp⟩ (Shape.not_isLeaf hs')

/-- A branch is the top of a part of the tree with trees below it. -/
theorem exists_branch (ha : Ascending es) {keys : List Time} {cs : List Nat}
    (hp : x.pages[i]? = some (.branch keys cs)) :
    ∃ (h' : Nat) (s' : Shape), s'.Fits x (h' + 1) ∧ s'.Filled x x.fanout (h' + 1) ∧
      Ascending (s'.entries x (h' + 1)) ∧ keys = s'.kids.tail.map (Shape.least x h') ∧
      cs = s'.kids.map Shape.page ∧ 1 ≤ keys.length ∧ keys.length ≤ 2 * x.fanout ∧
      (i ≠ x.root → x.fanout ≤ keys.length) := by
  obtain ⟨h', s', rfl, hs', hf', hasc, hle, hge, hone⟩ := hx.exists_part ha hp
  cases h' with
  | zero =>
    obtain ⟨les, prev, next, hp'⟩ := hs'
    rw [hp] at hp'
    cases hp'
  | succ h' =>
    have hpage := hs'.2.1
    rw [hp, Option.some.injEq, Page.branch.injEq] at hpage
    have hlen : keys.length = s'.count x (h' + 1) := by
      rw [hpage.1, List.length_map, List.length_tail, Shape.count]
    rw [← hlen] at hle hge hone
    exact ⟨h', s', hs', hf', hasc, hpage.1, hpage.2, hone (Nat.succ_ne_zero _), hle, hge⟩

theorem separated (ha : Ascending es) {keys : List Time} {cs : List Nat} {n left right : Nat}
    {key : Time} (hp : x.pages[i]? = some (.branch keys cs)) (hkey : keys[n]? = some key)
    (hleft : cs[n]? = some left) (hright : cs[n + 1]? = some right) :
    (∀ t, x.TimeBelow left t → t < key) ∧ x.TimeBelow right key ∧
      ∀ t, x.TimeBelow right t → key ≤ t := by
  obtain ⟨h', s', hs', hf', hasc, rfl, rfl, -⟩ := hx.exists_branch ha hp
  rw [List.getElem?_map, Option.map_eq_some_iff] at hkey hleft hright
  obtain ⟨l, hl, rfl⟩ := hleft
  obtain ⟨r, hr, rfl⟩ := hright
  obtain ⟨r', hr', rfl⟩ := hkey
  rw [List.getElem?_tail, hr, Option.some.injEq] at hr'
  subst hr'
  obtain ⟨hlt, hr⟩ := List.getElem?_eq_some_iff.1 hr
  obtain ⟨hlt', hl⟩ := List.getElem?_eq_some_iff.1 hl
  have hkids : s'.kids = s'.kids.take n ++ l :: r :: s'.kids.drop (n + 1 + 1) := by
    rw [← hl, ← hr, List.cons_getElem_drop_succ, List.cons_getElem_drop_succ,
      List.take_append_drop]
  exact Shape.separates (Nat.lt_of_lt_of_le Nat.zero_lt_two hx.two_le_fanout) hs' hf' hasc hkids

/-- A leaf is linked to the leaves on its two sides. -/
theorem links {ls rs : List Nat} (hls : x.leaves = ls ++ i :: rs) :
    x.prevOf i = ls.getLast? ∧ x.nextOf i = rs.head? := by
  have hlink := hx.linked
  rw [← hx.leaves_eq, hls] at hlink
  obtain ⟨les, hp⟩ := hlink.page
  rw [prevOf, nextOf, hp]
  exact ⟨Option.or_none, rfl⟩

theorem mem_leaves_iff : i ∈ x.leaves ↔ x.IsLeaf i := by
  rw [hx.leaves_eq, Shape.mem_leaves_iff hx.fits]
  refine and_iff_right_of_imp ?_
  rintro ⟨les, prev, next, hp⟩
  exact hx.mem_pages_of_getElem? hp

theorem next {n : Nat} (hi : x.leaves[n]? = some i) : x.nextOf i = x.leaves[n + 1]? := by
  obtain ⟨hlt, hget⟩ := List.getElem?_eq_some_iff.1 hi
  have hls : x.leaves = x.leaves.take n ++ i :: x.leaves.drop (n + 1) := by
    rw [← hget, List.cons_getElem_drop_succ, List.take_append_drop]
  rw [(hx.links hls).2, List.head?_drop]

theorem prev (i j : Nat) : x.prevOf j = some i ↔ x.nextOf i = some j := by
  constructor
  · intro hprev
    obtain ⟨ls, rs, hls⟩ := List.append_of_mem (hx.mem_leaves_iff.2 (isLeaf_of_prevOf hprev))
    rw [(hx.links hls).1, List.getLast?_eq_some_iff] at hprev
    obtain ⟨ls, rfl⟩ := hprev
    rw [List.append_assoc] at hls
    rw [(hx.links hls).2]
    rfl
  · intro hnext
    obtain ⟨ls, rs, hls⟩ := List.append_of_mem (hx.mem_leaves_iff.2 (isLeaf_of_nextOf hnext))
    rw [(hx.links hls).2, List.head?_eq_some_iff] at hnext
    obtain ⟨rs, rfl⟩ := hnext
    rw [List.append_cons] at hls
    rw [(hx.links hls).1, List.getLast?_concat]

/-- The pages of an index that holds entries are a B+ tree. -/
theorem wellFormed (ha : Ascending es) : WellFormed x.fanout x where
  lt_size hd := by
    rw [← hx.root] at hd
    exact (hx.mem_pages _).1 ((Shape.exists_descend_iff hx.fits).1 ⟨_, hd⟩)
  reached_once i hi := by
    rw [← hx.root]
    obtain ⟨slots, hd⟩ := (Shape.exists_descend_iff hx.fits).2 ((hx.mem_pages i).2 hi)
    exact ⟨slots, hd, fun slots' hd' => Shape.descend_injective hx.fits hx.nodup hd' hd⟩
  level hd hi := by
    rw [← hx.root] at hd
    rw [hx.depth_eq, Shape.length_of_descend hx.fits hd hi]
  leaf_size := hx.leaf_size ha
  branch_size hp := by
    obtain ⟨h', s', hs', -, -, rfl, rfl, hone, hle, hge⟩ := hx.exists_branch ha hp
    refine ⟨hone, hle, hge, ?_⟩
    have hne := List.length_pos_iff.2 hs'.1
    rw [List.length_map, List.length_map, List.length_tail]
    omega
  separated := hx.separated ha
  nodup_leaves := by
    rw [hx.leaves_eq]
    exact (Shape.leaves_sublist_pages h s).nodup hx.nodup
  mem_leaves _ := hx.mem_leaves_iff
  first := by rw [hx.leaves_eq, hx.first]
  last := by rw [hx.leaves_eq, hx.last]
  next := hx.next
  prev := hx.prev
  ascending := by
    have hentries := hx.entries
    rw [Shape.entries] at hentries
    rwa [hx.leaves_eq, hentries]
  size := by
    rw [hx.leaves_eq, hx.size, ← hx.entries]
    rfl

end HoldsIn

/-- **The pages of an index are a B+ tree**, whatever was offered to it and in whatever order. -/
theorem wellFormed_offered (fanout : Nat) (offered : List Entry) :
    WellFormed (max fanout 2) (offered.foldl offer (empty fanout)) := by
  have hfan := fanout_offered fanout offered
  obtain ⟨ha, h, s, hx⟩ := holds_accepted fanout offered
  exact hfan ▸ hx.wellFormed ha

/-- Pages keep their numbers, so that a root is numbered after the leaves it was put above and
    before those that came later. -/
example :
    let offered : List Entry := [10, 20, 30, 40, 50, 60, 70].map fun t => ⟨t, 3⟩
    let x := offered.foldl offer (empty 2)
    x.root = 2 ∧ x.leaves = [0, 1, 3] ∧ x.descend x.root [2] = some 3 := by
  decide +kernel

end ReplicaRing.Index

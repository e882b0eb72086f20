import Mathlib.Tactic
import ReplicaRing.Index

/-!
# The tree behind an index

The pages of an index form a tree all of whose leaves are equally deep. A `Shape h` is
such a tree of page numbers with `h` levels above its leaves; an index *fits* a shape if
its pages hold the children the shape says, separated by the least times below them
(`Shape.Fits`), and every page but the root is at least half full (`Shape.Filled`).

`Index.Holds x es`: the index `x` is a tree with the entries `es` in its leaves, which are
linked in order. It says everything there is to say of an index grown by insertions.

The times of the entries ascend and their ends do not go back (`Index.Ascending`).
-/

namespace ReplicaRing.Index

/-! ## Entries in order -/

/-- Times strictly increase, and ends do not go back. -/
def Ascending (es : List Entry) : Prop := es.Pairwise fun a b => a.time < b.time ∧ a.stop ≤ b.stop

/-- A list in order is cut in two by what is true up to some place. -/
theorem eq_filter_append_of_pairwise {α : Type} {R : α → α → Prop} {l : List α}
    (hl : l.Pairwise R) {p : α → Bool} (hp : ∀ a b, R a b → p b = true → p a = true) :
    l = l.filter p ++ l.filter fun a => !p a := by
  induction l with
  | nil => rfl
  | cons a l ih =>
    obtain ⟨ha, hl⟩ := List.pairwise_cons.1 hl
    by_cases hpa : p a = true
    · rw [List.filter_cons_of_pos hpa, List.filter_cons_of_neg (by simp [hpa]), List.cons_append,
        ← ih hl]
    · have hall : ∀ b ∈ a :: l, ¬p b = true := by
        intro b hb
        rcases List.mem_cons.1 hb with rfl | hb
        · exact hpa
        · exact fun hpb => hpa (hp a b (ha b hb) hpb)
      rw [List.filter_eq_nil_iff.2 hall, List.filter_eq_self.2 fun b hb => by simpa using hall b hb,
        List.nil_append]

/-- An entry may follow a list of entries if it may follow the last of them. -/
theorem Ascending.concat {es : List Entry} {e : Entry} (h : Ascending es)
    (he : refusal? es.getLast? e = none) : Ascending (es ++ [e]) := by
  refine List.pairwise_append.2 ⟨h, List.pairwise_singleton _ _, fun a ha b hb => ?_⟩
  rw [List.mem_singleton.1 hb]
  obtain ⟨init, l, rfl⟩ : ∃ init l, es = init ++ [l] :=
    ⟨es.dropLast, es.getLast (List.ne_nil_of_mem ha), (List.dropLast_concat_getLast _).symm⟩
  rw [List.getLast?_concat] at he
  simp only [refusal?] at he
  split at he
  · cases he
  rename_i ht
  split at he
  · cases he
  rename_i hs
  have ht : l.time < e.time := UInt64.not_le.1 ht
  have hs : l.stop ≤ e.stop := UInt64.not_lt.1 hs
  rcases List.mem_append.1 ha with ha | ha
  · obtain ⟨h₁, h₂⟩ := (List.pairwise_append.1 h).2.2 a ha l List.mem_cons_self
    exact ⟨UInt64.lt_trans h₁ ht, UInt64.le_trans h₂ hs⟩
  · rw [List.mem_singleton.1 ha]
    exact ⟨ht, hs⟩

/-! ## Shapes -/

/-- A tree of page numbers. -/
inductive Shape
  | node (page : Nat) (kids : List Shape)

namespace Shape

/-- The page at the top. -/
def page : Shape → Nat
  | node i _ => i

/-- The trees right below the top. -/
def kids : Shape → List Shape
  | node _ ks => ks

/-- The leaves from left to right, `h` levels below the top. -/
def leaves : (h : Nat) → Shape → List Nat
  | 0, s => [s.page]
  | h + 1, s => s.kids.flatMap (leaves h)

/-- All pages, each before those below it. -/
def pages : (h : Nat) → Shape → List Nat
  | 0, s => [s.page]
  | h + 1, s => s.page :: s.kids.flatMap (pages h)

/-- The pages on the right edge, from the last leaf up. -/
def edge : (h : Nat) → Shape → List Nat
  | 0, s => [s.page]
  | h + 1, s => (s.kids.getLast?.map (edge h)).getD [] ++ [s.page]

theorem leaves_sublist_pages (h : Nat) (s : Shape) : (s.leaves h).Sublist (s.pages h) := by
  induction h generalizing s with
  | zero => exact List.Sublist.refl _
  | succ h ih => exact .cons _ (List.Sublist.flatMap_right s.kids fun k _ => ih k)

theorem leaves_subset_pages (h : Nat) (s : Shape) : s.leaves h ⊆ s.pages h :=
  (leaves_sublist_pages h s).subset

theorem pages_subset_of_mem {h : Nat} {s k : Shape} (hk : k ∈ s.kids) :
    k.pages h ⊆ s.pages (h + 1) :=
  fun _ hi => List.mem_cons_of_mem _ (List.mem_flatMap.2 ⟨k, hk, hi⟩)

variable (x : Index)

/-- The entries in the leaves. -/
def entries (h : Nat) (s : Shape) : List Entry := (s.leaves h).flatMap x.entriesAt

/-- The least time in the leaves. -/
def least (h : Nat) (s : Shape) : Time := ((s.entries x h).head?.map (·.time)).getD 0

/-- The number of entries or keys of the page at the top. -/
def count : (h : Nat) → Shape → Nat
  | 0, s => (x.entriesAt s.page).length
  | _ + 1, s => s.kids.length - 1

/-- The pages of the index hold what the shape says. -/
def Fits : (h : Nat) → Shape → Prop
  | 0, s => ∃ es prev next, x.pages[s.page]? = some (.leaf es prev next)
  | h + 1, s => s.kids ≠ [] ∧
    x.pages[s.page]? = some (.branch (s.kids.tail.map (least x h)) (s.kids.map page)) ∧
    ∀ k ∈ s.kids, Fits h k

/-- All pages below the top hold between `d` and `2 * d` entries or keys. -/
def Filled (d : Nat) : (h : Nat) → Shape → Prop
  | 0, _ => True
  | h + 1, s => ∀ k ∈ s.kids, d ≤ k.count x h ∧ k.count x h ≤ 2 * d ∧ Filled d h k

theorem entries_succ (h : Nat) (s : Shape) :
    s.entries x (h + 1) = s.kids.flatMap fun k => k.entries x h := by
  simp only [entries, leaves, List.flatMap_assoc]

variable {x}

/-- Below a page that is at least half full there is an entry in every leaf. -/
theorem entriesAt_ne_nil {d h : Nat} {s : Shape} (hd : 0 < d) (hc : d ≤ s.count x h)
    (hf : s.Filled x d h) : ∀ i ∈ s.leaves h, x.entriesAt i ≠ [] := by
  induction h generalizing s with
  | zero =>
    intro i hi
    rw [List.mem_singleton.1 hi]
    exact List.ne_nil_of_length_pos (Nat.lt_of_lt_of_le hd hc)
  | succ h ih =>
    intro i hi
    obtain ⟨k, hk, hi⟩ := List.mem_flatMap.1 hi
    obtain ⟨hc, -, hf⟩ := hf k hk
    exact ih hc hf i hi

theorem leaves_ne_nil {h : Nat} {s : Shape} (hs : s.Fits x h) : s.leaves h ≠ [] := by
  induction h generalizing s with
  | zero => exact List.cons_ne_nil _ _
  | succ h ih =>
    obtain ⟨hne, -, hk⟩ := hs
    obtain ⟨k, ks, hks⟩ := List.exists_cons_of_ne_nil hne
    rw [leaves, hks, List.flatMap_cons]
    intro h
    exact ih (hk k (hks ▸ List.mem_cons_self)) (List.append_eq_nil_iff.1 h).1

theorem entries_ne_nil {d h : Nat} {s : Shape} (hd : 0 < d) (hs : s.Fits x h)
    (hc : d ≤ s.count x h) (hf : s.Filled x d h) : s.entries x h ≠ [] := by
  obtain ⟨i, is, hi⟩ := List.exists_cons_of_ne_nil (leaves_ne_nil hs)
  rw [entries, hi, List.flatMap_cons]
  intro h
  exact entriesAt_ne_nil hd hc hf i (hi ▸ List.mem_cons_self) (List.append_eq_nil_iff.1 h).1

/-- The first entry of a tree has the least time. -/
theorem exists_head {h : Nat} {s : Shape} (hne : s.entries x h ≠ []) :
    ∃ e rest, s.entries x h = e :: rest ∧ e.time = s.least x h := by
  obtain ⟨e, rest, he⟩ := List.exists_cons_of_ne_nil hne
  exact ⟨e, rest, he, by simp [least, he]⟩

end Shape

/-! ## Frames -/

variable {x y : Index} {h : Nat} {s : Shape}

/-- The pages `ps` are the same in both indexes. -/
def Agree (x y : Index) (ps : List Nat) : Prop := ∀ i ∈ ps, y.pages[i]? = x.pages[i]?

theorem Agree.mono {ps qs : List Nat} (ha : Agree x y ps) (h : qs ⊆ ps) : Agree x y qs :=
  fun i hi => ha i (h hi)

theorem entriesAt_congr {i : Nat} (h : y.pages[i]? = x.pages[i]?) :
    y.entriesAt i = x.entriesAt i := by
  rw [entriesAt, entriesAt, h]

theorem Agree.leaves (ha : Agree x y (s.pages h)) : Agree x y (s.leaves h) :=
  ha.mono (s.leaves_subset_pages h)

theorem Agree.entries (ha : Agree x y (s.leaves h)) : s.entries y h = s.entries x h :=
  List.flatMap_congr fun i hi => entriesAt_congr (ha i hi)

theorem Agree.least (ha : Agree x y (s.leaves h)) : s.least y h = s.least x h := by
  rw [Shape.least, Shape.least, ha.entries]

theorem Agree.count (ha : Agree x y (s.pages h)) : s.count y h = s.count x h := by
  cases h with
  | zero => rw [Shape.count, Shape.count, entriesAt_congr (ha s.page List.mem_cons_self)]
  | succ h => rfl

theorem Agree.fits (ha : Agree x y (s.pages h)) (hs : s.Fits x h) : s.Fits y h := by
  induction h generalizing s with
  | zero =>
    rw [Shape.Fits, ha s.page List.mem_cons_self]
    exact hs
  | succ h ih =>
    obtain ⟨hne, hp, hk⟩ := hs
    have hkid : ∀ k ∈ s.kids, Agree x y (k.pages h) := fun k hk =>
      ha.mono (Shape.pages_subset_of_mem hk)
    refine ⟨hne, ?_, fun k hk' => ih (hkid k hk') (hk k hk')⟩
    rw [ha s.page List.mem_cons_self, hp]
    congr 2
    exact List.map_congr_left fun k hk => (hkid k (List.mem_of_mem_tail hk)).leaves.least.symm

theorem Agree.filled {d : Nat} (ha : Agree x y (s.pages h)) (hf : s.Filled x d h) :
    s.Filled y d h := by
  induction h generalizing s with
  | zero => trivial
  | succ h ih =>
    intro k hk
    have hkid : Agree x y (k.pages h) := ha.mono (Shape.pages_subset_of_mem hk)
    obtain ⟨h₁, h₂, h₃⟩ := hf k hk
    rw [hkid.count]
    exact ⟨h₁, h₂, ih hkid h₃⟩

section Kids

variable {i : Nat} {ks : List Shape} (ha : ∀ k ∈ ks, Agree x y (k.pages h))

include ha

theorem Agree.flatMap_entries :
    (ks.flatMap fun k => k.entries y h) = ks.flatMap fun k => k.entries x h :=
  List.flatMap_congr fun k hk => (ha k hk).leaves.entries

/-- A page above trees that have not changed fits if it holds their least times and their tops. -/
theorem Agree.fits_node (hne : ks ≠ []) (hk : ∀ k ∈ ks, k.Fits x h)
    (hp : y.pages[i]? = some (.branch (ks.tail.map (Shape.least x h)) (ks.map Shape.page))) :
    (Shape.node i ks).Fits y (h + 1) := by
  refine ⟨hne, ?_, fun k hk' => (ha k hk').fits (hk k hk')⟩
  rw [Shape.page, hp, Shape.kids, List.map_congr_left fun k hk =>
    (ha k (List.mem_of_mem_tail hk)).leaves.least]

theorem Agree.filled_node {d : Nat} (hf : (Shape.node i ks).Filled x d (h + 1)) :
    (Shape.node i ks).Filled y d (h + 1) := by
  intro k hk
  obtain ⟨h₁, h₂, h₃⟩ := hf k hk
  rw [(ha k hk).count]
  exact ⟨h₁, h₂, (ha k hk).filled h₃⟩

end Kids

/-! ## Indexes as trees -/

/-- The leaves `ls` are linked in order, the first of them to `prev`. -/
def Linked (x : Index) : Option Nat → List Nat → Prop
  | _, [] => True
  | prev, l :: ls => (∃ es, x.pages[l]? = some (.leaf es prev ls.head?)) ∧ Linked x (some l) ls

/-- The index is a tree of the shape `s`, with `h` levels above the leaves, which hold the
    entries `es`. -/
structure HoldsIn (x : Index) (h : Nat) (s : Shape) (es : List Entry) : Prop where
  two_le_fanout : 2 ≤ x.fanout
  fits : s.Fits x h
  filled : s.Filled x x.fanout h
  count_le : s.count x h ≤ 2 * x.fanout
  /-- A root that is no leaf has a key. -/
  one_le_count : h ≠ 0 → 1 ≤ s.count x h
  root : s.page = x.root
  nodup : (s.pages h).Nodup
  /-- All pages belong to the tree. -/
  mem_pages : ∀ i, i ∈ s.pages h ↔ i < x.pages.size
  first : (s.leaves h).head? = some x.firstLeaf
  last : (s.leaves h).getLast? = some x.lastLeaf
  linked : Linked x none (s.leaves h)
  entries : s.entries x h = es
  size : x.size = es.length

/-- The index is a tree with the entries `es`, in order. -/
def Holds (x : Index) (es : List Entry) : Prop := Ascending es ∧ ∃ h s, x.HoldsIn h s es

theorem holds_empty (fanout : Nat) : (empty fanout).Holds [] := by
  refine ⟨.nil, 0, .node 0 [], ?_⟩
  constructor
  case two_le_fanout => exact Nat.le_max_right fanout 2
  case fits => exact ⟨[], none, none, rfl⟩
  case filled => trivial
  case count_le => exact Nat.zero_le _
  case one_le_count => exact fun h => absurd rfl h
  case root => rfl
  case nodup => exact List.nodup_singleton _
  case mem_pages => simp [Shape.pages, Shape.page, empty]
  case first => rfl
  case last => rfl
  case linked => exact ⟨⟨[], rfl⟩, trivial⟩
  case entries => rfl
  case size => rfl

end ReplicaRing.Index

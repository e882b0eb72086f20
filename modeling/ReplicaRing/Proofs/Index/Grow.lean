import Mathlib.Data.List.TakeWhile
import ReplicaRing.Proofs.Index.Split

/-!
# Splitting up the right edge

Below the page at its top, the last tree has been regrown into one or two trees, which are
put in its place (`Index.Regrown.graft`); then the page itself may be split in two. By
induction on the height this tells what becomes of a tree whose right edge is split from
its last leaf up (`Index.splitUp_edge`).
-/

namespace ReplicaRing.Index

variable {w x y z : Index} {h d : Nat} {s k : Shape}

/-! ## Putting trees in the place of one -/

/-- The keys of a page when the last tree below it, `k`, has become `k'` and `ks`. -/
theorem separators_graft {init : List Shape} {k' : Shape} (ks : List Shape)
    (hk : k'.least z h = k.least y h)
    (hi : ∀ j ∈ init, j.least z h = j.least y h) :
    (init ++ k' :: ks).tail.map (Shape.least z h) =
      (init ++ [k]).tail.map (Shape.least y h) ++ ks.map (Shape.least z h) := by
  cases init with
  | nil => simp
  | cons j init =>
    have : init.map (Shape.least z h) = init.map (Shape.least y h) :=
      List.map_congr_left fun j hj => hi j (List.mem_cons_of_mem _ hj)
    simp [this, hk]

/-- The trees beside the last one have not changed. -/
theorem Regrown.agree_init {i : Nat} {init ss : List Shape} {more : List Nat}
    (hr : Regrown d y z h k ss more) (hs : (Shape.node i (init ++ [k])).Fits y (h + 1))
    (hn : ((Shape.node i (init ++ [k])).pages (h + 1)).Nodup) :
    ∀ j ∈ init, Agree y z (j.pages h) := by
  intro j hj p hp
  have hlt := Shape.lt_size_of_mem_pages hs
  simp only [Shape.pages, Shape.kids, List.flatMap_append, List.flatMap_singleton,
    List.nodup_cons, List.nodup_append] at hn
  have hpj : p ∈ init.flatMap (Shape.pages h) := List.mem_flatMap.2 ⟨j, hj, hp⟩
  refine hr.agree p (hlt p ?_) fun hpk => hn.2.2.2 p hpj p hpk rfl
  exact List.mem_cons_of_mem _ (List.mem_flatMap.2 ⟨j, List.mem_append_left _ hj, hp⟩)

/-- A page whose last tree has been regrown, once the page itself has been changed to
    match. -/
theorem Regrown.graft {i : Nat} {init ss : List Shape} {more : List Nat}
    (hr : Regrown d y z h k ss more) (hs : (Shape.node i (init ++ [k])).Fits y (h + 1))
    (hf : ∀ j ∈ init, d ≤ j.count y h ∧ j.count y h ≤ 2 * d ∧ j.Filled y d h)
    (hn : ((Shape.node i (init ++ [k])).pages (h + 1)).Nodup)
    (hc : ∀ j ∈ ss, d ≤ j.count z h ∧ j.count z h ≤ 2 * d)
    (hw : ∀ j ≠ i, w.pages[j]? = z.pages[j]?)
    (hwi : w.pages[i]? = some (.branch ((init ++ ss).tail.map (Shape.least z h))
      ((init ++ ss).map Shape.page)))
    (hsize : w.pages.size = z.pages.size) :
    Regrown d y w (h + 1) (.node i (init ++ [k])) [.node i (init ++ ss)] more := by
  have hyz := hr.agree_init hs hn
  have hlt := Shape.lt_size_of_mem_pages hs
  have hi : i < y.pages.size := hlt i List.mem_cons_self
  obtain ⟨-, -, hfits⟩ := hs
  simp only [Shape.pages, Shape.kids, List.flatMap_append, List.flatMap_singleton,
    List.nodup_cons, List.nodup_append, List.mem_append, not_or] at hn
  obtain ⟨⟨hni, hnk⟩, hn₁, hn₂, hdis⟩ := hn
  -- The new pages have numbers that no page of `y` had, so the page itself is none of them.
  have hnss : i ∉ ss.flatMap (Shape.pages h) := by
    rw [hr.mem_pages]
    rintro (hik | ⟨hge, -⟩)
    · exact hnk hik
    · omega
  have hzw : ∀ j ∈ init ++ ss, Agree z w (j.pages h) := by
    intro j hj p hp
    refine hw p ?_
    rintro rfl
    rcases List.mem_append.1 hj with hj | hj
    · exact hni (List.mem_flatMap.2 ⟨j, hj, hp⟩)
    · exact hnss (List.mem_flatMap.2 ⟨j, hj, hp⟩)
  constructor
  case fits =>
    rw [List.forall_mem_singleton]
    refine Agree.fits_node hzw ?_ (fun j hj => ?_) hwi
    · have hpage := hr.page
      rintro hnil
      rw [(List.append_eq_nil_iff.1 hnil).2] at hpage
      cases hpage
    · rcases List.mem_append.1 hj with hj | hj
      · exact (hyz j hj).fits (hfits j (List.mem_append_left _ hj))
      · exact hr.fits j hj
  case filled =>
    rw [List.forall_mem_singleton]
    refine Agree.filled_node hzw fun j hj => ?_
    rcases List.mem_append.1 hj with hj | hj
    · exact Agree.filled_node (i := i) hyz hf j hj
    · exact ⟨(hc j hj).1, (hc j hj).2, hr.filled j hj⟩
  case page => rfl
  case entries =>
    rw [List.flatMap_singleton, Shape.entries_succ, Shape.entries_succ, Shape.kids, Shape.kids,
      Agree.flatMap_entries hzw, List.flatMap_append, List.flatMap_append,
      Agree.flatMap_entries hyz, hr.entries, List.flatMap_singleton]
  case leaves =>
    simp only [List.flatMap_singleton, Shape.leaves, Shape.kids, List.flatMap_append, hr.leaves,
      List.append_assoc]
  case nodup =>
    simp only [List.flatMap_singleton, Shape.pages, Shape.page, Shape.kids, List.flatMap_append,
      List.nodup_cons, List.nodup_append, List.mem_append, not_or]
    refine ⟨⟨hni, hnss⟩, hn₁, hr.nodup, fun p hp q hq => ?_⟩
    rintro rfl
    rcases (hr.mem_pages p).1 hq with hq | ⟨hge, -⟩
    · exact hdis p hp p hq rfl
    · have := hlt p (List.mem_cons_of_mem _ (by
        simp only [Shape.kids, List.flatMap_append]
        exact List.mem_append_left _ hp))
      omega
  case mem_pages =>
    intro p
    have := hr.mem_pages p
    simp only [List.flatMap_singleton, Shape.pages, Shape.page, Shape.kids, List.flatMap_append,
      List.mem_cons, List.mem_append, this, hsize]
    tauto
  case size_le => rw [hsize]; exact hr.size_le
  case agree =>
    intro p hp hnp
    simp only [Shape.pages, Shape.page, Shape.kids, List.flatMap_append, List.flatMap_singleton,
      List.mem_cons, List.mem_append, not_or] at hnp
    rw [hw p hnp.1, hr.agree p hp hnp.2.2]

/-! ## Splitting up the edge -/

/-- The halves of page `i` put below `above`, the pages above it from the nearest up: they
    get a new root if there is none. -/
def bubble (x : Index) (i : Nat) (key : Time) (right : Nat) : List Nat → Index
  | [] => { x with pages := x.pages.push (.branch [key] [i, right]), root := x.pages.size }
  | parent :: above => (x.addChild parent key right).splitUp parent above

theorem splitUp_of_none {i : Nat} (h : x.splitPage i = (x, none)) (above : List Nat) :
    x.splitUp i above = x := by
  cases above <;> simp [splitUp, h]

theorem splitUp_of_some {i right : Nat} {key : Time}
    (h : x.splitPage i = (y, some (key, right))) (above : List Nat) :
    x.splitUp i above = y.bubble i key right above := by
  cases above <;> simp [splitUp, h, bubble]

/-- A key that is not below any other of its branch comes last. -/
theorem addChild_eq {i : Nat} {keys : List Time} {cs : List Nat}
    (hp : x.pages[i]? = some (.branch keys cs)) (hlen : cs.length = keys.length + 1) {key : Time}
    (hkey : ∀ t ∈ keys, t ≤ key) (child : Nat) :
    x.addChild i key child =
      { x with pages := x.pages.setIfInBounds i (.branch (keys ++ [key]) (cs ++ [child])) } := by
  have hslot : keys.takeWhile (· ≤ key) = keys :=
    List.takeWhile_eq_self_iff.2 fun t ht => decide_eq_true (hkey t ht)
  simp only [addChild, hp, hslot, ← hlen, List.insertIdx_length_self]

theorem sameLeaves_addChild {i : Nat} {keys : List Time} {cs : List Nat}
    (hp : x.pages[i]? = some (.branch keys cs)) (key : Time) (child : Nat) :
    SameLeaves x (x.addChild i key child) := by
  simp only [addChild, hp]
  refine ⟨fun {j _ _ _} hj => ?_, rfl, rfl, rfl, rfl, rfl⟩
  have : i ≠ j := by
    rintro rfl
    rw [hp] at hj
    cases hj
  simp [this, hj]

theorem sameLeaves_halveBranch {i : Nat} {keys : List Time} {cs : List Nat}
    (hp : x.pages[i]? = some (.branch keys cs)) : SameLeaves x (x.halveBranch i keys cs) := by
  refine ⟨fun {j _ _ _} hj => ?_, rfl, rfl, rfl, rfl, rfl⟩
  have hji : j ≠ i := by
    rintro rfl
    rw [hp] at hj
    cases hj
  have hlt := lt_size_of_getElem? hj
  rw [halveBranch, getElem?_set_push (lt_size_of_getElem? hp), if_neg (Nat.ne_of_lt hlt),
    if_neg hji, hj]

/-- The pages below the top hold between `d` and `2 * d` entries or keys, but those on the
    right edge, the top among them, may hold one more. -/
def Shape.Pressed (x : Index) (d : Nat) : (h : Nat) → Shape → Prop
  | 0, s => s.count x 0 ≤ 2 * d + 1
  | h + 1, s => s.kids.length ≤ 2 * d + 1 ∧ ∃ init k, s.kids = init ++ [k] ∧
    (∀ j ∈ init, d ≤ j.count x h ∧ j.count x h ≤ 2 * d ∧ j.Filled x d h) ∧
    d ≤ k.count x h ∧ Pressed x d h k

/-- `w` is `y` with leaf `i` split, and `more` the new leaf, or it is `y`. -/
inductive LeafSplit (y : Index) (i : Nat) : Index → List Nat → Prop
  | whole : LeafSplit y i y []
  | halved {es : List Entry} {prev : Option Nat}
      (hp : y.pages[i]? = some (.leaf es prev none)) :
      LeafSplit y i (y.halveLeaf i es prev) [y.pages.size]

/-- What has become of the tree `s` of `y` in `z`, and what `v` is then: `z` itself if the
    top was not split, and else `z` with the halves put below `rest`. -/
inductive Outcome (d : Nat) (y z : Index) (h : Nat) (s : Shape) (rest : List Nat) :
    List Shape → Index → Prop
  | whole {s' : Shape} (hge : s.count y h ≤ s'.count z h) (hle : s'.count z h ≤ 2 * d) :
      Outcome d y z h s rest [s'] z
  | halved {s₁ s₂ : Shape} (h₁ : d ≤ s₁.count z h ∧ s₁.count z h ≤ 2 * d)
      (h₂ : d ≤ s₂.count z h ∧ s₂.count z h ≤ 2 * d) :
      Outcome d y z h s rest [s₁, s₂] (z.bubble s.page (s₂.least z h) s₂.page rest)

/-- The last leaf is split if it is overfull. -/
theorem splitUp_leaf {es : List Entry} {prev : Option Nat} (hd : 0 < d) (hfan : y.fanout = d)
    (hp : y.pages[y.lastLeaf]? = some (.leaf es prev none)) (hlen : es.length ≤ 2 * d + 1)
    (ks : List Shape) (rest : List Nat) :
    ∃ w more ss, LeafSplit y y.lastLeaf w more ∧
      Regrown d y w 0 (.node y.lastLeaf ks) ss more ∧
      Outcome d y w 0 (.node y.lastLeaf ks) rest ss (y.splitUp y.lastLeaf rest) := by
  subst hfan
  have hcount : (Shape.node y.lastLeaf ks).count y 0 = es.length := by
    rw [Shape.count, Shape.page, entriesAt, hp]
  by_cases hle : es.length ≤ 2 * y.fanout
  · rw [splitUp_of_none (splitPage_leaf hp hle)]
    have hr := Regrown.refl (s := .node y.lastLeaf ks) (h := 0) (d := y.fanout)
      ⟨es, prev, none, hp⟩ trivial (List.nodup_singleton _)
    exact ⟨y, [], _, .whole, hr, .whole (Nat.le_refl _) (hcount.trans_le hle)⟩
  · rw [splitUp_of_some (splitPage_leaf_overfull hp rfl (Nat.not_le.1 hle))]
    obtain ⟨h₁, h₂⟩ := entriesAt_halveLeaf hp
    refine ⟨_, _, _, .halved hp, regrown_halveLeaf hp ks, ?_⟩
    have hleast : (((es.drop y.fanout).head?.map (·.time)).getD 0) =
        (Shape.node y.pages.size []).least (y.halveLeaf y.lastLeaf es prev) 0 := by
      simp [Shape.least, Shape.entries, Shape.leaves, Shape.page, h₂]
    rw [hleast]
    refine .halved ?_ ?_
    · rw [Shape.count, Shape.page, h₁, List.length_take]
      omega
    · rw [Shape.count, Shape.page, h₂, List.length_drop]
      omega

/-- A branch that has got one more child is split if it is overfull. -/
theorem splitUp_branch {i : Nat} {ks : List Shape} {more : List Nat} (hd : 0 < d)
    (hfan : z.fanout = d) (hr : Regrown d y z (h + 1) s [.node i ks] more)
    (hc : s.count y (h + 1) ≤ ks.length - 1) (hlen : ks.length ≤ 2 * d + 2) (rest : List Nat) :
    ∃ z' ss, Regrown d y z' (h + 1) s ss more ∧ SameLeaves z z' ∧
      Outcome d y z' (h + 1) s rest ss (z.splitUp i rest) := by
  subst hfan
  have hs := hr.fits _ (List.mem_singleton_self _)
  have hf := hr.filled _ (List.mem_singleton_self _)
  have hn := hr.nodup
  have hpage : i = s.page := by simpa [Shape.page] using hr.page
  rw [List.flatMap_singleton] at hn
  have hp := hs.2.1
  rw [Shape.page, Shape.kids] at hp
  by_cases hle : ks.length ≤ 2 * z.fanout + 1
  · rw [splitUp_of_none (splitPage_branch hp (by rw [List.length_map, List.length_tail]; omega))]
    exact ⟨z, _, hr, ⟨fun h => h, rfl, rfl, rfl, rfl, rfl⟩, .whole hc (by
      rw [Shape.count, Shape.kids]
      omega)⟩
  · obtain ⟨k₀, ks', hk₀⟩ : ∃ k₀ ks', ks.drop (z.fanout + 1) = k₀ :: ks' :=
      List.exists_cons_of_ne_nil fun h => by
        have := List.drop_eq_nil_iff.1 h
        omega
    have hk₀m : k₀ ∈ ks := List.mem_of_mem_drop (hk₀ ▸ List.mem_cons_self)
    have hhead : ((ks.tail.map (Shape.least z h)).drop z.fanout).head? = some (k₀.least z h) := by
      rw [← List.map_drop, ← List.drop_one, List.drop_drop, Nat.add_comm 1, hk₀]
      rfl
    rw [splitUp_of_some (splitPage_branch_overfull hp
      (by rw [List.length_map, List.length_tail]; omega) hhead)]
    have hr' := regrown_halveBranch hs hf hn (by omega)
    -- The key that separates the halves is the least time below the right one.
    have hkey : (Shape.node z.pages.size (ks.drop (z.fanout + 1))).least
        (z.halveBranch i (ks.tail.map (Shape.least z h)) (ks.map Shape.page)) (h + 1) =
        k₀.least z h := by
      obtain ⟨hc₁, -, hc₃⟩ := hf k₀ hk₀m
      have hag := (agree_halveBranch hs hn (ks.tail.map (Shape.least z h)) (ks.map Shape.page)
        k₀ hk₀m).leaves
      rw [hk₀, Shape.least_node, hag.least]
      rw [hag.entries]
      exact Shape.entries_ne_nil hd (hs.2.2 k₀ hk₀m) hc₁ hc₃
    rw [← hkey, hpage]
    refine ⟨_, _, by simpa using hr.trans hr', sameLeaves_halveBranch hp, ?_⟩
    subst hpage
    refine .halved ?_ ?_
    · rw [Shape.count, Shape.kids, List.length_take]
      omega
    · rw [Shape.count, Shape.kids, List.length_drop]
      omega

/-- No key of a page is above the one that is to follow them when the last tree below the page,
    `k`, has become two. -/
theorem separators_le {i : Nat} {init : List Shape} {k₁ k₂ : Shape}
    (hasc : Ascending ((Shape.node i (init ++ [k])).entries y (h + 1)))
    (hinit : ∀ j ∈ init, j.entries y h ≠ []) (hk : k₁.entries z h ++ k₂.entries z h = k.entries y h)
    (hne₂ : k₂.entries z h ≠ []) :
    ∀ t ∈ (init ++ [k]).tail.map (Shape.least y h), t ≤ k₂.least z h := by
  rw [Shape.entries_succ, Shape.kids, List.flatMap_append, List.flatMap_singleton] at hasc
  obtain ⟨-, hasck, hacross⟩ := List.pairwise_append.1 hasc
  obtain ⟨e₂, rest₂, he₂, hleast₂⟩ := Shape.exists_head hne₂
  have hmem₂ : e₂ ∈ k.entries y h := by
    rw [← hk, he₂]
    exact List.mem_append_right _ List.mem_cons_self
  intro t ht
  obtain ⟨j, hj, rfl⟩ := List.mem_map.1 ht
  rw [← hleast₂]
  rcases List.mem_append.1 (List.mem_of_mem_tail hj) with hj | hj
  · obtain ⟨e, rest, he, hleast⟩ := Shape.exists_head (hinit j hj)
    have hlt := hacross e (List.mem_flatMap.2 ⟨j, hj, he ▸ List.mem_cons_self⟩) e₂ hmem₂
    rw [← hleast]
    exact UInt64.le_of_lt hlt.1
  · rw [List.mem_singleton.1 hj]
    obtain ⟨e, rest, he, hleast⟩ := Shape.exists_head (List.ne_nil_of_mem hmem₂)
    rw [he] at hmem₂ hasck
    rw [← hleast]
    rcases List.mem_cons.1 hmem₂ with rfl | hmem₂
    · exact UInt64.le_refl _
    · exact UInt64.le_of_lt (List.rel_of_pairwise_cons hasck hmem₂).1

section Above

variable {i : Nat} {init ss : List Shape} {more rest : List Nat} {v : Index} (hd : 0 < d)
  (hs : (Shape.node i (init ++ [k])).Fits y (h + 1))
  (hinit : ∀ j ∈ init, d ≤ j.count y h ∧ j.count y h ≤ 2 * d ∧ j.Filled y d h)
  (hn : ((Shape.node i (init ++ [k])).pages (h + 1)).Nodup)

include hs hn

/-- The page above a tree that has been regrown has not changed yet. -/
theorem Regrown.page_above (hr : Regrown d y z h k ss more) :
    z.pages[i]? = some (.branch ((init ++ [k]).tail.map (Shape.least y h))
      ((init ++ [k]).map Shape.page)) := by
  have hpi : y.pages[i]? = some (.branch ((init ++ [k]).tail.map (Shape.least y h))
      ((init ++ [k]).map Shape.page)) := hs.2.1
  rw [hr.agree i (lt_size_of_getElem? hpi) fun hik => (List.nodup_cons.1 hn).1
    (List.mem_flatMap.2 ⟨k, List.mem_append_right _ (List.mem_singleton_self k), hik⟩), hpi]

theorem Regrown.least_init (hr : Regrown d y z h k ss more) :
    ∀ j ∈ init, j.least z h = j.least y h :=
  fun j hj => (hr.agree_init hs hn j hj).leaves.least

include hinit

/-- If the last tree below a page has stayed one, nothing changes above it. -/
theorem Regrown.keepChild {k' : Shape} (hr : Regrown d y z h k [k'] more)
    (hc : d ≤ k'.count z h ∧ k'.count z h ≤ 2 * d) :
    Regrown d y z (h + 1) (.node i (init ++ [k])) [.node i (init ++ [k'])] more := by
  have hkeys := separators_graft [] (hr.least (.inl rfl)) (hr.least_init hs hn)
  have hpage : k'.page = k.page := by simpa using hr.page
  refine hr.graft hs hinit hn (List.forall_mem_singleton.2 hc) (fun _ _ => rfl) ?_ rfl
  rw [hr.page_above hs hn, hkeys]
  simp [hpage]

include hd

/-- If it has become two, the page gets the second of them as another child. -/
theorem Regrown.addChild {k₁ k₂ : Shape} (hr : Regrown d y z h k [k₁, k₂] more)
    (hasc : Ascending ((Shape.node i (init ++ [k])).entries y (h + 1)))
    (h₁ : d ≤ k₁.count z h ∧ k₁.count z h ≤ 2 * d)
    (h₂ : d ≤ k₂.count z h ∧ k₂.count z h ≤ 2 * d) :
    Regrown d y (z.addChild i (k₂.least z h) k₂.page) (h + 1) (.node i (init ++ [k]))
      [.node i (init ++ [k₁, k₂])] more := by
  have hne : ∀ j ∈ [k₁, k₂], d ≤ j.count z h → j.entries z h ≠ [] := fun j hj hc =>
    Shape.entries_ne_nil hd (hr.fits j hj) hc (hr.filled j hj)
  have hne₁ := hne k₁ List.mem_cons_self h₁.1
  have hne₂ := hne k₂ (List.mem_pair.2 (.inr rfl)) h₂.1
  have hkeys := separators_graft [k₂] (hr.least (.inr hne₁)) (hr.least_init hs hn)
  have hpage : k₁.page = k.page := by simpa using hr.page
  have hpz := hr.page_above hs hn
  have hle := separators_le hasc
    (fun j hj => Shape.entries_ne_nil hd (hs.2.2 j (List.mem_append_left _ hj)) (hinit j hj).1
      (hinit j hj).2.2)
    (by simpa using hr.entries) hne₂
  have hadd := addChild_eq hpz (by simp) hle k₂.page
  refine hr.graft hs hinit hn (fun j hj => ?_) (fun j hj => ?_) ?_ (by simp [hadd])
  · rcases List.mem_pair.1 hj with rfl | rfl
    · exact h₁
    · exact h₂
  · simp [hadd, Ne.symm hj]
  · have hi := lt_size_of_getElem? hpz
    simp [hadd, hi, hkeys, hpage]

/-- What becomes of a tree by what has become of the last one below its top. -/
theorem Outcome.above (hfan : z.fanout = d) (hlen : init.length ≤ 2 * d)
    (hk : d ≤ k.count y h) (hasc : Ascending ((Shape.node i (init ++ [k])).entries y (h + 1)))
    (hr : Regrown d y z h k ss more) (hout : Outcome d y z h k (i :: rest) ss v) :
    ∃ z' ss', Regrown d y z' (h + 1) (.node i (init ++ [k])) ss' more ∧ SameLeaves z z' ∧
      Outcome d y z' (h + 1) (.node i (init ++ [k])) rest ss' v := by
  cases hout with
  | @whole k' hge hle =>
    refine ⟨z, _, hr.keepChild hs hinit hn ⟨hk.trans hge, hle⟩, .refl z, .whole ?_ ?_⟩
    · simp [Shape.count, Shape.kids]
    · rw [Shape.count, Shape.kids, List.length_append, List.length_singleton]
      exact hlen
  | @halved k₁ k₂ h₁ h₂ =>
    have hsame := sameLeaves_addChild (hr.page_above hs hn) (k₂.least z h) k₂.page
    -- With another child the page may have to be split itself.
    obtain ⟨z', ss', hr', hsame', hout'⟩ := splitUp_branch hd (hsame.fanout.trans hfan)
      (hr.addChild hd hs hinit hn hasc h₁ h₂) (by simp [Shape.count, Shape.kids])
      (by simp; omega) rest
    exact ⟨z', ss', hr', hsame.trans hsame', hout'⟩

end Above

/-- The tree `s`, whose last leaf is the last of all, after that leaf, and with it the whole right
    edge, has been split as far as necessary. -/
theorem splitUp_edge (hd : 0 < d) (hfan : y.fanout = d) (hs : s.Fits y h) (hp : s.Pressed y d h)
    (hn : (s.pages h).Nodup) (hasc : Ascending (s.entries y h))
    (hlast : (s.leaves h).getLast? = some y.lastLeaf)
    (hend : ∃ es prev, y.pages[y.lastLeaf]? = some (.leaf es prev none)) (rest : List Nat) :
    ∃ leaf above, s.edge h = leaf :: above ∧ ∃ w more, LeafSplit y leaf w more ∧
      ∃ z ss, Regrown d y z h s ss more ∧ SameLeaves w z ∧
        Outcome d y z h s rest ss (y.splitUp leaf (above ++ rest)) := by
  induction h generalizing s rest with
  | zero =>
    obtain ⟨i, ks⟩ := s
    obtain rfl : i = y.lastLeaf := Option.some.inj hlast
    obtain ⟨es, prev, hp'⟩ := hend
    rw [Shape.Pressed, Shape.count, Shape.page, entriesAt, hp'] at hp
    obtain ⟨w, more, ss, hsplit, hr, hout⟩ := splitUp_leaf hd hfan hp' hp ks rest
    exact ⟨y.lastLeaf, [], rfl, w, more, hsplit, w, ss, hr, .refl w, hout⟩
  | succ h ih =>
    obtain ⟨i, ks⟩ := s
    obtain ⟨hlen, init, k, rfl, hinit, hk, hkp⟩ := hp
    rw [Shape.kids, List.length_append, List.length_singleton] at hlen
    have hnk : (k.pages h).Nodup := by
      have hnks := (List.nodup_cons.1 hn).2
      rw [Shape.kids, List.flatMap_append, List.flatMap_singleton] at hnks
      exact (List.nodup_append.1 hnks).2.1
    have hfk := hs.2.2 k (List.mem_append_right _ (List.mem_singleton_self k))
    have hasck : Ascending (k.entries y h) := by
      rw [Shape.entries_succ, Shape.kids, List.flatMap_append, List.flatMap_singleton] at hasc
      exact (List.pairwise_append.1 hasc).2.1
    rw [Shape.leaves, Shape.kids, List.flatMap_append, List.flatMap_singleton,
      List.getLast?_append_of_ne_nil _ (Shape.leaves_ne_nil hfk)] at hlast
    -- The last tree below the page is split first, and may become two.
    obtain ⟨leaf, above, hedge, w, more, hsplit, z, ss, hr, hsame, hout⟩ :=
      ih hfk hkp hnk hasck hlast (i :: rest)
    have hfan' : z.fanout = d := by
      rw [hsame.fanout]
      cases hsplit <;> exact hfan
    obtain ⟨z', ss', hr', hsame', hout'⟩ :=
      hout.above hd hs hinit hn hfan' (Nat.le_of_succ_le_succ hlen) hk hasc hr
    refine ⟨leaf, above ++ [i], by simp [Shape.edge, Shape.kids, Shape.page, hedge], w, more,
      hsplit, z', ss', hr', hsame.trans hsame', ?_⟩
    rwa [List.append_assoc, List.singleton_append]

end ReplicaRing.Index

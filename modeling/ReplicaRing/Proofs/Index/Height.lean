import Mathlib.Analysis.SpecialFunctions.Log.Base
import ReplicaRing.Proofs.Index.WellFormed

/-!
# The height of an index

A page that is at least half full has many pages below it, and so has each of these. Counted level
by level, a tree of `h` levels above its leaves holds at least `d * (d + 1) ^ h` entries if its top
page is half full, too (`Index.Shape.le_length_entries`), and twice as many as each tree below it if
the top page is the root, which has two children at least (`Index.HoldsIn.le_size`).

Main statement: a search goes from the root down to a leaf, through one page of each level, and
the number of levels is logarithmic in the number of entries (`Index.height_logarithmic`).
-/

namespace ReplicaRing.Index

variable {x : Index} {h d n m fuel i c : Nat} {s : Shape} {es : List Entry} {t : Time}

/-! ## Counting entries -/

namespace Shape

theorem length_entries_succ (x : Index) (h : Nat) (s : Shape) :
    (s.entries x (h + 1)).length = (s.kids.map fun k => (k.entries x h).length).sum := by
  rw [entries_succ, List.length_flatMap]

theorem mul_le_length_entries (hn : n ≤ s.kids.length)
    (hm : ∀ k ∈ s.kids, m ≤ (k.entries x h).length) : n * m ≤ (s.entries x (h + 1)).length := by
  have hsum := List.card_nsmul_le_sum (s.kids.map fun k => (k.entries x h).length) m
    (by simpa using hm)
  rw [List.length_map, smul_eq_mul] at hsum
  rw [length_entries_succ]
  exact (Nat.mul_le_mul_right m hn).trans hsum

theorem length_entries_le_mul (hn : s.kids.length ≤ n)
    (hm : ∀ k ∈ s.kids, (k.entries x h).length ≤ m) : (s.entries x (h + 1)).length ≤ n * m := by
  have hsum := List.sum_le_card_nsmul (s.kids.map fun k => (k.entries x h).length) m
    (by simpa using hm)
  rw [List.length_map, smul_eq_mul] at hsum
  rw [length_entries_succ]
  exact hsum.trans (Nat.mul_le_mul_right m hn)

theorem length_entries_zero (x : Index) (s : Shape) : (s.entries x 0).length = s.count x 0 := by
  rw [entries, leaves, List.flatMap_singleton, count]

theorem length_kids (hs : s.Fits x (h + 1)) : s.kids.length = s.count x (h + 1) + 1 := by
  have hpos := List.length_pos_iff.2 hs.1
  rw [count]
  omega

/-- The fewest entries that there are below a page which is half full. -/
theorem le_length_entries (hs : s.Fits x h) (hf : s.Filled x d h) (hc : d ≤ s.count x h) :
    d * (d + 1) ^ h ≤ (s.entries x h).length := by
  induction h generalizing s with
  | zero => rwa [Nat.pow_zero, Nat.mul_one, length_entries_zero]
  | succ h ih =>
    have hkids : d + 1 ≤ s.kids.length := length_kids hs ▸ Nat.succ_le_succ hc
    calc d * (d + 1) ^ (h + 1) = (d + 1) * (d * (d + 1) ^ h) := by ring
      _ ≤ (s.entries x (h + 1)).length := mul_le_length_entries hkids fun k hk =>
        ih (hs.2.2 k hk) (hf k hk).2.2 (hf k hk).1

/-- The most entries that there are below a page which is not overfull. -/
theorem length_entries_le (hs : s.Fits x h) (hf : s.Filled x d h) (hc : s.count x h ≤ 2 * d) :
    (s.entries x h).length ≤ 2 * d * (2 * d + 1) ^ h := by
  induction h generalizing s with
  | zero => rwa [Nat.pow_zero, Nat.mul_one, length_entries_zero]
  | succ h ih =>
    have hkids : s.kids.length ≤ 2 * d + 1 := length_kids hs ▸ Nat.succ_le_succ hc
    calc (s.entries x (h + 1)).length ≤ (2 * d + 1) * (2 * d * (2 * d + 1) ^ h) :=
        length_entries_le_mul hkids fun k hk => ih (hs.2.2 k hk) (hf k hk).2.2 (hf k hk).2.1
      _ = 2 * d * (2 * d + 1) ^ (h + 1) := by ring

end Shape

/-! ## Ways up -/

/-- Page `c` is right below page `p`. -/
def IsBelow (x : Index) (c p : Nat) : Prop :=
  ∃ keys cs, x.pages[p]? = some (.branch keys cs) ∧ c ∈ cs

/-- The pages lead from page `bottom` up to page `top`, each to the one right above it. -/
structure IsWayUp (x : Index) (bottom top : Nat) (pages : List Nat) : Prop where
  head? : pages.head? = some bottom
  getLast? : pages.getLast? = some top
  isChain : pages.IsChain x.IsBelow

theorem isWayUp_singleton (x : Index) (i : Nat) : x.IsWayUp i i [i] :=
  ⟨rfl, rfl, .singleton i⟩

theorem IsWayUp.concat {bottom : Nat} {pages : List Nat} (hw : x.IsWayUp bottom c pages)
    (hc : x.IsBelow c i) : x.IsWayUp bottom i (pages ++ [i]) where
  head? := by rw [List.head?_append, hw.head?, Option.some_or]
  getLast? := List.getLast?_concat
  isChain := by
    refine List.isChain_append.2 ⟨hw.isChain, .singleton i, fun a ha b hb => ?_⟩
    rw [hw.getLast?, Option.mem_some_iff] at ha
    rw [List.head?_cons, Option.mem_some_iff] at hb
    exact ha ▸ hb ▸ hc

/-- A search ends at a page, or goes on at one right below it. -/
theorem search_succ (x : Index) (t : Time) (fuel i : Nat) :
    x.pathFrom t (fuel + 1) i = [i] ∧ x.leafFrom t (fuel + 1) i = i ∨
      ∃ c, x.IsBelow c i ∧ x.pathFrom t (fuel + 1) i = x.pathFrom t fuel c ++ [i] ∧
        x.leafFrom t (fuel + 1) i = x.leafFrom t fuel c := by
  rw [pathFrom, leafFrom]
  cases hp : x.pages[i]? with
  | none => exact .inl ⟨rfl, rfl⟩
  | some p =>
    cases p with
    | leaf => exact .inl ⟨rfl, rfl⟩
    | branch keys cs =>
      simp only
      cases hc : cs[(keys.takeWhile (· ≤ t)).length]? with
      | none => exact .inl ⟨rfl, rfl⟩
      | some c => exact .inr ⟨c, ⟨keys, cs, hp, List.mem_of_getElem? hc⟩, rfl, rfl⟩

/-- The pages that a search visits lead from the leaf it ends at up to where it began. -/
theorem isWayUp_pathFrom (x : Index) (t : Time) (fuel i : Nat) :
    x.IsWayUp (x.leafFrom t fuel i) i (x.pathFrom t fuel i) := by
  induction fuel generalizing i with
  | zero => exact isWayUp_singleton x i
  | succ fuel ih =>
    rcases search_succ x t fuel i with ⟨hpath, hleaf⟩ | ⟨c, hc, hpath, hleaf⟩
    · rw [hpath, hleaf]
      exact isWayUp_singleton x i
    · rw [hpath, hleaf]
      exact (ih c).concat hc

/-- A search visits one page of each level. -/
theorem Shape.length_pathFrom (hs : s.Fits x h) (hle : h ≤ fuel) (t : Time) :
    (x.pathFrom t fuel s.page).length = h + 1 := by
  induction h generalizing s fuel with
  | zero =>
    obtain ⟨es, prev, next, hp⟩ := hs
    cases fuel <;> simp [pathFrom, hp]
  | succ h ih =>
    obtain ⟨fuel, rfl⟩ := Nat.exists_eq_add_of_le' hle
    obtain ⟨hne, hp, hk⟩ := hs
    -- There is a separator less than children, so whichever slot the search takes has a child.
    set keys := s.kids.tail.map (Shape.least x h)
    have hslot : (keys.takeWhile (· ≤ t)).length < s.kids.length := by
      have hpos := List.length_pos_iff.2 hne
      have hkeys : keys.length = s.kids.length - 1 := by simp [keys]
      have htake := (List.takeWhile_sublist (· ≤ t) (l := keys)).length_le
      omega
    set slot := (keys.takeWhile (· ≤ t)).length
    have hget : (s.kids.map Shape.page)[slot]? = some s.kids[slot].page := by simp [hslot]
    rw [← Nat.add_assoc, pathFrom, hp]
    simp only [slot, hget]
    rw [List.length_append, ih (hk _ (List.getElem_mem hslot)) (Nat.le_add_left _ _)]
    rfl

/-! ## Indexes that hold entries -/

namespace HoldsIn

variable (hx : x.HoldsIn h s es)

include hx

theorem length_path (t : Time) : (x.path t).length = x.depth := by
  rw [path, ← hx.root, Shape.length_pathFrom hx.fits hx.height_lt.le, hx.depth_eq]

theorem isLeaf_leafFor (ha : Ascending es) (t : Time) : x.IsLeaf (x.leafFor t) := by
  obtain ⟨ls, rs, hls, -⟩ := hx.leafFor_split ha t
  rw [← hx.leaves_eq] at hls
  exact hx.mem_leaves_iff.1 (hls ▸ List.mem_append_right ls List.mem_cons_self)

theorem length_entries : (s.entries x h).length = x.size := by
  rw [hx.entries, hx.size]

/-- A root that is no leaf has two children at least, each of which is at least half full. -/
theorem le_size (hh : h = n + 1) : 2 * x.fanout * (x.fanout + 1) ^ n ≤ x.size := by
  subst hh
  have hkids : 2 ≤ s.kids.length := by
    have hone := hx.one_le_count (Nat.succ_ne_zero n)
    rw [Shape.length_kids hx.fits]
    omega
  rw [← hx.length_entries, Nat.mul_assoc]
  refine Shape.mul_le_length_entries hkids fun k hk => ?_
  obtain ⟨hcount, -, hfilled⟩ := hx.filled k hk
  exact Shape.le_length_entries (hx.fits.2.2 k hk) hfilled hcount

theorem size_le : x.size ≤ 2 * x.fanout * (2 * x.fanout + 1) ^ h :=
  hx.length_entries ▸ Shape.length_entries_le hx.fits hx.filled hx.count_le

end HoldsIn

/-- A power below a quotient is told by the logarithm of the quotient. -/
theorem le_two_add_logb {d size : Nat} (hd : 0 < d) (hle : 2 * d * (d + 1) ^ n ≤ size) :
    ((n + 2 : Nat) : ℝ) ≤ 2 + Real.logb (d + 1) (size / (2 * d)) := by
  have hd' : (0 : ℝ) < d := Nat.cast_pos.2 hd
  have hpow : (d + 1 : ℝ) ^ n ≤ size / (2 * d) := by
    rw [le_div_iff₀ (by positivity), mul_comm]
    exact_mod_cast hle
  have hlog : (n : ℝ) ≤ Real.logb (d + 1) (size / (2 * d)) := by
    have hpos : (0 : ℝ) < (d + 1) ^ n := by positivity
    rw [Real.le_logb_iff_rpow_le (by linarith) (hpos.trans_le hpow), Real.rpow_natCast]
    exact hpow
  push_cast
  linarith

/-- **The height is logarithmic in the number of entries.** Whatever was offered to an index that
    started empty, a search goes through one page of each level, from the root to a leaf; there are
    no more entries than so many levels have room for, and as soon as there is more than one level
    there are so many entries that their logarithm bounds the levels. -/
theorem height_logarithmic (fanout : Nat) (offered : List Entry) :
    let d := max fanout 2
    let x := offered.foldl offer (empty fanout)
    (∀ t, x.IsWayUp (x.leafFor t) x.root (x.path t) ∧ x.IsLeaf (x.leafFor t) ∧
        (x.path t).length = x.depth) ∧
      x.size ≤ 2 * d * (2 * d + 1) ^ (x.depth - 1) ∧
      (2 ≤ x.depth → 2 * d * (d + 1) ^ (x.depth - 2) ≤ x.size ∧
        ∀ t, ((x.path t).length : ℝ) ≤ 2 + Real.logb (d + 1) (x.size / (2 * d))) := by
  intro d x
  obtain ⟨ha, h, s, hx⟩ := holds_accepted fanout offered
  change x.HoldsIn h s _ at hx
  have hfan : x.fanout = d := fanout_offered fanout offered
  have hd : 0 < d := Nat.lt_of_lt_of_le Nat.zero_lt_two (Nat.le_max_right fanout 2)
  have hdepth := hx.depth_eq
  refine ⟨fun t => ⟨isWayUp_pathFrom x t _ _, hx.isLeaf_leafFor ha t, hx.length_path t⟩, ?_,
    fun htwo => ?_⟩
  · rw [hdepth, Nat.add_sub_cancel, ← hfan]
    exact hx.size_le
  · obtain ⟨n, rfl⟩ : ∃ n, h = n + 1 := ⟨h - 1, by omega⟩
    have hle : 2 * d * (d + 1) ^ n ≤ x.size := hfan ▸ hx.le_size rfl
    refine ⟨by rw [hdepth]; exact hle, fun t => ?_⟩
    rw [hx.length_path, hdepth]
    exact le_two_add_logb hd hle

/-- One entry more than the fewest that three levels need, if the fanout is 2. -/
def sampleThirteen : List Entry := (List.range 13).map fun i => ⟨UInt64.ofNat (10 * i), 3⟩

/-- Thirteen entries make three levels, each of which a search goes through. -/
theorem height_logarithmic_sampleThirteen :
    let x := sampleThirteen.foldl offer (empty 2)
    2 ≤ x.depth ∧ x.size ≤ 2 * 2 * (2 * 2 + 1) ^ 2 ∧ 2 * 2 * (2 + 1) ^ 1 ≤ x.size ∧
      ∀ t, (x.path t).length = 3 ∧
        ((x.path t).length : ℝ) ≤ 2 + Real.logb (2 + 1) (13 / (2 * 2)) := by
  intro x
  have hdepth : x.depth = 3 := by decide +kernel
  have hsize : x.size = 13 := by decide +kernel
  have htwo : 2 ≤ x.depth := by rw [hdepth]; decide
  obtain ⟨hpath, hmost, hleast⟩ := height_logarithmic 2 sampleThirteen
  obtain ⟨hleast, hlog⟩ := hleast htwo
  have hlog : ∀ t, ((x.path t).length : ℝ) ≤
      2 + Real.logb ((max 2 2 : Nat) + 1) (x.size / (2 * (max 2 2 : Nat))) := hlog
  rw [hsize, max_self] at hlog
  refine ⟨htwo, ?_, ?_, fun t => ⟨(hpath t).2.2.trans hdepth, by exact_mod_cast hlog t⟩⟩
  · rwa [hdepth] at hmost
  · rwa [hdepth] at hleast

end ReplicaRing.Index

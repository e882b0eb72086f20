import ReplicaRing.Proofs.Index.Insert

/-!
# What an index answers

An index that holds the entries `es` answers as a search of `es` from end to end would:

* its entries in order are `es` (`Index.Holds.toList`), and its last one is the last of `es`
  (`Index.Holds.last?`);
* the last span ends the spans of `es` (`Index.Holds.latest`);
* the span in force at `t` ends the spans of those entries that are no later than `t`
  (`Index.Holds.asOf`);
* a stretch of time has the spans of the entries in it (`Index.Holds.range`).

A search by time goes down the tree to one leaf. All entries to the left of that leaf are
earlier and all to its right are later (`Index.HoldsIn.leafFor_split`).
-/

namespace ReplicaRing.Index

variable {x : Index} {h : Nat} {s : Shape} {es : List Entry} {t : Time}

/-! ## Spans of entries -/

/-- Where the last of the entries ends; zero if there is none. -/
def stopOf (es : List Entry) : Offset := (es.getLast?.map (·.stop)).getD 0

@[simp] theorem stopOf_nil : stopOf [] = 0 := rfl

@[simp] theorem stopOf_concat (es : List Entry) (e : Entry) : stopOf (es ++ [e]) = e.stop := by
  simp [stopOf]

theorem stopOf_append_of_ne_nil {fs : List Entry} (es : List Entry) (h : fs ≠ []) :
    stopOf (es ++ fs) = stopOf fs := by
  rw [stopOf, stopOf, List.getLast?_append_of_ne_nil _ h]

theorem spansFrom_append (start : Offset) (es fs : List Entry) :
    spansFrom start (es ++ fs) =
      spansFrom start es ++ spansFrom ((es.getLast?.map (·.stop)).getD start) fs := by
  induction es generalizing start with
  | nil => rfl
  | cons e es ih =>
    rw [List.cons_append, spansFrom, spansFrom, ih, List.cons_append, List.getLast?_cons]
    cases es.getLast? <;> rfl

@[simp] theorem getLast?_spansFrom_concat (es : List Entry) (e : Entry) :
    (spansFrom 0 (es ++ [e])).getLast? = some ⟨stopOf es, e.stop⟩ := by
  rw [spansFrom_append, stopOf]
  simp [spansFrom]

@[simp] theorem length_spansFrom (start : Offset) (es : List Entry) :
    (spansFrom start es).length = es.length := by
  induction es generalizing start with
  | nil => rfl
  | cons e es ih => rw [spansFrom, List.length_cons, ih, List.length_cons]

/-! ## Along the leaves -/

variable {ls rs : List Nat} {l : Nat} {prev : Option Nat}

/-- A leaf is linked to its neighbours. -/
theorem Linked.page (hl : Linked x prev (ls ++ l :: rs)) :
    ∃ es, x.pages[l]? = some (.leaf es (ls.getLast?.or prev) rs.head?) := by
  induction ls generalizing prev with
  | nil => exact hl.1
  | cons a ls ih =>
    obtain ⟨es, hp⟩ := ih hl.2
    refine ⟨es, ?_⟩
    rw [hp, List.getLast?_cons]
    cases ls.getLast? <;> rfl

theorem Linked.entriesFrom (hl : Linked x prev (l :: rs)) {fuel : Nat} (hf : rs.length < fuel) :
    x.entriesFrom fuel l = (l :: rs).flatMap x.entriesAt := by
  induction rs generalizing l prev fuel with
  | nil =>
    obtain ⟨fuel, rfl⟩ : ∃ n, fuel = n + 1 := ⟨fuel - 1, by omega⟩
    obtain ⟨⟨es, hp⟩, -⟩ := hl
    simp [Index.entriesFrom, nextOf, hp]
  | cons r rs ih =>
    obtain ⟨fuel, rfl⟩ : ∃ n, fuel = n + 1 := ⟨fuel - 1, by omega⟩
    obtain ⟨⟨es, hp⟩, hl⟩ := hl
    rw [List.length_cons, Nat.add_lt_add_iff_right] at hf
    rw [Index.entriesFrom, nextOf, hp, List.flatMap_cons]
    exact congrArg _ (ih hl hf)

namespace HoldsIn

theorem length_leaves_le (hx : x.HoldsIn h s es) : (s.leaves h).length ≤ x.pages.size := by
  have hsub : s.leaves h ⊆ List.range x.pages.size := fun i hi =>
    List.mem_range.2 ((hx.mem_pages i).1 (Shape.leaves_subset_pages h s hi))
  have := (((Shape.leaves_sublist_pages h s).nodup hx.nodup).subperm hsub).length_le
  rwa [List.length_range] at this

variable (hx : x.HoldsIn h s es)

include hx

/-- If a leaf has a neighbour, neither is empty. -/
theorem ne_nil_of_two_leaves (hl : 2 ≤ (s.leaves h).length) :
    ∀ i ∈ s.leaves h, x.entriesAt i ≠ [] := by
  refine hx.entriesAt_ne_nil ?_
  rintro rfl
  rw [Shape.leaves, List.length_singleton] at hl
  omega

theorem entriesFrom (hls : s.leaves h = ls ++ l :: rs) :
    x.entriesFrom x.pages.size l = (l :: rs).flatMap x.entriesAt := by
  have hlen := hx.length_leaves_le
  have hlink := hx.linked
  rw [hls] at hlen hlink
  rw [List.length_append, List.length_cons] at hlen
  have : ∃ prev, Linked x prev (l :: rs) := by
    generalize (none : Option Nat) = prev at hlink
    clear hls hlen
    induction ls generalizing prev with
    | nil => exact ⟨prev, hlink⟩
    | cons a ls ih => exact ih _ hlink.2
  obtain ⟨prev, hlink⟩ := this
  exact hlink.entriesFrom (by omega)

/-- Where the value ends that comes before position `pos` of leaf `l`. -/
theorem endBefore (hls : s.leaves h = ls ++ l :: rs) {pos : Nat}
    (hpos : pos ≤ (x.entriesAt l).length) :
    x.endBefore l pos = stopOf (ls.flatMap x.entriesAt ++ (x.entriesAt l).take pos) := by
  have hlink := hx.linked
  rw [hls] at hlink
  obtain ⟨les, hp⟩ := hlink.page
  by_cases h0 : pos = 0
  · -- The first value of a leaf begins where the last one of the leaf before it ends.
    subst h0
    rw [Index.endBefore, if_pos rfl, prevOf, hp, List.take_zero, List.append_nil]
    rcases List.eq_nil_or_concat ls with rfl | ⟨ls, p, rfl⟩
    · rfl
    · have hne : x.entriesAt p ≠ [] := by
        refine hx.ne_nil_of_two_leaves ?_ p (by simp [hls])
        simp [hls]
        omega
      simp only [List.concat_eq_append, List.getLast?_concat, Option.some_or, Option.bind_some,
        List.flatMap_append, List.flatMap_singleton]
      rw [stopOf_append_of_ne_nil _ hne, stopOf]
      cases (x.entriesAt p).getLast? <;> rfl
  · have hne : (x.entriesAt l).take pos ≠ [] := by
      rw [Ne, List.take_eq_nil_iff, not_or]
      refine ⟨h0, fun h => ?_⟩
      rw [h, List.length_nil] at hpos
      omega
    rw [Index.endBefore, if_neg h0, stopOf_append_of_ne_nil _ hne, stopOf, List.getLast?_take]
    rw [if_neg h0, List.getElem?_eq_getElem (by omega)]
    rfl

/-- The span of an entry of a leaf. -/
theorem spanAt (hls : s.leaves h = ls ++ l :: rs) {es₁ es₂ : List Entry} {e : Entry}
    (he : x.entriesAt l = es₁ ++ e :: es₂) :
    x.spanAt l es₁.length = (spansFrom 0 (ls.flatMap x.entriesAt ++ es₁ ++ [e])).getLast? := by
  have hlen : es₁.length ≤ (x.entriesAt l).length := by simp [he]
  rw [Index.spanAt, hx.endBefore hls hlen, getLast?_spansFrom_concat, he]
  simp

theorem lastSpanAt (hls : s.leaves h = ls ++ l :: rs) (hne : x.entriesAt l ≠ []) :
    x.lastSpanAt l = (spansFrom 0 ((ls ++ [l]).flatMap x.entriesAt)).getLast? := by
  rcases List.eq_nil_or_concat (x.entriesAt l) with he | ⟨es₁, e, he⟩
  · exact absurd he hne
  · rw [List.concat_eq_append] at he
    have hspan := hx.spanAt hls he
    rw [Index.lastSpanAt, he, List.length_append, List.length_singleton]
    simp only [hspan, List.flatMap_append, List.flatMap_singleton, he, List.append_assoc]

/-- The last span before a leaf is found in the leaf before it. -/
theorem lastSpan_prevOf (hls : s.leaves h = ls ++ l :: rs) :
    (x.prevOf l).bind x.lastSpanAt = (spansFrom 0 (ls.flatMap x.entriesAt)).getLast? := by
  have hlink := hx.linked
  rw [hls] at hlink
  obtain ⟨les, hp⟩ := hlink.page
  rw [prevOf, hp]
  rcases List.eq_nil_or_concat' ls with rfl | ⟨ls, p, rfl⟩
  · rfl
  · rw [List.append_assoc] at hls
    have hne : x.entriesAt p ≠ [] := by
      refine hx.ne_nil_of_two_leaves ?_ p (by simp [hls])
      simp [hls]
      omega
    simp only [List.getLast?_concat, Option.some_or, Option.bind_some]
    exact hx.lastSpanAt hls hne

/-- The last span of the first entries of a leaf. -/
theorem spanAt_takeWhile (hls : s.leaves h = ls ++ l :: rs) {p : Entry → Bool} {pos : Nat}
    (hpos : ((x.entriesAt l).takeWhile p).length = pos + 1) :
    x.spanAt l pos =
      (spansFrom 0 (ls.flatMap x.entriesAt ++ (x.entriesAt l).takeWhile p)).getLast? := by
  have hsplit := (List.takeWhile_append_dropWhile (p := p) (l := x.entriesAt l)).symm
  rcases List.eq_nil_or_concat' ((x.entriesAt l).takeWhile p) with hnil | ⟨es₁, e, htake⟩
  · rw [hnil] at hpos
    cases hpos
  · rw [htake, List.length_append, List.length_singleton, Nat.add_right_cancel_iff] at hpos
    rw [htake, List.append_assoc, List.singleton_append] at hsplit
    rw [htake, ← hpos, hx.spanAt hls hsplit, List.append_assoc]

end HoldsIn

/-! ## Down the tree -/

/-- The child below which a search for time `t` goes on. Those before it hold a time that is
    no later than `t`, and those after it begin later. -/
theorem exists_child (least : Shape → Time) (t : Time) (k : Shape) (ks : List Shape) :
    ∃ as c bs, k :: ks = as ++ c :: bs ∧
      as.length = ((ks.map least).takeWhile (· ≤ t)).length ∧
      (as = [] ∨ least c ≤ t) ∧ ∀ b, bs.head? = some b → t < least b := by
  induction ks generalizing k with
  | nil => exact ⟨[], k, [], rfl, rfl, .inl rfl, nofun⟩
  | cons k' ks ih =>
    by_cases hk : least k' ≤ t
    · obtain ⟨as, c, bs, heq, hlen, hle, hlt⟩ := ih k'
      refine ⟨k :: as, c, bs, by rw [heq]; rfl, ?_, .inr ?_, hlt⟩
      · simp [hk, hlen]
      · rcases hle with rfl | hle
        · rw [List.nil_append, List.cons.injEq] at heq
          rwa [← heq.1]
        · exact hle
    · refine ⟨[], k, k' :: ks, rfl, by simp [hk], .inl rfl, fun b hb => ?_⟩
      rw [List.head?_cons, Option.some.injEq] at hb
      exact hb ▸ UInt64.not_le.1 hk

/-- The child below which a search for `t` goes on splits what is below a page into what is earlier
    and what is later. -/
theorem exists_leafFrom_step {d : Nat} (hd : 0 < d) (hs : s.Fits x (h + 1))
    (hf : s.Filled x d (h + 1)) (ha : Ascending (s.entries x (h + 1))) (t : Time) (fuel : Nat) :
    ∃ as c bs, s.kids = as ++ c :: bs ∧
      x.leafFrom t (fuel + 1) s.page = x.leafFrom t fuel c.page ∧
      (∀ e ∈ as.flatMap (Shape.entries x h), e.time < t) ∧
      ∀ e ∈ bs.flatMap (Shape.entries x h), t < e.time := by
  obtain ⟨hne, hp, hfits⟩ := hs
  obtain ⟨k, ks, hkids⟩ := List.exists_cons_of_ne_nil hne
  obtain ⟨as, c, bs, heq, hlen, has, hbs⟩ := exists_child (Shape.least x h) t k ks
  rw [hkids] at hp
  rw [heq] at hkids
  rw [Shape.entries_succ, hkids, List.flatMap_append, List.flatMap_cons] at ha
  obtain ⟨-, ha, hac⟩ := List.pairwise_append.1 ha
  obtain ⟨-, hb, -⟩ := List.pairwise_append.1 ha
  have hhead : ∀ k' ∈ as ++ c :: bs, ∃ e rest,
      k'.entries x h = e :: rest ∧ e.time = k'.least x h := by
    intro k' hk'
    rw [← hkids] at hk'
    obtain ⟨hcount, -, hfilled⟩ := hf k' hk'
    exact Shape.exists_head (Shape.entries_ne_nil hd (hfits k' hk') hcount hfilled)
  refine ⟨as, c, bs, hkids, ?_, fun e he => ?_, fun e he => ?_⟩
  · have hget : ((k :: ks).map Shape.page)[as.length]? = some c.page := by simp [heq]
    rw [leafFrom, hp, List.tail_cons]
    simp only [← hlen, hget]
  · -- What is before the child is earlier than its first entry.
    obtain ⟨e₀, rest, he₀, ht₀⟩ := hhead c (by simp)
    have hlt := (hac e he e₀ (by rw [he₀]; simp)).1
    rcases has with rfl | has
    · nomatch he
    · exact UInt64.lt_of_lt_of_le (ht₀ ▸ hlt) has
  · -- What is after the child is no earlier than the first entry there.
    cases bs with
    | nil => nomatch he
    | cons b bs =>
      obtain ⟨e₀, rest, he₀, ht₀⟩ := hhead b (by simp)
      rw [List.flatMap_cons, he₀] at he hb
      rcases List.mem_cons.1 he with rfl | he
      · exact ht₀ ▸ hbs b rfl
      · exact UInt64.lt_trans (ht₀ ▸ hbs b rfl) ((List.pairwise_cons.1 hb).1 e he).1

theorem leafFrom_split {d fuel : Nat} (hd : 0 < d) (hs : s.Fits x h) (hf : s.Filled x d h)
    (ha : Ascending (s.entries x h)) (hle : h ≤ fuel) :
    ∃ ls rs, s.leaves h = ls ++ x.leafFrom t fuel s.page :: rs ∧
      (∀ e ∈ ls.flatMap x.entriesAt, e.time < t) ∧ ∀ e ∈ rs.flatMap x.entriesAt, t < e.time := by
  induction h generalizing s fuel with
  | zero =>
    obtain ⟨es, prev, next, hp⟩ := hs
    refine ⟨[], [], ?_, nofun, nofun⟩
    cases fuel <;> simp [Shape.leaves, leafFrom, hp]
  | succ h ih =>
    obtain ⟨fuel, rfl⟩ : ∃ n, fuel = n + 1 := ⟨fuel - 1, by omega⟩
    obtain ⟨as, c, bs, hkids, hstep, has, hbs⟩ := exists_leafFrom_step hd hs hf ha t fuel
    have hc : c ∈ s.kids := hkids ▸ List.mem_append_right as List.mem_cons_self
    have hac : Ascending (c.entries x h) := by
      rw [Shape.entries_succ, hkids, List.flatMap_append, List.flatMap_cons] at ha
      exact (List.pairwise_append.1 (List.pairwise_append.1 ha).2.1).1
    obtain ⟨ls, rs, hleaves, hls, hrs⟩ :=
      ih (hs.2.2 c hc) (hf c hc).2.2 hac (Nat.le_of_succ_le_succ hle)
    refine ⟨as.flatMap (Shape.leaves h) ++ ls, rs ++ bs.flatMap (Shape.leaves h), ?_, ?_, ?_⟩
    · rw [hstep, Shape.leaves, hkids, List.flatMap_append, List.flatMap_cons, hleaves]
      simp
    · rw [List.flatMap_append, List.flatMap_assoc, List.forall_mem_append]
      exact ⟨has, hls⟩
    · rw [List.flatMap_append, List.flatMap_assoc, List.forall_mem_append]
      exact ⟨hrs, hbs⟩

/-- The leaf a search for `t` ends in splits the leaves into those with earlier entries and
    those with later ones. -/
theorem HoldsIn.leafFor_split (hx : x.HoldsIn h s es) (ha : Ascending es) (t : Time) :
    ∃ ls rs, s.leaves h = ls ++ x.leafFor t :: rs ∧
      (∀ e ∈ ls.flatMap x.entriesAt, e.time < t) ∧ ∀ e ∈ rs.flatMap x.entriesAt, t < e.time := by
  rw [leafFor, ← hx.root]
  exact leafFrom_split (Nat.lt_of_lt_of_le Nat.zero_lt_two hx.two_le_fanout) hx.fits hx.filled
    (hx.entries ▸ ha) (Nat.le_of_lt hx.height_lt)

/-! ## Answers -/

theorem takeWhile_append_of_neg {p : Entry → Bool} (es : List Entry) {fs : List Entry}
    (h : ∀ e ∈ fs, ¬p e = true) : (es ++ fs).takeWhile p = es.takeWhile p := by
  induction es with
  | nil =>
    cases fs with
    | nil => rfl
    | cons f fs => simp [h f List.mem_cons_self]
  | cons e es ih =>
    rw [List.cons_append, List.takeWhile_cons, List.takeWhile_cons, ih]

/-- Entries that are cut in two by `p` are cut inside a part of them, `les`, if `p` is true of all
    before that part and of none after it. -/
theorem eq_append_takeWhile {p : Entry → Bool} {later before les after : List Entry}
    (h : es ++ later = before ++ (les ++ after)) (hes : ∀ e ∈ es, p e = true)
    (hlater : ∀ e ∈ later, ¬p e = true) (hbefore : ∀ e ∈ before, p e = true)
    (hafter : ∀ e ∈ after, ¬p e = true) : es = before ++ les.takeWhile p := by
  have htake := congrArg (List.takeWhile p) h
  rwa [takeWhile_append_of_neg _ hlater, List.takeWhile_eq_self_iff.2 hes,
    List.takeWhile_append_of_pos hbefore, takeWhile_append_of_neg _ hafter] at htake

theorem Holds.last? (hx : x.Holds es) : x.last? = es.getLast? := by
  obtain ⟨-, h, s, hx⟩ := hx
  exact hx.last?_eq

theorem Holds.toList (hx : x.Holds es) : x.toList = es := by
  obtain ⟨-, h, s, hx⟩ := hx
  have hf := hx.first
  rw [List.head?_eq_some_iff] at hf
  obtain ⟨rs, hrs⟩ := hf
  have hls : s.leaves h = [] ++ x.firstLeaf :: rs := hrs
  rw [Index.toList, hx.entriesFrom hls, ← hrs, ← hx.entries]
  rfl

theorem Holds.latest (hx : x.Holds es) : x.latest = (spansFrom 0 es).getLast? := by
  obtain ⟨-, h, s, hx⟩ := hx
  obtain ⟨ls, hls⟩ := hx.exists_leaves_concat
  by_cases hne : x.entriesAt x.lastLeaf = []
  · have hh : h = 0 := by
      by_contra hh
      exact hx.entriesAt_ne_nil hh x.lastLeaf (by simp [hls]) hne
    subst hh
    have he := hx.entries
    rw [Shape.entries, hls, List.flatMap_append, List.flatMap_singleton, hne] at he
    have hnil : ls = [] := by simpa [Shape.leaves] using congrArg List.length hls
    subst hnil
    rw [← he, Index.latest, Index.lastSpanAt, hne]
    rfl
  · rw [Index.latest, hx.lastSpanAt hls hne, ← hx.entries, Shape.entries, hls]

/-- The span in force at `t`, if `es` are the entries up to `t` and `later` those after. -/
theorem Holds.asOf {later : List Entry} (hx : x.Holds (es ++ later)) (hes : ∀ e ∈ es, e.time ≤ t)
    (hlater : ∀ e ∈ later, t < e.time) : x.asOf t = (spansFrom 0 es).getLast? := by
  have hlast := hx.last?
  have hlatest := hx.latest
  obtain ⟨ha, h, s, hx⟩ := hx
  rw [Index.asOf, hlast]
  rcases List.eq_nil_or_concat later with rfl | ⟨later, l, rfl⟩
  · rw [List.append_nil] at *
    cases hl : es.getLast? with
    | none =>
      rw [List.getLast?_eq_none_iff] at hl
      subst hl
      rfl
    | some l =>
      simp only [if_pos (hes l (List.mem_of_getLast? hl))]
      exact hlatest
  · have hl : ¬l.time ≤ t := UInt64.not_le.2 (hlater l (by simp))
    rw [List.concat_eq_append, ← List.append_assoc, List.getLast?_concat]
    simp only [if_neg hl]
    obtain ⟨ls, rs, hls, hlt, hgt⟩ := hx.leafFor_split ha t
    set leaf := x.leafFor t
    have he : es ++ later.concat l = ls.flatMap x.entriesAt ++ (x.entriesAt leaf ++
        rs.flatMap x.entriesAt) := by
      rw [← hx.entries, Shape.entries, hls, List.flatMap_append, List.flatMap_cons]
    have hcut : es = ls.flatMap x.entriesAt ++ (x.entriesAt leaf).takeWhile (·.time ≤ t) :=
      eq_append_takeWhile he (by simpa using hes) (by simpa [UInt64.not_le] using hlater)
        (fun e he => decide_eq_true (UInt64.le_of_lt (hlt e he)))
        (by simpa [UInt64.not_le] using hgt)
    rw [hcut]
    cases hpos : ((x.entriesAt leaf).takeWhile (·.time ≤ t)).length with
    | zero =>
      -- The whole leaf is later, and the answer is in the one before it.
      rw [List.eq_nil_of_length_eq_zero hpos, List.append_nil]
      exact hx.lastSpan_prevOf hls
    | succ pos => exact hx.spanAt_takeWhile hls hpos

/-- The spans of the entries `es` from `first` to `final`, if `earlier` and `later` are those
    on both sides of them. -/
theorem Holds.range {earlier later : List Entry} {first final : Time}
    (hx : x.Holds (earlier ++ (es ++ later))) (hearlier : ∀ e ∈ earlier, e.time < first)
    (hes : ∀ e ∈ es, first ≤ e.time ∧ e.time ≤ final) (hlater : ∀ e ∈ later, final < e.time) :
    x.range first final = spansFrom (stopOf earlier) es := by
  obtain ⟨ha, h, s, hx⟩ := hx
  by_cases hff : final < first
  · have hnil : es = [] := by
      rw [List.eq_nil_iff_forall_not_mem]
      intro e he
      exact UInt64.not_lt.2 (UInt64.le_trans (hes e he).1 (hes e he).2) hff
    rw [Index.range, if_pos (.inl hff), hnil]
    rfl
  by_cases hsize : x.size = 0
  · have hlen := hx.size
    rw [hsize, List.length_append, List.length_append] at hlen
    have hnil : es = [] := List.eq_nil_of_length_eq_zero (by omega)
    rw [Index.range, if_pos (.inr hsize), hnil]
    rfl
  rw [Index.range, if_neg (by simp [hff, hsize])]
  have hfl : first ≤ final := UInt64.not_lt.1 hff
  obtain ⟨ls, rs, hls, hlt, hgt⟩ := hx.leafFor_split ha first
  set leaf := x.leafFor first
  have he : earlier ++ (es ++ later) = ls.flatMap x.entriesAt ++ (x.entriesAt leaf ++
      rs.flatMap x.entriesAt) := by
    rw [← hx.entries, Shape.entries, hls, List.flatMap_append, List.flatMap_cons]
  have hrest : ∀ e ∈ es ++ later, ¬decide (e.time < first) = true := by
    intro e he
    rw [decide_eq_true_eq, UInt64.not_lt]
    rcases List.mem_append.1 he with he | he
    · exact (hes e he).1
    · exact UInt64.le_of_lt (UInt64.lt_of_le_of_lt hfl (hlater e he))
  -- The leaves before this one are earlier than `first` and those after it later: `earlier` ends in
  -- this leaf.
  have hcut : earlier = ls.flatMap x.entriesAt ++ (x.entriesAt leaf).takeWhile (·.time < first) :=
    eq_append_takeWhile he (by simpa using hearlier) hrest
      (fun e he => decide_eq_true (hlt e he))
      (fun e he => by simpa using UInt64.le_of_lt (hgt e he))
  have hpos : ((x.entriesAt leaf).takeWhile (·.time < first)).length ≤ (x.entriesAt leaf).length :=
    (List.takeWhile_sublist _).length_le
  have htake : (x.entriesAt leaf).take ((x.entriesAt leaf).takeWhile (·.time < first)).length =
      (x.entriesAt leaf).takeWhile (·.time < first) :=
    (List.prefix_iff_eq_take.1 (List.takeWhile_prefix _)).symm
  have hdrop : (x.entriesAt leaf ++ rs.flatMap x.entriesAt).drop
      ((x.entriesAt leaf).takeWhile (·.time < first)).length = es ++ later := by
    rw [hcut, List.append_assoc, List.append_cancel_left_eq] at he
    rw [← he, List.drop_left]
  show spansFrom (x.endBefore leaf _) (((x.entriesFrom x.pages.size leaf).drop _).takeWhile _) = _
  rw [hx.endBefore hls hpos, htake, ← hcut, hx.entriesFrom hls, List.flatMap_cons, hdrop,
    takeWhile_append_of_neg _ (by simpa [UInt64.not_le] using hlater),
    List.takeWhile_eq_self_iff.2 (by simpa using fun e he => (hes e he).2)]

end ReplicaRing.Index

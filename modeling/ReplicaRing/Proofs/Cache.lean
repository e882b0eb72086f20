import ReplicaRing.Proofs.Log.Read

/-!
# Which keys a cache remembers

A key that is touched comes to the front of the slots, and if there is no room the last key goes
(`Cache.touch`). A cache that has one slot for each key and no more slots than it has room for
(`Cache.Fits`) does nothing else when a tip is published (`Cache.slots_publish`).

Main statement: two keys may be touched in either order, and every other key is remembered as
well or as little. The two themselves are, if there is room for both
(`Cache.lookup_touch_comm`).
-/

namespace ReplicaRing.Cache

open Index (Tip)

variable {c : Cache} {slots : List (String × Tip)} {key k a b : String} {tip tip' x y : Tip}
  {n : Nat}

/-! ## Touching a key -/

/-- The first `n` slots after a touch of the key, which holds `tip` then. -/
def touch (n : Nat) (slots : List (String × Tip)) (key : String) (tip : Tip) :
    List (String × Tip) :=
  (promote slots key tip).take n

/-- No key has two slots, there is room for all, and for one at least. -/
structure Fits (c : Cache) : Prop where
  nodup : (c.slots.map Prod.fst).Nodup
  length_le : c.slots.length ≤ c.capacity
  capacity_pos : 0 < c.capacity

theorem fits_empty (capacity : Nat) : (empty capacity).Fits :=
  ⟨.nil, Nat.zero_le _, Nat.lt_of_lt_of_le Nat.zero_lt_one (Nat.le_max_right _ _)⟩

theorem nodup_touch (h : (slots.map Prod.fst).Nodup) (n : Nat) (key : String) (tip : Tip) :
    ((touch n slots key tip).map Prod.fst).Nodup := by
  have hpromote : ((promote slots key tip).map Prod.fst).Nodup := by
    rw [promote, List.map_cons, List.nodup_cons]
    refine ⟨fun hmem => ?_, h.sublist (List.filter_sublist.map _)⟩
    obtain ⟨s, hs, he⟩ := List.mem_map.1 hmem
    rw [List.mem_filter, decide_eq_true_eq] at hs
    exact hs.2 he
  exact hpromote.sublist ((List.take_sublist _ _).map _)

theorem lookup_touch_self (hn : 0 < n) : (touch n slots key tip).lookup key = some tip := by
  obtain ⟨m, rfl⟩ := Nat.exists_eq_succ_of_ne_zero hn.ne'
  simp [touch, promote]

/-- Another key may have made room, and has its old tip otherwise. -/
theorem lookup_touch_of_ne (h : (touch n slots key tip).lookup k = some tip') (hne : k ≠ key) :
    slots.lookup k = some tip' := by
  have h := lookup_take h
  rwa [lookup_promote, if_neg hne] at h

/-- A key that is touched again changes its tip only. -/
theorem touch_touch (hn : 0 < n) :
    touch n (touch n slots key tip) key tip' = touch n slots key tip' := by
  obtain ⟨m, rfl⟩ := Nat.exists_eq_succ_of_ne_zero hn.ne'
  have hfilter : ((slots.filter fun s => s.1 ≠ key).take m).filter (fun s => s.1 ≠ key) =
      (slots.filter fun s => s.1 ≠ key).take m :=
    List.filter_eq_self.2 fun s hs => (List.mem_filter.1 (List.mem_of_mem_take hs)).2
  simp only [touch, promote, List.take_succ_cons]
  rw [List.filter_cons_of_neg (by simp), hfilter, List.take_take, Nat.min_self]

/-! ## Publishing a tip -/

/-- The tip that a key has after `tip` is published for it. -/
def raised (c : Cache) (key : String) (tip : Tip) : Tip :=
  match c.peek key with
  | some old => if old.time < tip.time then tip else old
  | none => tip

theorem filter_of_lookup_eq_none (h : slots.lookup key = none) :
    (slots.filter fun s => s.1 ≠ key) = slots := by
  refine List.filter_eq_self.2 fun s hs => decide_eq_true ?_
  exact (bne_iff_ne.1 (List.lookup_eq_none_iff.1 h s hs)).symm

/-- A key that has a slot is brought to the front, and there is no slot more than before. -/
theorem promote_eq_touch {old : Tip} (hf : c.Fits) (hp : c.peek key = some old) (tip : Tip) :
    promote c.slots key tip = touch c.capacity c.slots key tip := by
  obtain ⟨s, hs, hkey⟩ : ∃ s ∈ c.slots, s.1 = key := by
    by_contra! hall
    have hnone : c.slots.lookup key = none :=
      List.lookup_eq_none_iff.2 fun s hs => bne_iff_ne.2 (hall s hs).symm
    rw [peek, hnone] at hp
    cases hp
  have hlt : (c.slots.filter fun s => s.1 ≠ key).length < c.slots.length :=
    List.length_filter_lt_length_iff_exists.2 ⟨s, hs, by simp [hkey]⟩
  exact (List.take_of_length_le (hlt.trans_le hf.length_le)).symm

/-- Publishing a tip is a touch. -/
theorem slots_publish (hf : c.Fits) (key : String) (tip : Tip) :
    (c.publish key tip).slots = touch c.capacity c.slots key (c.raised key tip) := by
  rw [publish, raised]
  cases hp : c.peek key with
  | none => rw [touch, promote, filter_of_lookup_eq_none hp]
  | some old => exact promote_eq_touch hf hp _

theorem capacity_publish (c : Cache) (key : String) (tip : Tip) :
    (c.publish key tip).capacity = c.capacity := by
  rw [publish]
  cases c.peek key <;> rfl

/-- After a touch the slots fit as before. -/
theorem Fits.touched {c' : Cache} (hf : c.Fits) (hcap : c'.capacity = c.capacity)
    (hslots : c'.slots = touch c.capacity c.slots key tip) : c'.Fits where
  nodup := hslots ▸ nodup_touch hf.nodup _ _ _
  length_le := by
    rw [hslots, hcap]
    exact List.length_take_le _ _
  capacity_pos := hcap ▸ hf.capacity_pos

theorem Fits.publish (hf : c.Fits) (key : String) (tip : Tip) : (c.publish key tip).Fits :=
  hf.touched (capacity_publish c key tip) (slots_publish hf key tip)

/-- A lookup is a touch if it finds a tip, and nothing but counted otherwise. -/
theorem Fits.get (hf : c.Fits) (key : String) : (c.get key).2.Fits := by
  rw [Cache.get]
  cases hp : c.peek key with
  | none => exact ⟨hf.nodup, hf.length_le, hf.capacity_pos⟩
  | some tip => exact hf.touched rfl (promote_eq_touch hf hp tip)

theorem peek_publish_self (hf : c.Fits) (key : String) (tip : Tip) :
    (c.publish key tip).peek key = some (c.raised key tip) := by
  rw [peek, slots_publish hf]
  exact lookup_touch_self hf.capacity_pos

/-! ## Two keys -/

/-- What is filtered off is at most one item, so that one item more is enough. -/
theorem take_filter_take {α : Type} {f : α → String} {l : List α} (h : (l.map f).Nodup) (n : Nat)
    (key : String) :
    ((l.take (n + 1)).filter fun a => f a ≠ key).take n = (l.filter fun a => f a ≠ key).take n := by
  induction l generalizing n with
  | nil => simp
  | cons a l ih =>
    rw [List.map_cons, List.nodup_cons] at h
    rw [List.take_succ_cons]
    by_cases ha : f a = key
    · -- No other item has the key.
      have hother : ∀ b ∈ l, decide (f b ≠ key) = true := fun b hb =>
        decide_eq_true fun he => h.1 (ha ▸ he ▸ List.mem_map_of_mem hb)
      rw [List.filter_cons_of_neg (by simpa using ha), List.filter_cons_of_neg (by simpa using ha),
        List.filter_eq_self.2 hother,
        List.filter_eq_self.2 fun b hb => hother b (List.mem_of_mem_take hb),
        List.take_take, Nat.min_self]
    · rw [List.filter_cons_of_pos (by simpa using ha), List.filter_cons_of_pos (by simpa using ha)]
      cases n with
      | zero => rfl
      | succ n => rw [List.take_succ_cons, List.take_succ_cons, ih h.2]

theorem touch_touch_of_ne (h : (slots.map Prod.fst).Nodup) (hne : a ≠ b) (n : Nat) (x y : Tip) :
    touch (n + 2) (touch (n + 2) slots a x) b y =
      (b, y) :: (a, x) :: ((slots.filter fun s => s.1 ≠ a).filter fun s => s.1 ≠ b).take n := by
  have hfilter : ((slots.filter fun s => s.1 ≠ a).map Prod.fst).Nodup :=
    h.sublist (List.filter_sublist.map _)
  simp only [touch, promote, List.take_succ_cons]
  rw [List.filter_cons_of_pos (by simpa using hne), List.take_succ_cons,
    take_filter_take hfilter]

/-- The order in which two keys are touched is not seen at another key, and at none if there is
    room for both. -/
theorem lookup_touch_comm (h : (slots.map Prod.fst).Nodup) (hn : 0 < n) (hne : a ≠ b) (x y : Tip)
    (hk : 2 ≤ n ∨ k ≠ a ∧ k ≠ b) :
    (touch n (touch n slots a x) b y).lookup k = (touch n (touch n slots b y) a x).lookup k := by
  obtain rfl | ⟨m, rfl⟩ : n = 1 ∨ ∃ m, n = m + 2 := by
    rcases n with - | - | m
    · exact absurd hn (Nat.lt_irrefl 0)
    · exact .inl rfl
    · exact .inr ⟨m, rfl⟩
  · obtain ⟨hka, hkb⟩ := hk.resolve_left (by decide)
    have ha : (k == a) = false := by simpa using hka
    have hb : (k == b) = false := by simpa using hkb
    simp [touch, promote, List.lookup_cons, ha, hb]
  · rw [touch_touch_of_ne h hne, touch_touch_of_ne h hne.symm, List.filter_comm _ _ slots]
    by_cases hka : k = a
    · have hb : (a == b) = false := by simpa using hne
      simp [hka, List.lookup_cons, hb]
    · have ha : (k == a) = false := by simpa using hka
      simp [List.lookup_cons, ha]

end ReplicaRing.Cache

import ReplicaRing.Proofs.Ring.Arcs

/-!
# Arcs as circular intervals

An arc is told by how far it is clockwise from its lower end: a point lies between the ends just
if it is nearer to the lower end than the upper one is. An arc that ends where it begins goes once
round, so that its upper end counts as a whole circle away (`Point.arcLength`).

Main statement: `Point.inArc_iff_distance`, with what makes it true of points as they are stored:
their bytes, the most significant first, are in the order of their numbers
(`Point.compare_bytes`).
-/

namespace ReplicaRing

/-! ## The order of bytes -/

namespace Bytes

/-- Of strings of the same length the last bytes decide only if those before them are equal. -/
theorem compare_concat {xs ys : Bytes} (h : xs.length = ys.length) (x y : UInt8) :
    compare (xs ++ [x]) (ys ++ [y]) = (compare xs ys).then (compare x y) := by
  induction xs generalizing ys with
  | nil =>
    obtain rfl : ys = [] := List.length_eq_zero_iff.1 h.symm
    simp [List.compare_cons_cons]
  | cons a xs ih =>
    cases ys with
    | nil => cases h
    | cons b ys =>
      rw [List.cons_append, List.cons_append, List.compare_cons_cons, List.compare_cons_cons,
        ih (Nat.succ.inj h)]
      cases compare a b <;> rfl

theorem big_succ (w n : Nat) : big (w + 1) n = big w (n / 256) ++ [UInt8.ofNat (n % 256)] := by
  rw [big, little, List.reverse_cons, big]

theorem compare_toNat (a b : UInt8) : compare a b = compare a.toNat b.toNat := by
  show compareOfLessAndEq a b = compareOfLessAndEq a.toNat b.toNat
  simp only [compareOfLessAndEq, UInt8.lt_iff_toNat_lt, ← UInt8.toNat_inj]

theorem compare_divMod (a b : Nat) :
    (compare (a / 256) (b / 256)).then (compare (a % 256) (b % 256)) = compare a b := by
  rcases Nat.lt_trichotomy (a / 256) (b / 256) with h | h | h
  · have hlt : a < b := by omega
    rw [Nat.compare_eq_lt.2 h, Nat.compare_eq_lt.2 hlt]
    rfl
  · rw [Nat.compare_eq_eq.2 h]
    show compare (a % 256) (b % 256) = _
    rcases Nat.lt_trichotomy (a % 256) (b % 256) with h' | h' | h'
    · rw [Nat.compare_eq_lt.2 h', Nat.compare_eq_lt.2 (by omega)]
    · rw [Nat.compare_eq_eq.2 h', Nat.compare_eq_eq.2 (by omega)]
    · rw [Nat.compare_eq_gt.2 h', Nat.compare_eq_gt.2 (by omega)]
  · have hlt : b < a := by omega
    rw [Nat.compare_eq_gt.2 h, Nat.compare_eq_gt.2 hlt]
    rfl

/-- Numbers are in the order of their bytes, the most significant first. -/
theorem compare_big {w a b : Nat} (ha : a < span w) (hb : b < span w) :
    compare (big w a) (big w b) = compare a b := by
  induction w generalizing a b with
  | zero =>
    rw [span] at ha hb
    obtain rfl : a = b := by omega
    simp [big, little]
  | succ w ih =>
    rw [span] at ha hb
    have hdigit : ∀ n, (UInt8.ofNat (n % 256)).toNat = n % 256 := by simp
    rw [big_succ, big_succ, compare_concat (by simp), ih (by omega) (by omega), compare_toNat,
      hdigit, hdigit, compare_divMod]

end Bytes

/-! ## Arcs -/

namespace Point

variable {x l u : Point}

/-- Points are in the order of their bytes. -/
theorem compare_bytes (p q : Point) : compare p.bytes q.bytes = compare p q :=
  Bytes.compare_big p.isLt q.isLt

/-- How far it is clockwise from `l` to `u`: once round if they are the same point. -/
def arcLength (l u : Point) : Nat := if u = l then count else l.distance u

theorem distance_self (l : Point) : l.distance l = 0 := by
  rw [distance_of_le (Nat.le_refl _), Nat.sub_self]

theorem distance_lt (l x : Point) : l.distance x < count := by
  have hl := l.isLt
  have hx := x.isLt
  rcases Nat.lt_or_ge x.val l.val with h | h
  · rw [distance_of_lt h]
    omega
  · rw [distance_of_le h]
    omega

theorem distance_pos (h : x ≠ l) : 0 < l.distance x := by
  have hne : x.val ≠ l.val := fun e => h (Point.ext e)
  have hl := l.isLt
  rcases Nat.lt_or_ge x.val l.val with hlt | hge
  · rw [distance_of_lt hlt]
    omega
  · rw [distance_of_le hge]
    omega

/-- Of the points but `l` those come before `u` on the way that lie between them, which is
    between the numbers of the two or outside of them. -/
theorem distance_lt_distance_iff (h : x ≠ l) :
    l.distance x < l.distance u ↔ (l < x ∧ x < u) ∨ (u < l ∧ (l < x ∨ x < u)) := by
  have hne : x.val ≠ l.val := fun e => h (Point.ext e)
  have hx := x.isLt
  have hl := l.isLt
  have hu := u.isLt
  simp only [lt_def]
  rcases Nat.lt_or_ge x.val l.val with hxl | hxl <;> rcases Nat.lt_or_ge u.val l.val with hul | hul
  · rw [distance_of_lt hxl, distance_of_lt hul]
    omega
  · rw [distance_of_lt hxl, distance_of_le hul]
    omega
  · rw [distance_of_le hxl, distance_of_lt hul]
    omega
  · rw [distance_of_le hxl, distance_of_le hul]
    omega

/-- A point that is no end of the arc lies on it if it is nearer to the lower end. -/
theorem inArc_of_ne {cl cu : Bool} (hl : x ≠ l) (hu : x ≠ u) :
    x.inArc l u cl cu = true ↔ l.distance x < l.arcLength u := by
  rw [inArc, if_neg hl, if_neg hu, arcLength]
  by_cases hul : u = l
  · subst hul
    have hcmp : compare u u = .eq := Nat.compare_eq_eq.2 rfl
    rw [if_pos rfl, hcmp]
    exact iff_of_true rfl (distance_lt _ _)
  · rw [if_neg hul, distance_lt_distance_iff hl]
    have hne : l.val ≠ u.val := fun e => hul (Point.ext e.symm)
    rcases Nat.lt_or_gt_of_ne hne with h | h
    · have hcmp : compare l u = .lt := Nat.compare_eq_lt.2 h
      rw [hcmp]
      simp only [Bool.and_eq_true, decide_eq_true_eq, lt_def]
      omega
    · have hcmp : compare l u = .gt := Nat.compare_eq_gt.2 h
      rw [hcmp]
      simp only [Bool.or_eq_true, decide_eq_true_eq, gt_iff_lt, lt_def]
      omega

theorem inArc_iff {cl cu : Bool} :
    x.inArc l u cl cu = true ↔
      (0 < l.distance x ∧ l.distance x < l.arcLength u) ∨ (x = l ∧ cl = true) ∨
        (x = u ∧ cu = true) := by
  by_cases hl : x = l
  · subst hl
    simp [inArc, distance_self]
  · by_cases hu : x = u
    · subst hu
      simp [inArc, arcLength, hl]
    · rw [inArc_of_ne hl hu]
      simp [hl, hu, distance_pos hl]

/-- The two arcs between different points, each without its beginning, have no point in common
    and leave none out. -/
theorem inArc_swap_iff (h : l ≠ u) :
    x.inArc u l false true = true ↔ ¬x.inArc l u false true = true := by
  by_cases hl : x = l
  · subst hl
    simp [inArc_iff, distance_self, h]
  · by_cases hu : x = u
    · subst hu
      simp [inArc_iff, distance_self, h.symm]
    · have hlu : l.val ≠ u.val := fun e => h (Point.ext e)
      have hxl : x.val ≠ l.val := fun e => hl (Point.ext e)
      have hxu : x.val ≠ u.val := fun e => hu (Point.ext e)
      rw [inArc_of_ne hl hu, inArc_of_ne hu hl, arcLength, arcLength, if_neg h, if_neg h.symm,
        distance_lt_distance_iff hl, distance_lt_distance_iff hu]
      simp only [lt_def]
      omega

/-- **An arc is a circular interval.** A point lies on the arc from `l` to `u` just if it is nearer
    to `l` than `u` is, going clockwise, or is an end that belongs to the arc; all this in the order
    that the bytes of the points are in. So of the two arcs between different points every point
    lies on one. -/
theorem inArc_iff_distance (x l u : Point) (closedLower closedUpper : Bool) :
    (x.inArc l u closedLower closedUpper = true ↔
      (0 < l.distance x ∧ l.distance x < l.arcLength u) ∨ (x = l ∧ closedLower = true) ∨
        (x = u ∧ closedUpper = true)) ∧
      compare l.bytes u.bytes = compare l u ∧
      (l ≠ u → (x.inArc u l false true = true ↔ ¬x.inArc l u false true = true)) :=
  ⟨inArc_iff, compare_bytes l u, inArc_swap_iff⟩

/-- The arc goes past the last point, and so does the point. -/
theorem inArc_iff_distance_past_zero :
    (Point.ofNat 6) ≠ .ofNat 2 ∧ ((Point.ofNat 0).inArc (.ofNat 2) (.ofNat 6) false true = true ↔
      ¬(Point.ofNat 0).inArc (.ofNat 6) (.ofNat 2) false true = true) := by
  have hne : (Point.ofNat 6) ≠ .ofNat 2 := by decide
  exact ⟨hne, (inArc_iff_distance (.ofNat 0) _ _ false true).2.2 hne⟩

end Point

end ReplicaRing

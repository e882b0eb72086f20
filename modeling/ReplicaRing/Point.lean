import ReplicaRing.Bytes

/-!
# Points of the ring

The ring is a circle of `2 ^ 160` points, numbered clockwise from zero. Nodes
sit at points, and so do keys; a key belongs to the first node at or after it.

A point is written as twenty bytes, the most significant first, so that the
order of points is the order of their bytes. A stretch of the circle from one
point clockwise to another is an *arc*; an arc from a point to itself is the
whole circle (`Point.inArc`).
-/

namespace ReplicaRing

/-- The number of points of the ring. -/
abbrev Point.count : Nat := 1 <<< 160

/-- A point of the ring. -/
structure Point where
  /-- The number of the point, counted clockwise. -/
  val : Nat
  isLt : val < Point.count
deriving DecidableEq, Repr

namespace Point

instance : LT Point := ⟨fun p q => p.val < q.val⟩
instance : LE Point := ⟨fun p q => p.val ≤ q.val⟩
instance (p q : Point) : Decidable (p < q) := inferInstanceAs (Decidable (p.val < q.val))
instance (p q : Point) : Decidable (p ≤ q) := inferInstanceAs (Decidable (p.val ≤ q.val))
instance : Ord Point := ⟨fun p q => compare p.val q.val⟩

theorem lt_def {p q : Point} : p < q ↔ p.val < q.val := Iff.rfl
theorem le_def {p q : Point} : p ≤ q ↔ p.val ≤ q.val := Iff.rfl

@[ext] theorem ext {p q : Point} (h : p.val = q.val) : p = q := by
  cases p; cases q; cases h; rfl

/-- The point at `n`, going round the circle as often as `n` needs. -/
def ofNat (n : Nat) : Point := ⟨n % count, Nat.mod_lt _ (by decide)⟩

/-- The point whose number the bytes spell, the most significant first. -/
def ofBytes (bs : Bytes) : Point := ofNat (Bytes.bigValue bs)

/-- The twenty bytes of a point. -/
def bytes (p : Point) : Bytes := Bytes.big 20 p.val

/-- The twenty bytes of a point in hexadecimal. -/
def hex (p : Point) : String := Bytes.hex p.bytes

/-- The bytes of a point without leading zeros, at least one byte. -/
def significant (p : Point) : Bytes :=
  match p.bytes.dropWhile (· = 0) with
  | [] => [0]
  | bs => bs

/-- How a point is shown: its first four significant bytes in hexadecimal, and
    an ellipsis if there are more. -/
def text (p : Point) : String :=
  Bytes.hex (p.significant.take 4) ++ if p.significant.length > 4 then "…" else ""

/-- The point lies on the arc that goes clockwise from `lower` to `upper`.
    Either end belongs to the arc only if it is said to be closed. If the ends
    coincide the arc is the whole circle, and their common point belongs to it
    as soon as one of them is closed. -/
def inArc (x lower upper : Point) (closedLower closedUpper : Bool) : Bool :=
  if x = lower then closedLower || (lower = upper && closedUpper)
  else if x = upper then closedUpper
  else match compare lower upper with
    | .lt => lower < x && x < upper
    | .gt => x > lower || x < upper
    | .eq => true

end Point

end ReplicaRing

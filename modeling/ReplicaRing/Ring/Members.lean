import ReplicaRing.Point

/-!
# Members of a ring

The nodes of a ring are a set of points, kept in order. Each member has two
neighbours: its *successor* is the next member clockwise and its *predecessor*
the next one the other way; a lone member has neither. A key is *owned* by the
first member at or after its point, going round past the last member to the
first.
-/

namespace ReplicaRing

/-- A set of points in order. -/
structure Members where
  toList : List Point
  sorted : toList.Pairwise (· < ·)
deriving DecidableEq

namespace Members

/-- The ring without members. -/
def empty : Members := ⟨[], .nil⟩

instance : Membership Point Members := ⟨fun m p => p ∈ m.toList⟩

theorem mem_def {m : Members} {p : Point} : p ∈ m ↔ p ∈ m.toList := Iff.rfl

instance (p : Point) (m : Members) : Decidable (p ∈ m) :=
  inferInstanceAs (Decidable (p ∈ m.toList))

/-- The number of members. -/
def size (m : Members) : Nat := m.toList.length

/-- A list in order with `p` put in its place. -/
def place (p : Point) : List Point → List Point
  | [] => [p]
  | q :: qs => if p < q then p :: q :: qs else if p = q then q :: qs else q :: place p qs

theorem mem_place {p q : Point} {qs : List Point} : q ∈ place p qs ↔ q = p ∨ q ∈ qs := by
  induction qs with
  | nil => simp [place]
  | cons r qs ih =>
    rw [place]
    split
    · simp
    · split
      · rename_i h
        subst h
        simp
      · simp only [List.mem_cons, ih]
        constructor <;> rintro (h | h | h) <;> simp [h]

theorem sorted_place {p : Point} {qs : List Point} (h : qs.Pairwise (· < ·)) :
    (place p qs).Pairwise (· < ·) := by
  induction qs with
  | nil => simp [place]
  | cons r qs ih =>
    rw [place]
    split
    · rename_i hpr
      refine List.pairwise_cons.2 ⟨fun s hs => ?_, h⟩
      rcases List.mem_cons.1 hs with rfl | hs
      · exact hpr
      · exact Nat.lt_trans hpr (List.rel_of_pairwise_cons h hs)
    · split
      · exact h
      · rename_i hpr hne
        refine List.pairwise_cons.2 ⟨fun s hs => ?_, ih (List.pairwise_cons.1 h).2⟩
        rcases mem_place.1 hs with rfl | hs
        · exact Nat.lt_of_le_of_ne (Nat.le_of_not_lt hpr) fun e => hne (Point.ext e.symm)
        · exact List.rel_of_pairwise_cons h hs

/-- The members with `p` among them. -/
def insert (m : Members) (p : Point) : Members := ⟨place p m.toList, sorted_place m.sorted⟩

/-- The members without `p`. -/
def erase (m : Members) (p : Point) : Members :=
  ⟨m.toList.filter fun q => q ≠ p, m.sorted.filter _⟩

@[simp] theorem mem_insert {m : Members} {p q : Point} : q ∈ m.insert p ↔ q = p ∨ q ∈ m :=
  mem_place

@[simp] theorem mem_erase {m : Members} {p q : Point} : q ∈ m.erase p ↔ q ∈ m ∧ q ≠ p := by
  simp [erase, mem_def]

/-- The next member clockwise from `p` that is not at `p`. -/
def successor (m : Members) (p : Point) : Option Point :=
  ((m.toList.find? fun q => p < q).or m.toList.head?).filter fun q => q ≠ p

/-- The next member counter-clockwise from `p` that is not at `p`. -/
def predecessor (m : Members) (p : Point) : Option Point :=
  ((m.toList.reverse.find? fun q => q < p).or m.toList.getLast?).filter fun q => q ≠ p

/-- The member that owns what is placed at `p`. -/
def owner (m : Members) (p : Point) : Option Point :=
  (m.toList.find? fun q => p ≤ q).or m.toList.head?

end Members

end ReplicaRing

import ReplicaRing.Space

/-!
# Keys and replicas

A key is a name placed on the ring. Every node that holds a copy of a key
gives its copy a *rank*: the owner's copy has rank 1, the copy on its
successor rank 2, and so on along the chain. A key together with a rank is a
`Replica`.

Two replicas are of the same key if the names agree; neither point nor rank
matters (`Replica.sameKey`).
-/

namespace ReplicaRing

/-- A key: its name and the point it is placed at. -/
structure Key where
  name : String
  point : Point
deriving DecidableEq, Repr

/-- How a key is shown. -/
def Key.text (key : Key) : String := key.name ++ "@" ++ key.point.text

/-- The key of the given name. -/
def Space.key (space : Space) (name : String) : Key :=
  ⟨name, space.place (Bytes.ofString name)⟩

/-- The place of a copy in its chain, counted from 1. -/
abbrev Rank := UInt32

/-- A rank below another goes up by one, and not round to zero. -/
theorem Rank.toNat_succ_of_lt {rank n : Rank} (h : rank < n) :
    (rank + 1).toNat = rank.toNat + 1 := by
  have hlt : rank.toNat < n.toNat := UInt32.lt_iff_toNat_lt.1 h
  have hn := n.toNat_lt
  rw [UInt32.toNat_add, UInt32.toNat_one]
  exact Nat.mod_eq_of_lt (by omega)

/-- A copy of a key, or the wish for one. -/
structure Replica where
  key : Key
  rank : Rank
deriving DecidableEq, Repr

namespace Replica

/-- The name of the key. -/
def name (r : Replica) : String := r.key.name

/-- The owner's copy. -/
def primary (key : Key) : Replica := ⟨key, 1⟩

/-- Both are copies of one key. -/
def sameKey (r s : Replica) : Bool := r.name = s.name

end Replica

end ReplicaRing

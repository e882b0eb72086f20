import ReplicaRing.Index.Codec

/-!
# The cache of last values

A cache remembers the tip of some keys, at most `capacity` of them. A key is
*touched* when a tip is published for it and when it is looked up with success;
the key touched longest ago makes room for a new one. A published tip replaces
the one remembered only if it is later.
-/

namespace ReplicaRing

/-- Tips of keys, with the number of lookups that found one and that did not. -/
structure Cache where
  /-- How many keys are remembered at most. -/
  capacity : Nat
  /-- The remembered keys with their tips, the one touched last first. -/
  slots : List (String × Index.Tip)
  hits : Nat
  misses : Nat
deriving Repr

namespace Cache

/-- The cache that remembers nothing yet. It has room for at least one key. -/
def empty (capacity : Nat) : Cache := ⟨max capacity 1, [], 0, 0⟩

/-- The tip remembered for `key`. -/
def peek (c : Cache) (key : String) : Option Index.Tip := c.slots.lookup key

/-- The slots with `key` in front, holding `tip`. -/
def promote (slots : List (String × Index.Tip)) (key : String) (tip : Index.Tip) :
    List (String × Index.Tip) :=
  (key, tip) :: slots.filter fun s => s.1 ≠ key

/-- Looks `key` up and counts the lookup. -/
def get (c : Cache) (key : String) : Option Index.Tip × Cache :=
  match c.peek key with
  | some tip => (some tip, { c with slots := promote c.slots key tip, hits := c.hits + 1 })
  | none => (none, { c with misses := c.misses + 1 })

/-- Remembers `tip` for `key`, unless the tip remembered is as late. -/
def publish (c : Cache) (key : String) (tip : Index.Tip) : Cache :=
  match c.peek key with
  | some old =>
    { c with slots := promote c.slots key (if old.time < tip.time then tip else old) }
  | none => { c with slots := ((key, tip) :: c.slots).take c.capacity }

/-- The number of keys remembered. -/
def size (c : Cache) : Nat := c.slots.length

end Cache

end ReplicaRing

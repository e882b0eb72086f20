import ReplicaRing.Json
import ReplicaRing.Replica

/-!
# Replicas as JSON

The written form of keys and replicas: a key is its name and the twenty bytes of
its point, a replica its key and its rank.
-/

namespace ReplicaRing

/-- The point as an array of its twenty bytes. -/
def Point.toJson (p : Point) : Json :=
  .array (p.bytes.map fun b => .ofNat b.toNat)

/-- The point that an array of twenty bytes gives. -/
def Point.ofJson? : Json → Option Point
  | .array items => do
    let bs ← items.mapM fun v => (v.nat? 256).map UInt8.ofNat
    if bs.length = 20 then some (.ofBytes bs) else none
  | _ => none

/-- The key as a record of name and point. -/
def Key.toJson (key : Key) : Json :=
  .object [(Bytes.ofString "name", .ofText key.name), (Bytes.ofString "id", key.point.toJson)]

/-- The key that a record gives. -/
def Key.ofJson? (v : Json) : Option Key := do
  match ← v.fields? ["name", "id"] with
  | [name, point] => return ⟨← name.text?, ← Point.ofJson? point⟩
  | _ => none

/-- The replica as a record of key and rank. -/
def Replica.toJson (r : Replica) : Json :=
  .object [(Bytes.ofString "key", r.key.toJson),
    (Bytes.ofString "replica_number", .ofNat r.rank.toNat)]

/-- The replica that a record gives. -/
def Replica.ofJson? (v : Json) : Option Replica := do
  match ← v.fields? ["key", "replica_number"] with
  | [key, rank] => return ⟨← Key.ofJson? key, UInt32.ofNat (← rank.nat? UInt32.size)⟩
  | _ => none

end ReplicaRing

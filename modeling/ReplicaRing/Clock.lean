import ReplicaRing.Index

/-!
# The clock

Writes are stamped with the milliseconds since the epoch. A clock that stands
before the epoch reads zero.
-/

namespace ReplicaRing

/-- The reading in milliseconds of a clock that stands `micros` microseconds
    after the epoch. -/
def Time.ofMicros (micros : Int) : Time := UInt64.ofNat (micros.fdiv 1000).toNat

end ReplicaRing

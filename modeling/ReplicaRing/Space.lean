import ReplicaRing.Point
import ReplicaRing.Digest

/-!
# Identifier spaces

A ring may use fewer than 160 bits: a *space* of width `bits` uses the points
below `2 ^ bits`. A name is placed in the space by the low bits of its digest
(`Space.place`).
-/

namespace ReplicaRing

/-- An identifier space of a given width in bits. -/
structure Space where
  bits : Nat
  one_le_bits : 1 ≤ bits
  bits_le : bits ≤ 160
deriving DecidableEq, Repr

namespace Space

/-- Why a width is refused. -/
inductive Error
  /-- The width is zero, or more than a digest has. -/
  | invalidBitWidth (bits : Nat)
deriving DecidableEq, Repr

/-- The text of the error. -/
def Error.message : Error → String
  | .invalidBitWidth bits => s!"identifier width must be in 1..=160, got {bits}"

/-- The name of the kind of error. -/
def Error.kind : Error → String
  | .invalidBitWidth _ => "InvalidBitWidth"

/-- The space of the given width. -/
def ofBits (bits : Nat) : Except Error Space :=
  if h : 1 ≤ bits ∧ bits ≤ 160 then .ok ⟨bits, h.1, h.2⟩ else .error (.invalidBitWidth bits)

/-- The lowest `k` bits of a byte. -/
def lowBitsOfByte (k : Nat) (b : UInt8) : UInt8 :=
  if 8 ≤ k then b else b &&& UInt8.ofNat (1 <<< k - 1)

/-- A string of bytes, the most significant first, with all but its lowest
    `bits` bits cleared: the bytes in front become zero, and at most one byte
    is cut. -/
def lowBits (bits : Nat) : Bytes → Bytes
  | [] => []
  | b :: bs => lowBitsOfByte (bits - 8 * bs.length) b :: lowBits bits bs

/-- The point of the space at which `data` is placed: the low bits of its
    digest. -/
def place (space : Space) (data : Bytes) : Point :=
  Point.ofBytes (lowBits space.bits (Digest.sha1 data))

end Space

end ReplicaRing

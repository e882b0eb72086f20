import ReplicaRing.Bytes

/-!
# The 32-bit cyclic redundancy check

The checksum stored beside every index record and in front of the catalog:
CRC-32 with the reflected polynomial `0xEDB88320`, all ones as the first
register and the complement of the last register as the result.

The register is advanced one bit at a time (`shift`), eight bits to a byte
(`feed`).
-/

namespace ReplicaRing.Checksum

/-- The generator polynomial with its bits reversed. -/
def generator : UInt32 := 0xEDB88320

/-- One bit leaves the register. -/
def shift (register : UInt32) : UInt32 :=
  if register &&& 1 = 1 then (register >>> 1) ^^^ generator else register >>> 1

/-- Eight bits leave the register. -/
def shift8 (register : UInt32) : UInt32 :=
  shift (shift (shift (shift (shift (shift (shift (shift register)))))))

/-- The register after the byte `b`. -/
def feed (register : UInt32) (b : UInt8) : UInt32 :=
  shift8 (register ^^^ b.toUInt32)

/-- The checksum of `bs`. -/
def crc32 (bs : Bytes) : UInt32 :=
  ~~~ bs.foldl feed 0xFFFFFFFF

/-- The checksum as it is stored: four bytes, the least significant first. -/
def stored (crc : UInt32) : Bytes := Bytes.little 4 crc.toNat

/-- The checksum that four stored bytes spell. -/
def ofStored (bs : Bytes) : UInt32 := UInt32.ofNat (Bytes.littleValue bs)

/-- The checksum as it is shown: eight hexadecimal digits after `0x`. -/
def text (crc : UInt32) : String := "0x" ++ Bytes.hex (Bytes.big 4 crc.toNat)

end ReplicaRing.Checksum

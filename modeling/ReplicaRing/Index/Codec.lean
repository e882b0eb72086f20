import ReplicaRing.Index

/-!
# The index file

An index is stored as a header of seven bytes and one record of twenty bytes for
each entry, in order. The header holds a magic word, a version and the fanout as
far as sixteen bits go; a record holds the time and the end of a value and the
checksum of both. A record checks itself, so that an entry is added by adding
bytes at the end of the file.

`Index.decode` reads a whole file. `Index.readTip` looks at no more than the
header and the last two records, which tell the last value.
-/

namespace ReplicaRing.Index

/-- The number of bytes of a header. -/
def headerLength : Nat := 7

/-- The number of bytes of a record. -/
def recordLength : Nat := 20

/-- The four bytes every index file begins with. -/
def magic : Bytes := [0x52, 0x53, 0x49, 0x58]

/-- The version of the file format. -/
def version : UInt8 := 1

/-! ## Writing -/

/-- The header of an index of the given fanout. -/
def encodeHeader (fanout : Nat) : Bytes :=
  magic ++ version :: Bytes.little 2 (min fanout 65535)

/-- Time and end of an entry as sixteen bytes. -/
def encodeFields (e : Entry) : Bytes :=
  Bytes.little 8 e.time.toNat ++ Bytes.little 8 e.stop.toNat

/-- The record of an entry. -/
def encodeRecord (e : Entry) : Bytes :=
  encodeFields e ++ Checksum.stored (Checksum.crc32 (encodeFields e))

/-- The file of an index. -/
def encode (x : Index) : Bytes :=
  encodeHeader x.fanout ++ x.toList.flatMap encodeRecord

/-! ## Reading -/

/-- The fanout that a header gives. -/
def decodeHeader (bs : Bytes) : Except Error Nat :=
  if bs.length < headerLength then .error (.corrupt (.shortHeader bs.length))
  else if bs.take 4 ≠ magic then .error (.corrupt .badMagic)
  else match bs.drop 4 with
    | v :: rest =>
      if v ≠ version then .error (.corrupt (.unsupportedVersion v))
      else .ok (Bytes.littleValue (rest.take 2))
    | [] => .error (.corrupt (.shortHeader bs.length))

/-- The entry of a record, the `i`-th of its file. -/
def decodeRecord (record : Bytes) (i : Nat) : Except Error Entry :=
  if record.length ≠ recordLength then .error (.corrupt (.recordLength i record.length))
  else
    let expected := Checksum.ofStored (record.drop 16)
    let got := Checksum.crc32 (record.take 16)
    if expected ≠ got then .error (.corrupt (.recordChecksum i expected got))
    else .ok ⟨UInt64.ofNat (Bytes.littleValue (record.take 8)),
      UInt64.ofNat (Bytes.littleValue ((record.drop 8).take 8))⟩

/-- The index grown by `n` records, the first of which is the `i`-th of the
    file. -/
def decodeRecords (x : Index) (i : Nat) : (n : Nat) → Bytes → Except Error Index
  | 0, _ => .ok x
  | n + 1, bs =>
    match decodeRecord (bs.take recordLength) i with
    | .error e => .error e
    | .ok e =>
      match x.insert e with
      | .error e => .error e
      | .ok x => decodeRecords x (i + 1) n (bs.drop recordLength)

/-- The index that a file holds. -/
def decode (bs : Bytes) : Except Error Index :=
  match decodeHeader bs with
  | .error e => .error e
  | .ok fanout =>
    let body := bs.drop headerLength
    if body.length % recordLength ≠ 0 then
      .error (.corrupt (.trailing (body.length % recordLength)))
    else decodeRecords (empty fanout) 0 (body.length / recordLength) body

/-- A value with the time it was written at. -/
structure Tip where
  time : Time
  span : Span
deriving DecidableEq, Repr

/-- The tip of the last of `count` records, given as the last two. -/
def tipOfTwo (count : Nat) (before last : Bytes) : Except Error Tip :=
  match decodeRecord last (count - 1) with
  | .error e => .error e
  | .ok l =>
    match decodeRecord before (count - 2) with
    | .error e => .error e
    | .ok b =>
      match refusal? (some b) l with
      | some e => .error e
      | none => .ok ⟨l.time, b.stop, l.stop⟩

/-- The last value that an index file tells of, read off its tail. -/
def readTip (bs : Bytes) : Except Error (Option Tip) :=
  match decodeHeader bs with
  | .error e => .error e
  | .ok _ =>
    let body := bs.length - headerLength
    if body % recordLength ≠ 0 then .error (.corrupt (.trailing (body % recordLength)))
    else match body / recordLength with
      | 0 => .ok none
      | 1 =>
        match decodeRecord (bs.drop headerLength) 0 with
        | .error e => .error e
        | .ok e => .ok (some ⟨e.time, 0, e.stop⟩)
      | count + 2 =>
        let tail := bs.drop (bs.length - 2 * recordLength)
        (tipOfTwo (count + 2) (tail.take recordLength) (tail.drop recordLength)).map some

end ReplicaRing.Index

import ReplicaRing.Bytes

/-!
# The 160-bit secure hash

The SHA-1 digest, which places keys and nodes on the ring and names the files
of a key. A message is padded to whole blocks of sixteen 32-bit words; each
block is mixed into five chaining words in eighty rounds. The schedule of a
block is a window of sixteen words: every round takes the oldest word and adds
the one computed from four others.
-/

namespace ReplicaRing.Digest

/-- The word `x` rotated left by `n` bits. -/
def rotate (x : UInt32) (n : UInt32) : UInt32 := (x <<< n) ||| (x >>> (32 - n))

/-- The five words carried from block to block. -/
structure Chain where
  a : UInt32
  b : UInt32
  c : UInt32
  d : UInt32
  e : UInt32
deriving DecidableEq, Repr

/-- The chaining words before the first block. -/
def Chain.first : Chain :=
  ⟨0x67452301, 0xEFCDAB89, 0x98BADCFE, 0x10325476, 0xC3D2E1F0⟩

/-- Word-wise sum. -/
def Chain.add (x y : Chain) : Chain :=
  ⟨x.a + y.a, x.b + y.b, x.c + y.c, x.d + y.d, x.e + y.e⟩

/-- The mixing function and the constant of round `t`. -/
def mixing (t : Nat) (b c d : UInt32) : UInt32 × UInt32 :=
  if t < 20 then ((b &&& c) ||| (~~~ b &&& d), 0x5A827999)
  else if t < 40 then (b ^^^ c ^^^ d, 0x6ED9EBA1)
  else if t < 60 then ((b &&& c) ||| (b &&& d) ||| (c &&& d), 0x8F1BBCDC)
  else (b ^^^ c ^^^ d, 0xCA62C1D6)

/-- Round `t` with the schedule word `w`. -/
def round (t : Nat) (w : UInt32) (x : Chain) : Chain :=
  let (f, k) := mixing t x.b x.c x.d
  ⟨rotate x.a 5 + f + x.e + k + w, x.a, rotate x.b 30, x.c, x.d⟩

/-- The schedule window one round later: its oldest word is dropped, and the
    word following the newest is added. -/
def slide (window : List UInt32) : List UInt32 :=
  let word (i : Nat) := window.getD i 0
  window.drop 1 ++ [rotate (word 13 ^^^ word 8 ^^^ word 2 ^^^ word 0) 1]

/-- The last `n` of the eighty rounds. -/
def rounds : Nat → List UInt32 → Chain → Chain
  | 0, _, x => x
  | n + 1, window, x => rounds n (slide window) (round (79 - n) (window.headD 0) x)

/-- The chaining words after a block. -/
def absorb (x : Chain) (block : List UInt32) : Chain :=
  x.add (rounds 80 block x)

/-- The message, a one bit, zeros, and its length in bits as eight bytes: a
    whole number of blocks of 64 bytes. -/
def pad (message : Bytes) : Bytes :=
  message ++ 0x80 :: (List.replicate ((119 - message.length % 64) % 64) 0 ++
    Bytes.big 8 (8 * message.length))

/-- Consecutive runs of four bytes as words, the most significant byte first. -/
def words : Bytes → List UInt32
  | a :: b :: c :: d :: rest =>
    UInt32.ofNat (Bytes.bigValue [a, b, c, d]) :: words rest
  | _ => []

/-- The chaining words after `n` blocks. -/
def absorbAll : Nat → List UInt32 → Chain → Chain
  | 0, _, x => x
  | n + 1, ws, x => absorbAll n (ws.drop 16) (absorb x (ws.take 16))

/-- The five words of a chain as twenty bytes. -/
def Chain.bytes (x : Chain) : Bytes :=
  [x.a, x.b, x.c, x.d, x.e].flatMap fun w => Bytes.big 4 w.toNat

/-- The SHA-1 digest of `message`, twenty bytes. -/
def sha1 (message : Bytes) : Bytes :=
  let ws := words (pad message)
  (absorbAll (ws.length / 16) ws Chain.first).bytes

@[simp] theorem length_sha1 (message : Bytes) : (sha1 message).length = 20 := by
  simp [sha1, Chain.bytes, List.flatMap]

end ReplicaRing.Digest

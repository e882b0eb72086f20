import ReplicaRing.Digits

/-!
# Byte strings

Values, file contents and digests are lists of bytes. Numbers of fixed width
are written into them with the least significant byte first (`little`), as in
the index and catalog files, or with the most significant byte first (`big`),
as in ring points and digests.

Main statements: a number below `span w` is read back from its `w` bytes
(`littleValue_little_of_lt`), and bytes are written back from the number they
spell (`little_littleValue`).
-/

namespace ReplicaRing

/-- A string of bytes. -/
abbrev Bytes := List UInt8

namespace Bytes

/-! ## Numbers -/

/-- The lowest `w` base-256 digits of `n`, the least significant first. -/
def little : Nat → Nat → Bytes
  | 0, _ => []
  | w + 1, n => UInt8.ofNat (n % 256) :: little w (n / 256)

/-- The number whose base-256 digits are `bs`, the least significant first. -/
def littleValue : Bytes → Nat
  | [] => 0
  | b :: bs => b.toNat + 256 * littleValue bs

/-- The lowest `w` base-256 digits of `n`, the most significant first. -/
def big (w n : Nat) : Bytes := (little w n).reverse

/-- The number whose base-256 digits are `bs`, the most significant first. -/
def bigValue (bs : Bytes) : Nat := littleValue bs.reverse

/-- How many numbers `w` bytes can spell. -/
def span : Nat → Nat
  | 0 => 1
  | w + 1 => 256 * span w

@[simp] theorem length_little (w n : Nat) : (little w n).length = w := by
  induction w generalizing n with
  | zero => rfl
  | succ w ih => simp [little, ih]

@[simp] theorem length_big (w n : Nat) : (big w n).length = w := by simp [big]

theorem littleValue_little (w n : Nat) : littleValue (little w n) = n % span w := by
  induction w generalizing n with
  | zero => simp [little, littleValue, span, Nat.mod_one]
  | succ w ih =>
    have hb : (UInt8.ofNat (n % 256)).toNat = n % 256 := by simp
    rw [little, littleValue, hb, ih, span, Nat.mod_mul]

theorem littleValue_little_of_lt {w n : Nat} (h : n < span w) :
    littleValue (little w n) = n := by
  rw [littleValue_little, Nat.mod_eq_of_lt h]

theorem littleValue_lt (bs : Bytes) : littleValue bs < span bs.length := by
  induction bs with
  | nil => simp [littleValue, span]
  | cons b bs ih =>
    have hb : b.toNat < 256 := b.toNat_lt
    rw [littleValue, List.length_cons, span]
    omega

theorem little_littleValue (bs : Bytes) : little bs.length (littleValue bs) = bs := by
  induction bs with
  | nil => rfl
  | cons b bs ih =>
    have hb : b.toNat < 256 := b.toNat_lt
    have h₁ : (b.toNat + 256 * littleValue bs) % 256 = b.toNat := by omega
    have h₂ : (b.toNat + 256 * littleValue bs) / 256 = littleValue bs := by omega
    rw [List.length_cons, littleValue, little, h₁, h₂, ih]
    simp

/-! ## Text -/

/-- The hexadecimal digit `0`–`9`, `a`–`f` of a number below 16. -/
def hexDigit (n : Nat) : Char :=
  if n < 10 then Char.ofNat (n + 48) else Char.ofNat (n + 87)

/-- Two lowercase hexadecimal digits for each byte. -/
def hexDigits (bs : Bytes) : List Char :=
  bs.flatMap fun b => [hexDigit (b.toNat / 16), hexDigit (b.toNat % 16)]

/-- The lowercase hexadecimal text of `bs`. -/
def hex (bs : Bytes) : String := String.ofList (hexDigits bs)

/-- The bytes that hexadecimal digits spell, two digits for each. -/
def ofHexDigits? : List Char → Option Bytes
  | [] => some []
  | [_] => none
  | a :: b :: rest => do
    let n ← Digits.number? 16 [a, b]
    return UInt8.ofNat n :: (← ofHexDigits? rest)

theorem value?_hexDigit : ∀ n, n < 16 → Digits.value? 16 (hexDigit n) = some n := by decide

theorem ofHexDigits?_hexDigits (bs : Bytes) : ofHexDigits? (hexDigits bs) = some bs := by
  induction bs with
  | nil => rfl
  | cons b bs ih =>
    have hb : b.toNat < 256 := b.toNat_lt
    have hi : Digits.value? 16 (hexDigit (b.toNat / 16)) = some (b.toNat / 16) :=
      value?_hexDigit _ (by omega)
    have lo : Digits.value? 16 (hexDigit (b.toNat % 16)) = some (b.toNat % 16) :=
      value?_hexDigit _ (by omega)
    have hn : b.toNat / 16 * 16 + b.toNat % 16 = b.toNat := by omega
    rw [hexDigits] at ih
    simp [hexDigits, ofHexDigits?, Digits.number?, hi, lo, hn, ih]

/-- The UTF-8 bytes of `s`. -/
def ofString (s : String) : Bytes := s.toByteArray.data.toList

/-- The text whose UTF-8 bytes are `bs`, if they are valid UTF-8. -/
def toString? (bs : Bytes) : Option String := String.fromUTF8? ⟨bs.toArray⟩

@[simp] theorem toString?_ofString (s : String) : toString? (ofString s) = some s := by
  simp [toString?, ofString, String.fromUTF8?, String.fromUTF8, s.isValidUTF8]

end Bytes

end ReplicaRing

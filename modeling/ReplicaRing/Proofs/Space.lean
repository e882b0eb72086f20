import Mathlib.Tactic
import ReplicaRing.Address
import ReplicaRing.Replica

/-!
# Points of a space

A space of `bits` bits is what is left of the ring if numbers are taken modulo `2 ^ bits`. That a
string of bytes is masked byte by byte comes to the same: of a byte and the bytes behind it, either
the byte is cut and those behind it stay, or it is cleared and only those behind it count
(`Bytes.bigValue_lowBits`).

Main statement: a name is placed at its digest modulo the size of the space
(`Space.place_eq_mod`).
-/

namespace ReplicaRing

namespace Bytes

open Space (lowBits lowBitsOfByte)

theorem span_eq_two_pow (w : Nat) : span w = 2 ^ (8 * w) := by
  induction w with
  | zero => rfl
  | succ w ih => rw [span, ih, Nat.mul_succ, Nat.pow_add, Nat.mul_comm]

theorem littleValue_concat (bs : Bytes) (b : UInt8) :
    littleValue (bs ++ [b]) = b.toNat * span bs.length + littleValue bs := by
  induction bs with
  | nil => simp [littleValue, span]
  | cons c bs ih =>
    rw [List.cons_append, littleValue, ih, littleValue, List.length_cons, span]
    ring

theorem bigValue_cons (b : UInt8) (bs : Bytes) :
    bigValue (b :: bs) = b.toNat * span bs.length + bigValue bs := by
  rw [bigValue, List.reverse_cons, littleValue_concat, List.length_reverse, bigValue]

theorem bigValue_lt (bs : Bytes) : bigValue bs < span bs.length := by
  rw [bigValue, ← List.length_reverse]
  exact littleValue_lt _

theorem bigValue_big (w n : Nat) : bigValue (big w n) = n % span w := by
  rw [bigValue, big, List.reverse_reverse, littleValue_little]

/-! ## Masking -/

theorem toNat_lowBitsOfByte (k : Nat) (b : UInt8) :
    (lowBitsOfByte k b).toNat = b.toNat % 2 ^ k := by
  have hb : b.toNat < 2 ^ 8 := b.toNat_lt
  rw [lowBitsOfByte]
  split
  · rename_i hk
    exact (Nat.mod_eq_of_lt (hb.trans_le (Nat.pow_le_pow_right Nat.two_pos hk))).symm
  · rename_i hk
    have hmask : 2 ^ k ≤ 2 ^ 8 := Nat.pow_le_pow_right Nat.two_pos (Nat.le_of_not_le hk)
    rw [UInt8.toNat_and, Nat.one_shiftLeft, UInt8.toNat_ofNat', Nat.mod_eq_of_lt (by omega),
      Nat.and_two_pow_sub_one_eq_mod]

@[simp] theorem length_lowBits (bits : Nat) (bs : Bytes) :
    (lowBits bits bs).length = bs.length := by
  induction bs with
  | nil => rfl
  | cons b bs ih => rw [lowBits, List.length_cons, ih, List.length_cons]

/-- Of a number in two parts, modulo a multiple of the size of the lower one. -/
theorem mul_add_mod_mul {s v : Nat} (h : v < s) (b m : Nat) :
    (b * s + v) % (s * m) = b % m * s + v := by
  rw [Nat.mul_comm b s, Nat.mod_mul, Nat.mul_add_mod, Nat.mod_eq_of_lt h,
    Nat.mul_add_div (Nat.zero_lt_of_lt h), Nat.div_eq_of_lt h, Nat.add_zero, Nat.add_comm,
    Nat.mul_comm s]

/-- Masking is reduction modulo a power of two. -/
theorem bigValue_lowBits (bits : Nat) (bs : Bytes) :
    bigValue (lowBits bits bs) = bigValue bs % 2 ^ bits := by
  induction bs with
  | nil => simp [lowBits, bigValue, littleValue]
  | cons b bs ih =>
    have hlt : bigValue bs < 2 ^ (8 * bs.length) := span_eq_two_pow bs.length ▸ bigValue_lt bs
    rw [lowBits, bigValue_cons, bigValue_cons, ih, length_lowBits, toNat_lowBitsOfByte,
      span_eq_two_pow]
    rcases Nat.le_total (8 * bs.length) bits with hle | hle
    · -- The bytes behind this one stay as they are.
      obtain ⟨k, rfl⟩ := Nat.exists_eq_add_of_le hle
      have hstay : bigValue bs < 2 ^ (8 * bs.length + k) :=
        hlt.trans_le (Nat.pow_le_pow_right Nat.two_pos hle)
      rw [Nat.mod_eq_of_lt hstay, Nat.add_sub_cancel_left, Nat.pow_add, mul_add_mod_mul hlt]
    · -- This byte is cleared, and it stands for a multiple of the modulus.
      have hdvd : 2 ^ bits ∣ b.toNat * 2 ^ (8 * bs.length) :=
        Dvd.dvd.mul_left (Nat.pow_dvd_pow 2 hle) _
      rw [Nat.sub_eq_zero_of_le hle, Nat.pow_zero, Nat.mod_one, Nat.zero_mul, Nat.zero_add,
        Nat.add_mod, Nat.mod_eq_zero_of_dvd hdvd, Nat.zero_add, Nat.mod_mod]

/-- Of three bytes the first is cleared, the second cut and the third left as it is. -/
example : lowBits 13 [0xAB, 0xFF, 0x01] = [0x00, 0x1F, 0x01] := by decide

end Bytes

/-- The bytes of a point spell its number. -/
theorem Point.bigValue_bytes (p : Point) : Bytes.bigValue p.bytes = p.val := by
  have hspan : Bytes.span 20 = count := by decide
  rw [bytes, Bytes.bigValue_big, hspan, Nat.mod_eq_of_lt p.isLt]

namespace Space

variable (space : Space) (data : Bytes)

theorem size_le_count : 2 ^ space.bits ≤ Point.count := by
  rw [Point.count, Nat.one_shiftLeft]
  exact Nat.pow_le_pow_right Nat.two_pos space.bits_le

theorem val_place :
    (space.place data).val = Bytes.bigValue (Digest.sha1 data) % 2 ^ space.bits := by
  rw [place, Point.ofBytes, Point.ofNat, Bytes.bigValue_lowBits]
  exact Nat.mod_eq_of_lt ((Nat.mod_lt _ (Nat.two_pow_pos _)).trans_le space.size_le_count)

theorem val_place_lt : (space.place data).val < 2 ^ space.bits :=
  space.val_place data ▸ Nat.mod_lt _ (Nat.two_pow_pos _)

/-- **Masking is reduction modulo the size of the space.** The bytes of the point at which data is
    placed spell the number that the bytes of its digest spell, modulo `2 ^ bits`: the bits below
    that are those of the digest, and there are none above. So all keys and all nodes are at points
    of the space. -/
theorem place_eq_mod :
    Bytes.bigValue (space.place data).bytes =
        Bytes.bigValue (Digest.sha1 data) % 2 ^ space.bits ∧
      (∀ i, (space.place data).val.testBit i =
        (decide (i < space.bits) && (Bytes.bigValue (Digest.sha1 data)).testBit i)) ∧
      (space.place data).val < 2 ^ space.bits ∧
      (∀ name, (space.key name).point.val < 2 ^ space.bits) ∧
      ∀ address, (space.node address).val < 2 ^ space.bits := by
  refine ⟨?_, fun i => ?_, space.val_place_lt data, fun name => space.val_place_lt _,
    fun address => space.val_place_lt _⟩
  · rw [Point.bigValue_bytes, val_place]
  · rw [val_place, Nat.testBit_mod_two_pow]

end Space

end ReplicaRing

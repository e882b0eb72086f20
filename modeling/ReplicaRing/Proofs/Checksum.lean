import Mathlib.Tactic
import ReplicaRing.Checksum

/-!
# What a checksum tells apart

Nothing is lost as bytes go through the register: what was in the register can be told from what is
in it after a byte (`Checksum.feed_left_injective`), and so can the byte from the register before
and after it (`Checksum.feed_right_injective`). So two byte strings that differ in one byte have
different checksums, wherever the byte is and however many others there are
(`Checksum.crc32_set_ne`).
-/

namespace ReplicaRing.Checksum

theorem toNat_and_one (r : UInt32) : (r &&& 1).toNat = r.toNat % 2 := by
  rw [UInt32.toNat_and]
  exact Nat.and_one_is_mod _

theorem toNat_shiftRight_one (r : UInt32) : (r >>> 1).toNat = r.toNat / 2 := by
  rw [UInt32.toNat_shiftRight]
  exact Nat.shiftRight_eq_div_pow _ 1

/-- The bit that leaves the register is seen at its other end afterwards. -/
theorem testBit_shift (r : UInt32) : (shift r).toNat.testBit 31 = decide (r &&& 1 = 1) := by
  have hhalf : (r >>> 1).toNat.testBit 31 = false := by
    refine Nat.testBit_lt_two_pow ?_
    have hr := r.toNat_lt
    rw [toNat_shiftRight_one]
    omega
  rw [shift]
  split_ifs with h
  · rw [UInt32.toNat_xor, Nat.testBit_xor, hhalf, decide_eq_true h]
    decide
  · rw [hhalf, decide_eq_false h]

/-- A register is told by the bit that leaves it and the others. -/
theorem eq_of_shiftRight_eq {r s : UInt32} (hbit : r &&& 1 = 1 ↔ s &&& 1 = 1)
    (h : r >>> 1 = s >>> 1) : r = s := by
  have h := congrArg UInt32.toNat h
  simp only [← UInt32.toNat_inj, toNat_and_one, show (1 : UInt32).toNat = 1 from rfl] at hbit
  rw [toNat_shiftRight_one, toNat_shiftRight_one] at h
  exact UInt32.toNat_inj.1 (by omega)

theorem shift_injective : Function.Injective shift := by
  intro r s h
  have hbit : r &&& 1 = 1 ↔ s &&& 1 = 1 := by
    rw [← decide_eq_decide, ← testBit_shift, h, testBit_shift]
  refine eq_of_shiftRight_eq hbit ?_
  rw [shift, shift] at h
  split_ifs at h with hr hs hs
  · exact (UInt32.xor_left_inj _).1 h
  · exact absurd (hbit.1 hr) hs
  · exact absurd (hbit.2 hs) hr
  · exact h

theorem shift8_injective : Function.Injective shift8 := fun _ _ h => by
  iterate 8 apply shift_injective
  exact h

theorem feed_left_injective (b : UInt8) : Function.Injective fun r => feed r b := fun _ _ h =>
  (UInt32.xor_left_inj _).1 (shift8_injective h)

theorem feed_right_injective (r : UInt32) : Function.Injective (feed r) := fun _ _ h =>
  UInt8.toUInt32_inj.1 ((UInt32.xor_right_inj _).1 (shift8_injective h))

theorem foldl_feed_injective (bs : Bytes) : Function.Injective fun r => bs.foldl feed r := by
  induction bs with
  | nil => exact fun _ _ h => h
  | cons b bs ih => exact ih.comp (feed_left_injective b)

/-- **One changed byte changes the checksum.** -/
theorem crc32_set_ne {bs : Bytes} {i : Nat} {b : UInt8} (hi : i < bs.length) (hb : bs[i] ≠ b) :
    crc32 (bs.set i b) ≠ crc32 bs := by
  intro h
  rw [crc32, crc32, UInt32.not_inj, List.set_eq_take_cons_drop _ hi] at h
  conv_rhs at h => rw [← List.take_append_drop i bs, List.drop_eq_getElem_cons hi]
  -- Up to the byte the registers are the same, and what comes after it keeps them apart.
  rw [List.foldl_append, List.foldl_append, List.foldl_cons, List.foldl_cons] at h
  exact hb (feed_right_injective _ (foldl_feed_injective _ h)).symm

end ReplicaRing.Checksum

import Mvcc.Data.Crc32c
import Mathlib.Logic.Function.Basic

/-!
# CRC-32C

Shifting the register and absorbing a byte are injective. So two messages of one length that differ
in one byte have different checksums.
-/

namespace Mvcc.Crc32c

theorem and_one_eq_one_iff (register : UInt32) :
    register &&& 1 = 1 ↔ register.toBitVec.getLsbD 0 = true := by
  have hlow : (register &&& 1).toBitVec =
      BitVec.setWidth 32 (BitVec.ofBool (register.toBitVec.getLsbD 0)) := by
    rw [UInt32.toBitVec_and]
    exact BitVec.and_one_eq_setWidth_ofBool_getLsbD
  rw [← UInt32.toBitVec_inj, hlow]
  cases register.toBitVec.getLsbD 0 <;> decide

/-- Every bit moves down by one, and the polynomial is added if the lowest one was set. -/
theorem getLsbD_shiftBit (register : UInt32) (i : Nat) :
    (shiftBit register).toBitVec.getLsbD i =
      (register.toBitVec.getLsbD (i + 1) ^^
        (register.toBitVec.getLsbD 0 && polynomial.toBitVec.getLsbD i)) := by
  have hshift : (register >>> 1).toBitVec.getLsbD i = register.toBitVec.getLsbD (i + 1) := by
    simp [Nat.add_comm]
  unfold shiftBit
  by_cases hlow : register &&& 1 = 1
  · rw [if_pos hlow, UInt32.toBitVec_xor, BitVec.getLsbD_xor, hshift,
      (and_one_eq_one_iff register).1 hlow, Bool.true_and]
  · have hclear : register.toBitVec.getLsbD 0 = false := by
      simpa using mt (and_one_eq_one_iff register).2 hlow
    rw [if_neg hlow, hshift, hclear, Bool.false_and, Bool.xor_false]

/-- The highest bit of the polynomial is set, and clear in a shifted register. So it tells whether
the polynomial was added, which is the lowest bit before. -/
theorem shiftBit_injective : Function.Injective shiftBit := by
  intro a b h
  have hbit (i : Nat) :
      (a.toBitVec.getLsbD (i + 1) ^^ (a.toBitVec.getLsbD 0 && polynomial.toBitVec.getLsbD i)) =
        (b.toBitVec.getLsbD (i + 1) ^^
          (b.toBitVec.getLsbD 0 && polynomial.toBitVec.getLsbD i)) := by
    rw [← getLsbD_shiftBit, h, getLsbD_shiftBit]
  have hlow : a.toBitVec.getLsbD 0 = b.toBitVec.getLsbD 0 := by
    have htop := hbit 31
    rw [show polynomial.toBitVec.getLsbD 31 = true by decide] at htop
    simpa using htop
  apply UInt32.toBitVec_inj.1
  apply BitVec.eq_of_getLsbD_eq
  intro i _
  cases i with
  | zero => exact hlow
  | succ i =>
    have hnext := hbit i
    rw [hlow] at hnext
    simpa using hnext

theorem shiftBits_injective (count : Nat) : Function.Injective (shiftBits count) := by
  induction count with
  | zero => exact fun _ _ h => h
  | succ count ih => exact ih.comp shiftBit_injective

theorem feed_injective (byte : UInt8) : Function.Injective fun register => feed register byte := by
  intro a b h
  exact (UInt32.xor_left_inj _).1 (shiftBits_injective 8 h)

theorem feed_byte_injective (register : UInt32) : Function.Injective (feed register) := by
  intro x y h
  have hword : x.toUInt32 = y.toUInt32 := (UInt32.xor_right_inj _).1 (shiftBits_injective 8 h)
  exact UInt8.toNat_inj.1 (by simpa using congrArg UInt32.toNat hword)

theorem foldl_feed_injective (bytes : Bytes) :
    Function.Injective fun register => bytes.foldl feed register := by
  induction bytes with
  | nil => exact fun _ _ h => h
  | cons byte rest ih => exact ih.comp (feed_injective byte)

/-- Messages that differ in one byte have different checksums. -/
theorem checksum_inj_middle (front back : Bytes) {x y : UInt8} :
    checksum (front ++ x :: back) = checksum (front ++ y :: back) ↔ x = y := by
  constructor
  · intro h
    simp only [checksum, append, List.foldl_append, List.foldl_cons] at h
    exact feed_byte_injective _ (foldl_feed_injective back ((UInt32.xor_left_inj _).1 h))
  · intro h
    rw [h]

/-- One byte of a message cannot be changed without changing the checksum. -/
theorem checksum_set_eq_iff {bytes : Bytes} {place : Nat} (hplace : place < bytes.length)
    (byte : UInt8) : checksum (bytes.set place byte) = checksum bytes ↔ byte = bytes[place] := by
  have hsplit : bytes.take place ++ bytes[place] :: bytes.drop (place + 1) = bytes := by
    simp
  rw [List.set_eq_take_append_cons_drop, if_pos hplace]
  conv => lhs; rhs; rw [← hsplit]
  exact checksum_inj_middle _ _

/-- The check value of this checksum, that of the digits from one to nine. -/
example : checksum [0x31, 0x32, 0x33, 0x34, 0x35, 0x36, 0x37, 0x38, 0x39] = 0xE3069283 := by
  decide +kernel

end Mvcc.Crc32c

/-!
# Saturating arithmetic on 64-bit words

Timestamps and millisecond counts are 64-bit words. Where a bound is computed from two of them the
result stays at the end of the range instead of wrapping around.
-/

namespace Mvcc.Word

def greatest : UInt64 := 0xFFFFFFFFFFFFFFFF

def addCapped (a b : UInt64) : UInt64 :=
  if a + b < a then greatest else a + b

def subFloored (a b : UInt64) : UInt64 :=
  if a < b then 0 else a - b

theorem toNat_max (a b : UInt64) : (max a b).toNat = max a.toNat b.toNat := by
  change (if a ≤ b then b else a).toNat = _
  by_cases h : a ≤ b
  · rw [if_pos h, Nat.max_eq_right (UInt64.le_iff_toNat_le.1 h)]
  · have hle : ¬ a.toNat ≤ b.toNat := fun hle => h (UInt64.le_iff_toNat_le.2 hle)
    rw [if_neg h, Nat.max_eq_left (by omega)]

theorem subFloored_toNat (a b : UInt64) : (subFloored a b).toNat = a.toNat - b.toNat := by
  unfold subFloored
  split
  · rename_i h
    have := UInt64.lt_iff_toNat_lt.1 h
    simp
    omega
  · rename_i h
    rw [UInt64.toNat_sub_of_le _ _ (by simpa using h)]

theorem addCapped_toNat (a b : UInt64) :
    (addCapped a b).toNat = min (a.toNat + b.toNat) (UInt64.size - 1) := by
  have ha := a.toNat_lt
  have hb := b.toNat_lt
  have hsum : (a + b).toNat = (a.toNat + b.toNat) % UInt64.size := UInt64.toNat_add a b
  have hsize : UInt64.size = 18446744073709551616 := rfl
  have hgreatest : greatest.toNat = 18446744073709551615 := rfl
  unfold addCapped
  by_cases h : a.toNat + b.toNat < UInt64.size
  · rw [Nat.mod_eq_of_lt h] at hsum
    rw [if_neg (by rw [UInt64.lt_iff_toNat_lt]; omega), hsum]
    omega
  · rw [Nat.mod_eq_sub_mod (by omega), Nat.mod_eq_of_lt (by omega)] at hsum
    rw [if_pos (by rw [UInt64.lt_iff_toNat_lt]; omega)]
    omega

end Mvcc.Word

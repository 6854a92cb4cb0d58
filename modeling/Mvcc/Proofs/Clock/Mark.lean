import Mvcc.Clock.Oracle
import Mvcc.Proofs.Data.BigEndian
import Mvcc.Proofs.Data.Except

/-!
# Stored marks

A load returns the stored mark, and a reserved block contains the timestamp that it begins with.
-/

namespace Mvcc

namespace MarkFile

theorem decode_encode (path : String) (value : Timestamp) :
    decode path (encode value) = .ok value := by
  have hword := BigEndian.ofWord_length value
  have hfront : (encode value).take 8 = BigEndian.ofWord value := List.take_left' hword
  have hback : (encode value).drop 8 = sumBytes (BigEndian.ofWord value) := List.drop_left' hword
  have hlength : (encode value).length = length := by
    rw [encode, List.length_append, hword, sumBytes, BigEndian.encode_length]
    rfl
  rw [decode, if_neg (by simp [hlength]), hfront, hback, if_neg (by simp)]
  rw [BigEndian.toWord_ofWord]

end MarkFile

namespace Mark

variable {mark mark' : Mark} {before value : Timestamp}

theorem load_of_store (hload : mark.load = .ok before) (hle : before ≤ value)
    (hstore : mark.store value = .ok mark') : mark'.load = .ok value := by
  cases mark with
  | memory cell =>
    simp only [store, MemoryMark.store] at hstore
    cases hfailing : cell.failing with
    | true => simp [hfailing, Except.map] at hstore
    | false =>
      simp [hfailing, Except.map] at hstore
      subst hstore
      cases hload
      have hmax : max cell.value value = value := if_pos hle
      rw [load, hmax]
  | file kept =>
    have hmark : mark' = .file { kept with content := .bytes (MarkFile.encode value) } := by
      simp only [store, MarkFile.store, MarkFile.overwrite] at hstore
      cases hcontent : kept.content <;> simp [hcontent, Except.map] at hstore <;> exact hstore.symm
    rw [hmark]
    exact Except.mapError_eq_ok_iff.2 (MarkFile.decode_encode kept.path value)

end Mark

namespace Oracle

theorem le_blockEnd (o : Oracle) {time : Timestamp} (h : time ≤ Timestamp.greatest) :
    time ≤ o.blockEnd time := by
  have hsum : time ≤ Word.addCapped time (o.blockSize - 1) := by
    have hlt : time.toNat < UInt64.size := time.toNat_lt
    rw [UInt64.le_iff_toNat_le, Word.addCapped_toNat]
    omega
  show time ≤ if _ ≤ Timestamp.greatest then _ else Timestamp.greatest
  split
  · exact hsum
  · exact h

theorem blockEnd_le (o : Oracle) (time : Timestamp) : o.blockEnd time ≤ Timestamp.greatest := by
  show (if _ ≤ Timestamp.greatest then _ else Timestamp.greatest) ≤ Timestamp.greatest
  split
  · assumption
  · exact UInt64.le_refl _

end Oracle

end Mvcc

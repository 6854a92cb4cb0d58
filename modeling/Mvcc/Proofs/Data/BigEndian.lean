import Mathlib.Algebra.Group.Nat.Defs
import Mvcc.Data.Bytes

/-!
# Big-endian numbers

Encoding and decoding are inverse between byte strings of one length and numbers below a power of
256, and preserve the order.
-/

namespace Mvcc.BigEndian

/-! ## Reading -/

@[simp] theorem decode_nil : decode [] = 0 := rfl

theorem decode_append (front : Bytes) (byte : UInt8) :
    decode (front ++ [byte]) = 256 * decode front + byte.toNat := by
  simp [decode]

private theorem foldl_eq (bytes : Bytes) (start : Nat) :
    bytes.foldl (fun value byte => 256 * value + byte.toNat) start =
      start * 256 ^ bytes.length + decode bytes := by
  induction bytes generalizing start with
  | nil => simp
  | cons byte rest ih =>
    rw [decode, List.foldl_cons, List.foldl_cons, ih, ih (256 * 0 + _), List.length_cons,
      Nat.pow_succ, Nat.add_mul, Nat.add_mul]
    have h : 256 * start * 256 ^ rest.length = start * (256 ^ rest.length * 256) := by
      rw [Nat.mul_comm 256 start, Nat.mul_assoc, Nat.mul_comm 256]
    omega

theorem decode_cons (byte : UInt8) (rest : Bytes) :
    decode (byte :: rest) = byte.toNat * 256 ^ rest.length + decode rest := by
  rw [decode, List.foldl_cons, foldl_eq]
  simp

theorem decode_lt (bytes : Bytes) : decode bytes < 256 ^ bytes.length := by
  induction bytes with
  | nil => simp
  | cons byte rest ih =>
    have hbyte := byte.toNat_lt
    have hfront : byte.toNat * 256 ^ rest.length ≤ 255 * 256 ^ rest.length :=
      Nat.mul_le_mul_right _ (by omega)
    rw [decode_cons, List.length_cons, Nat.pow_succ]
    omega

/-! ## Reading encoded values -/

theorem decode_encode (width value : Nat) : decode (encode width value) = value % 256 ^ width := by
  induction width generalizing value with
  | zero => simp [encode, Nat.mod_one]
  | succ width ih =>
    rw [encode, decode_append, ih, Nat.pow_succ, Nat.mul_comm (256 ^ width), Nat.mod_mul]
    simp
    omega

theorem encode_decode (bytes : Bytes) : encode bytes.length (decode bytes) = bytes := by
  induction hwidth : bytes.length generalizing bytes with
  | zero => simp [List.length_eq_zero_iff.1 hwidth, encode]
  | succ width ih =>
    have hne : bytes ≠ [] := by
      rintro rfl
      simp at hwidth
    have hsplit := List.dropLast_concat_getLast hne
    have hlen : bytes.dropLast.length = width := by simp [hwidth]
    have hbyte := (bytes.getLast hne).toNat_lt
    rw [← hsplit, decode_append, encode]
    congr 1
    · rw [show (256 * decode bytes.dropLast + (bytes.getLast hne).toNat) / 256 =
        decode bytes.dropLast by omega, ih _ hlen]
    · have hlow : UInt8.ofNat (256 * decode bytes.dropLast + (bytes.getLast hne).toNat) =
          bytes.getLast hne := by
        apply UInt8.toNat_inj.1
        simp
      rw [hlow]

@[simp] theorem toWord_ofWord (word : UInt64) : toWord (ofWord word) = word := by
  have hword := word.toNat_lt
  rw [toWord, ofWord, decode_encode, Nat.mod_eq_of_lt (by simpa using hword)]
  simp

theorem ofWord_toWord {bytes : Bytes} (h : bytes.length = 8) : ofWord (toWord bytes) = bytes := by
  have hlt := decode_lt bytes
  have hround := encode_decode bytes
  rw [h] at hlt hround
  rw [ofWord, toWord, UInt64.toNat_ofNat_of_lt' hlt, hround]

theorem ofWord_inj {a b : UInt64} : ofWord a = ofWord b ↔ a = b :=
  ⟨fun h => by simpa using congrArg toWord h, fun h => h ▸ rfl⟩

/-! ## Order -/

theorem decode_lt_decode {a b : Bytes} (hlen : a.length = b.length) (h : a < b) :
    decode a < decode b := by
  induction a generalizing b with
  | nil =>
    cases b with
    | nil => simp at h
    | cons _ _ => simp at hlen
  | cons x xs ih =>
    cases b with
    | nil => simp at hlen
    | cons y ys =>
      have hlen' : xs.length = ys.length := by simpa using hlen
      rw [decode_cons, decode_cons, hlen']
      rcases List.cons_lt_cons_iff.1 h with hxy | ⟨rfl, hrest⟩
      · have hx := decode_lt xs
        rw [hlen'] at hx
        have hfront : (x.toNat + 1) * 256 ^ ys.length ≤ y.toNat * 256 ^ ys.length :=
          Nat.mul_le_mul_right _ (UInt8.lt_iff_toNat_lt.1 hxy)
        rw [Nat.add_mul] at hfront
        omega
      · have hrest' := ih hlen' hrest
        omega

theorem toWord_lt_toWord {a b : Bytes} (ha : a.length = 8) (hb : b.length = 8) (h : a < b) :
    toWord a < toWord b := by
  have hlt := decode_lt_decode (ha.trans hb.symm) h
  have ha' := decode_lt a
  have hb' := decode_lt b
  rw [ha] at ha'
  rw [hb] at hb'
  rw [UInt64.lt_iff_toNat_lt, toWord, toWord, UInt64.toNat_ofNat_of_lt' ha',
    UInt64.toNat_ofNat_of_lt' hb']
  exact hlt

end Mvcc.BigEndian

import Mvcc.Proofs.Clock.Mark
import Mvcc.Proofs.Data.Crc32c

/-!
# The mark file

A file loads exactly if it is the encoding of a mark. A file with one changed byte is refused: a
change before the checksum changes the computed checksum, a change inside it the stored one.
-/

namespace Mvcc.MarkFile

theorem sumBytes_inj {a b : Bytes} :
    sumBytes a = sumBytes b ↔ Crc32c.checksum a = Crc32c.checksum b := by
  constructor
  · intro h
    have hnat := congrArg BigEndian.decode h
    have ha : (Crc32c.checksum a).toNat < 256 ^ 4 := (Crc32c.checksum a).toNat_lt
    have hb : (Crc32c.checksum b).toNat < 256 ^ 4 := (Crc32c.checksum b).toNat_lt
    rw [sumBytes, sumBytes, BigEndian.decode_encode, BigEndian.decode_encode, Nat.mod_eq_of_lt ha,
      Nat.mod_eq_of_lt hb] at hnat
    exact UInt32.toNat_inj.1 hnat
  · intro h
    rw [sumBytes, sumBytes, h]

@[simp] theorem sumBytes_length (value : Bytes) : (sumBytes value).length = 4 :=
  BigEndian.encode_length ..

@[simp] theorem encode_length (value : Timestamp) : (encode value).length = length := by
  rw [encode, List.length_append, BigEndian.ofWord_length, sumBytes_length]
  rfl

theorem decode_append (path : String) {value sum : Bytes} (hvalue : value.length = 8)
    (hsum : sum.length = 4) :
    decode path (value ++ sum) =
      if sumBytes value = sum then .ok (BigEndian.toWord value) else .error (.checksum path) := by
  have hlength : (value ++ sum).length = length := by
    rw [List.length_append, hvalue, hsum]
    rfl
  rw [decode, if_neg (by simp [hlength]), List.take_left' hvalue, List.drop_left' hvalue]
  by_cases h : sumBytes value = sum <;> simp [h]

theorem decode_cases (path : String) (raw : Bytes) :
    (∃ value, raw = encode value ∧ decode path raw = .ok value) ∨
      (∀ value, raw ≠ encode value) ∧ ∃ fault, decode path raw = .error fault := by
  by_cases hlength : raw.length = length
  · have hvalue : (raw.take 8).length = 8 := by
      rw [List.length_take, hlength]
      rfl
    have hsum : (raw.drop 8).length = 4 := by
      rw [List.length_drop, hlength]
      rfl
    have hdecode := decode_append path hvalue hsum
    rw [List.take_append_drop] at hdecode
    by_cases h : sumBytes (raw.take 8) = raw.drop 8
    · left
      refine ⟨BigEndian.toWord (raw.take 8), ?_, by rw [hdecode, if_pos h]⟩
      rw [encode, BigEndian.ofWord_toWord hvalue, h, List.take_append_drop]
    · right
      refine ⟨?_, .checksum path, by rw [hdecode, if_neg h]⟩
      intro value hraw
      apply h
      rw [hraw, encode, List.take_left' (BigEndian.ofWord_length value),
        List.drop_left' (BigEndian.ofWord_length value)]
  · right
    refine ⟨?_, .length raw.length path, by rw [decode, if_pos hlength]⟩
    intro value hraw
    exact hlength (hraw ▸ encode_length value)

/-- One byte cannot be changed so that the checksum still fits. -/
theorem decode_set (path : String) (value : Timestamp) {place : Nat} {byte : UInt8}
    (hplace : place < length) (hbyte : (encode value)[place]? ≠ some byte) :
    decode path ((encode value).set place byte) = .error (.checksum path) := by
  have hword := BigEndian.ofWord_length value
  have hsum := sumBytes_length (BigEndian.ofWord value)
  unfold encode at hbyte ⊢
  by_cases hfront : place < 8
  · have hin : place < (BigEndian.ofWord value).length := by omega
    rw [List.getElem?_append_left hin, List.getElem?_eq_getElem hin] at hbyte
    rw [List.set_append_left _ _ hin, decode_append path (by simp) hsum, if_neg]
    intro hsame
    have hunchanged := (Crc32c.checksum_set_eq_iff hin byte).1 (sumBytes_inj.1 hsame)
    exact hbyte (by rw [hunchanged])
  · have hbehind : (BigEndian.ofWord value).length ≤ place := by omega
    have hin : place - 8 < (sumBytes (BigEndian.ofWord value)).length := by
      rw [hsum]
      unfold length at hplace
      omega
    rw [List.getElem?_append_right hbehind, hword] at hbyte
    rw [List.set_append_right _ _ hbehind, hword, decode_append path hword (by simp), if_neg]
    intro hsame
    apply hbyte
    rw [hsame, List.getElem?_set_self (by simpa using hin)]

theorem decode_eq_ok_iff {path : String} {raw : Bytes} {value : Timestamp} :
    decode path raw = .ok value ↔ raw = encode value := by
  constructor
  · intro h
    cases decode_cases path raw with
    | inl hencoded =>
      obtain ⟨other, hraw, hother⟩ := hencoded
      cases h.symm.trans hother
      exact hraw
    | inr hforeign =>
      obtain ⟨fault, hfault⟩ := hforeign.2
      cases h.symm.trans hfault
  · intro h
    rw [h, decode_encode]

def IsWritable (file : MarkFile) : Prop :=
  file.content = .absent ∨ ∃ raw, file.content = .bytes raw

theorem store_eq_ok_iff {file stored : MarkFile} {value : Timestamp} :
    file.store value = .ok stored ↔
      file.IsWritable ∧ stored = { file with content := .bytes (encode value) } := by
  unfold store IsWritable overwrite
  rw [Except.mapError_eq_ok_iff]
  cases file.content <;> simp [eq_comm]

/-- A store writes twelve bytes into a writable file, and a load returns the stored mark. Of all
byte strings, exactly the encodings of marks load, each as its mark; any other is reported corrupt.
In particular a file in which one of the twelve bytes is changed is reported corrupt. -/
theorem load_eq_ok_iff_stored (file : MarkFile) (value : Timestamp) (raw : Bytes) :
    (∀ stored, file.store value = .ok stored ↔
      file.IsWritable ∧ stored = { file with content := .bytes (encode value) }) ∧
    (encode value).length = 12 ∧
    load { file with content := .bytes (encode value) } = .ok value ∧
    (load { file with content := .bytes raw } = .ok value ↔ raw = encode value) ∧
    ((∀ other, raw ≠ encode other) →
      ∃ fault, load { file with content := .bytes raw } = .error (.corrupt fault)) ∧
    ∀ place < 12, ∀ byte, (encode value)[place]? ≠ some byte →
      load { file with content := .bytes ((encode value).set place byte) } =
        .error (.corrupt (.checksum file.path)) := by
  have hload {raw : Bytes} {value : Timestamp} :
      load { file with content := .bytes raw } = .ok value ↔ raw = encode value :=
    Except.mapError_eq_ok_iff.trans decode_eq_ok_iff
  refine ⟨fun _ => store_eq_ok_iff, encode_length value, hload.2 rfl, hload, ?foreign, ?changed⟩
  case foreign =>
    intro hforeign
    cases decode_cases file.path raw with
    | inl hencoded =>
      obtain ⟨other, hraw, -⟩ := hencoded
      exact absurd hraw (hforeign other)
    | inr hfault =>
      obtain ⟨fault, hfault⟩ := hfault.2
      exact ⟨fault, congrArg (Except.mapError TimestampError.corrupt) hfault⟩
  case changed =>
    intro place hplace byte hbyte
    have hrefused := decode_set file.path value hplace hbyte
    exact congrArg (Except.mapError TimestampError.corrupt) hrefused

/-- The mark 42 in a new file, and the file after its eighth byte, 42 itself, was flipped. -/
theorem load_of_flipped :
    store ⟨"mark", .absent⟩ 42 = .ok ⟨"mark", .bytes (encode 42)⟩ ∧
      (encode 42)[7]? ≠ some 213 ∧
      load ⟨"mark", .bytes ((encode 42).set 7 213)⟩ = .error (.corrupt (.checksum "mark")) := by
  have hflipped : (encode 42)[7]? ≠ some 213 := by decide
  obtain ⟨hstore, -, -, -, -, hset⟩ := load_eq_ok_iff_stored ⟨"mark", .absent⟩ 42 []
  exact ⟨(hstore _).2 ⟨.inl rfl, rfl⟩, hflipped, hset 7 (by decide) 213 hflipped⟩

end Mvcc.MarkFile

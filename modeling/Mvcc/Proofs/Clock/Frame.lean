import Mvcc.Clock.Frame
import Mvcc.Proofs.Data.BigEndian

/-!
# Frames

A sequence of encoded frames decodes to itself, also when followed by a fragment of the next frame.
-/

namespace Mvcc

/-- The bytes are these frames and after them, only once writing has ended, a fragment of another
one. -/
def Carries (width : Nat) (frames : List Bytes) (ended : Prop) (bytes : Bytes) : Prop :=
  ∃ fragment, bytes = frames.flatten ++ fragment ∧ fragment.length < width ∧
    (¬ ended → fragment = [])

namespace Carries

variable {width : Nat} {frames : List Bytes} {frame bytes : Bytes} {ended ended' : Prop}

theorem nil (hwidth : 0 < width) : Carries width [] ended [] := ⟨[], rfl, hwidth, fun _ => rfl⟩

theorem mono (h : Carries width frames ended bytes) (himp : ended → ended') :
    Carries width frames ended' bytes := by
  obtain ⟨fragment, hbytes, hlength, hfragment⟩ := h
  exact ⟨fragment, hbytes, hlength, fun hnot => hfragment fun hended => hnot (himp hended)⟩

theorem append (h : Carries width frames ended bytes) (hended : ¬ ended) (frame : Bytes) :
    Carries width (frames ++ [frame]) ended (bytes ++ frame) := by
  obtain ⟨fragment, rfl, hlength, hfragment⟩ := h
  cases hfragment hended
  refine ⟨[], ?_, hlength, fun _ => rfl⟩
  rw [List.flatten_append, List.flatten_singleton, List.append_nil, List.append_nil]

theorem cut (h : Carries width frames ended bytes) (hended : ¬ ended) {fragment : Bytes}
    (hlength : fragment.length < width) (hended' : ended') :
    Carries width frames ended' (bytes ++ fragment) := by
  obtain ⟨nothing, rfl, -, hnothing⟩ := h
  cases hnothing hended
  refine ⟨fragment, ?_, hlength, fun hnot => absurd hended' hnot⟩
  rw [List.append_nil]

theorem length_lt (h : Carries width [] ended bytes) : bytes.length < width := by
  obtain ⟨fragment, rfl, hlength, -⟩ := h
  exact hlength

theorem uncons (h : Carries width (frame :: frames) ended bytes) :
    ∃ rest, bytes = frame ++ rest ∧ Carries width frames ended rest := by
  obtain ⟨fragment, rfl, hlength, hfragment⟩ := h
  refine ⟨frames.flatten ++ fragment, ?_, fragment, rfl, hlength, hfragment⟩
  rw [List.flatten_cons, List.append_assoc]

end Carries

namespace CallerId

@[simp] theorem encode_length (caller : CallerId) : caller.encode.length = 2 :=
  BigEndian.encode_length ..

theorem decode_encode (caller : CallerId) : decode caller.encode = caller := by
  have hlt : caller.toUInt16.toNat < 256 ^ 2 := caller.toUInt16.toNat_lt
  rw [decode, encode, BigEndian.decode_encode, Nat.mod_eq_of_lt hlt]
  simp

theorem encode_decode {bytes : Bytes} (h : bytes.length = 2) : (decode bytes).encode = bytes := by
  have hlt := BigEndian.decode_lt bytes
  have hround := BigEndian.encode_decode bytes
  rw [h] at hlt hround
  rw [encode, decode, UInt16.toUInt16_toInt16, UInt16.toNat_ofNat_of_lt' hlt, hround]

end CallerId

theorem takeRequest_encode (caller : CallerId) (rest : Bytes) :
    takeRequest (caller.encode ++ rest) = (.ok caller, rest) := by
  have hlength : ¬ (caller.encode ++ rest).length < requestLength := by
    rw [List.length_append, CallerId.encode_length, requestLength]
    omega
  rw [takeRequest, if_neg hlength, List.take_left' caller.encode_length,
    List.drop_left' caller.encode_length, CallerId.decode_encode]

theorem takeRequest_eq_ok_iff {bytes rest : Bytes} {caller : CallerId} :
    takeRequest bytes = (.ok caller, rest) ↔ bytes = caller.encode ++ rest := by
  constructor
  · intro h
    unfold takeRequest at h
    split at h
    · cases h
    · rename_i hlength
      cases h
      have hfront : (bytes.take 2).length = 2 := List.length_take_of_le (Nat.not_lt.1 hlength)
      rw [CallerId.encode_decode hfront, List.take_append_drop]
  · rintro rfl
    exact takeRequest_encode caller rest

theorem takeRequest_eq_error_iff {bytes rest : Bytes} {fault : FrameFault} :
    takeRequest bytes = (.error fault, rest) ↔
      bytes.length < requestLength ∧ fault = .truncatedRequest bytes.length ∧ rest = bytes := by
  unfold takeRequest
  split
  · rename_i hlength
    simp [hlength, eq_comm]
  · rename_i hlength
    simp [hlength]

/-- The signed word of a timestamp is positive exactly if the timestamp may be returned. -/
theorem Timestamp.toInt64_pos_iff {time : Timestamp} :
    0 < time.toInt64 ↔ 0 < time ∧ time ≤ greatest := by
  have hsigned : time.toInt64.toInt =
      if 2 * time.toNat < 2 ^ 64 then (time.toNat : Int) else time.toNat - (2 ^ 64 : Nat) :=
    BitVec.toInt_eq_toNat_cond time.toBitVec
  have hword := time.toNat_lt
  have hgreatest : greatest.toNat = 2 ^ 63 - 1 := rfl
  rw [Int64.lt_iff_toInt_lt, hsigned, Int64.toInt_zero, UInt64.lt_iff_toNat_lt,
    UInt64.le_iff_toNat_le, hgreatest, UInt64.toNat_zero]
  split <;> omega

namespace Response

theorem encode_length (response : Response) : response.encode.length = responseLength := by
  simp [encode, responseLength]

/-- Every ten bytes are the encoding of exactly one response. -/
theorem exists_encode {bytes : Bytes} (h : bytes.length = responseLength) :
    ∃ response : Response, bytes = response.encode := by
  have hfront : (bytes.take 2).length = 2 := by
    rw [List.length_take, h]
    rfl
  have hback : (bytes.drop 2).length = 8 := by
    rw [List.length_drop, h]
    rfl
  refine ⟨⟨CallerId.decode (bytes.take 2), BigEndian.toWord (bytes.drop 2)⟩, ?_⟩
  rw [encode, CallerId.encode_decode hfront, BigEndian.ofWord_toWord hback, List.take_append_drop]

/-- A response is read back off the front, unless its timestamp is refused. -/
theorem take_append (response : Response) (rest : Bytes) :
    take (response.encode ++ rest) =
      (if response.time.toInt64 ≤ 0 then .error (.invalidTimestamp response.time.toInt64.toInt)
        else .ok response, rest) := by
  have hlength : ¬ (response.encode ++ rest).length < responseLength := by
    rw [List.length_append, encode_length]
    omega
  have hcaller := response.caller.encode_length
  have htime := BigEndian.ofWord_length response.time
  have hfront : (response.encode ++ rest).take 2 = response.caller.encode := by
    rw [encode, List.append_assoc, List.take_left' hcaller]
  have hback : ((response.encode ++ rest).drop 2).take 8 = BigEndian.ofWord response.time := by
    rw [encode, List.append_assoc, List.drop_left' hcaller, List.take_left' htime]
  have hrest : (response.encode ++ rest).drop 10 = rest := List.drop_left' response.encode_length
  rw [take, if_neg hlength]
  simp only [hfront, hback, hrest, BigEndian.toWord_ofWord, CallerId.decode_encode]
  split <;> rfl

theorem take_encode {response : Response} (hpositive : 0 < response.time)
    (hgreatest : response.time ≤ Timestamp.greatest) (rest : Bytes) :
    take (response.encode ++ rest) = (.ok response, rest) := by
  have hsigned := Timestamp.toInt64_pos_iff.2 ⟨hpositive, hgreatest⟩
  rw [take_append, if_neg (Int64.not_le.2 hsigned)]

/-- Bytes are too few, or start with what was written for some response. -/
theorem length_lt_or_eq_append (bytes : Bytes) :
    bytes.length < responseLength ∨
      ∃ response : Response, ∃ rest, bytes = response.encode ++ rest := by
  by_cases hlength : bytes.length < responseLength
  · exact .inl hlength
  · have hwhole : (bytes.take responseLength).length = responseLength :=
      List.length_take_of_le (Nat.not_lt.1 hlength)
    obtain ⟨response, hresponse⟩ := exists_encode hwhole
    exact .inr ⟨response, bytes.drop responseLength, by rw [← hresponse, List.take_append_drop]⟩

theorem take_of_length_lt {bytes : Bytes} (h : bytes.length < responseLength) :
    take bytes = (.error (.truncatedResponse bytes.length), bytes) := by
  rw [take, if_pos h]

theorem take_eq_ok_iff {bytes rest : Bytes} {response : Response} :
    take bytes = (.ok response, rest) ↔
      0 < response.time.toInt64 ∧ bytes = response.encode ++ rest := by
  constructor
  · intro h
    rcases length_lt_or_eq_append bytes with hshort | ⟨found, behind, rfl⟩
    · rw [take_of_length_lt hshort] at h
      cases h
    · rw [take_append] at h
      split at h
      · cases h
      · rename_i hpositive
        cases h
        exact ⟨Int64.not_le.1 hpositive, rfl⟩
  · rintro ⟨hpositive, rfl⟩
    rw [take_append, if_neg (Int64.not_le.2 hpositive)]

theorem take_eq_error_iff {bytes rest : Bytes} {fault : FrameFault} :
    take bytes = (.error fault, rest) ↔
      (bytes.length < responseLength ∧ fault = .truncatedResponse bytes.length ∧ rest = bytes) ∨
        ∃ refused : Response, refused.time.toInt64 ≤ 0 ∧ bytes = refused.encode ++ rest ∧
          fault = .invalidTimestamp refused.time.toInt64.toInt := by
  constructor
  · intro h
    rcases length_lt_or_eq_append bytes with hshort | ⟨found, behind, rfl⟩
    · rw [take_of_length_lt hshort] at h
      cases h
      exact .inl ⟨hshort, rfl, rfl⟩
    · rw [take_append] at h
      split at h
      · rename_i hrefused
        cases h
        exact .inr ⟨found, hrefused, rfl, rfl⟩
      · cases h
  · rintro (⟨hshort, rfl, rfl⟩ | ⟨refused, hrefused, rfl, rfl⟩)
    · exact take_of_length_lt hshort
    · rw [take_append, if_pos hrefused]

/-- Bytes are too few, no response, or start with a response that has a timestamp above zero. -/
theorem take_cases (bytes : Bytes) :
    (∃ length, take bytes = (.error (.truncatedResponse length), bytes)) ∨
      (∃ time rest, take bytes = (.error (.invalidTimestamp time), rest)) ∨
      ∃ response rest, 0 < response.time.toInt64 ∧ take bytes = (.ok response, rest) := by
  rcases length_lt_or_eq_append bytes with hshort | ⟨response, rest, rfl⟩
  · exact .inl ⟨_, take_of_length_lt hshort⟩
  · rw [take_append]
    split
    · exact .inr (.inl ⟨_, _, rfl⟩)
    · rename_i hpositive
      exact .inr (.inr ⟨response, rest, Int64.not_le.1 hpositive, rfl⟩)

end Response

end Mvcc

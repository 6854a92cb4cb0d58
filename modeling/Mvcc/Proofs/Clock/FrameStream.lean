import Mvcc.Proofs.Clock.Frame

/-!
# Streams of frames

Frames are decoded from a byte string until an attempt fails. Encoded frames decode to themselves.
Conversely the decoded frames encode to the bytes consumed: decoding stops at a fragment, which is
left in place, or behind the first response whose timestamp is refused.
-/

namespace Mvcc

/-! ## Taking frames until one fails -/

section

variable {α : Type} {take : Bytes → Except FrameFault α × Bytes} {encode : α → Bytes}
  {Fit : α → Prop} {bytes left rest rest' : Bytes} {frame : α} {frames frames' : List α}
  {fault fault' : FrameFault}

/-- Frames are taken off some bytes, one after another, until an attempt fails: the frames, why the
last attempt failed, and what it left. -/
inductive TakenUntil (take : Bytes → Except FrameFault α × Bytes) :
    Bytes → List α → FrameFault → Bytes → Prop where
  | refused {bytes rest : Bytes} {fault : FrameFault} (h : take bytes = (.error fault, rest)) :
    TakenUntil take bytes [] fault rest
  | taken {bytes left rest : Bytes} {frame : α} {frames : List α} {fault : FrameFault}
    (h : take bytes = (.ok frame, left)) (hleft : TakenUntil take left frames fault rest) :
    TakenUntil take bytes (frame :: frames) fault rest

theorem TakenUntil.unique (h : TakenUntil take bytes frames fault rest)
    (h' : TakenUntil take bytes frames' fault' rest') :
    frames' = frames ∧ fault' = fault ∧ rest' = rest := by
  induction h generalizing frames' with
  | refused h =>
    cases h' with
    | refused h' =>
      cases h.symm.trans h'
      exact ⟨rfl, rfl, rfl⟩
    | taken h' _ => cases h.symm.trans h'
  | taken h _ ih =>
    cases h' with
    | refused h' => cases h.symm.trans h'
    | taken h' hleft' =>
      cases h.symm.trans h'
      obtain ⟨rfl, rfl, rfl⟩ := ih hleft'
      exact ⟨rfl, rfl, rfl⟩

/-- Where a frame is taken exactly if it was written at the front, frames are taken until an attempt
fails exactly if they were written one after another, and the attempt fails on what is behind. -/
theorem takenUntil_iff_written
    (htake : ∀ {bytes frame rest}, take bytes = (.ok frame, rest) ↔
      Fit frame ∧ bytes = encode frame ++ rest) :
    TakenUntil take bytes frames fault rest ↔
      (∀ frame ∈ frames, Fit frame) ∧
        ∃ left, bytes = (frames.map encode).flatten ++ left ∧ take left = (.error fault, rest) := by
  induction frames generalizing bytes with
  | nil =>
    constructor
    · rintro (h | _)
      exact ⟨by simp, bytes, rfl, h⟩
    · rintro ⟨-, left, rfl, h⟩
      exact .refused h
  | cons frame frames ih =>
    rw [List.forall_mem_cons, List.map_cons, List.flatten_cons]
    constructor
    · rintro (_ | ⟨h, hleft⟩)
      obtain ⟨hfit, rfl⟩ := htake.1 h
      obtain ⟨hfits, left, rfl, hend⟩ := ih.1 hleft
      exact ⟨⟨hfit, hfits⟩, left, by rw [List.append_assoc], hend⟩
    · rintro ⟨⟨hfit, hfits⟩, left, rfl, hend⟩
      rw [List.append_assoc]
      exact .taken (htake.2 ⟨hfit, rfl⟩) (ih.2 ⟨hfits, left, rfl, hend⟩)

/-- Taking ends, since every frame shortens the bytes, and it ends before the attempts run out. -/
theorem exists_takenUntil (hshorter : ∀ {bytes frame rest},
      take bytes = (.ok frame, rest) → rest.length < bytes.length)
    {nothing : FrameFault} (hnothing : take [] = (.error nothing, [])) {fuel : Nat}
    (hfuel : bytes.length < fuel) :
    ∃ fault, TakenUntil take bytes (takeFrames take fuel bytes).frames fault
      (takeFrames take fuel bytes).rest := by
  induction fuel generalizing bytes with
  | zero => omega
  | succ fuel ih =>
    rw [takeFrames]
    split
    · rename_i fault rest h
      exact ⟨fault, .refused h⟩
    · -- Nothing is left, so no further attempt is made; it would fail.
      rename_i frame h
      exact ⟨nothing, .taken h (.refused hnothing)⟩
    · rename_i frame rest _ h
      have hrest := hshorter h
      have hfuel : rest.length < fuel := by omega
      obtain ⟨fault, hleft⟩ := ih hfuel
      exact ⟨fault, .taken h hleft⟩

end

/-! ## Requests -/

theorem takenUntil_takeRequest_iff {bytes rest : Bytes} {callers : List CallerId}
    {fault : FrameFault} :
    TakenUntil takeRequest bytes callers fault rest ↔
      bytes = (callers.map CallerId.encode).flatten ++ rest ∧ rest.length < requestLength ∧
        fault = .truncatedRequest rest.length := by
  have htake {bytes rest : Bytes} {caller : CallerId} :
      takeRequest bytes = (.ok caller, rest) ↔ True ∧ bytes = caller.encode ++ rest := by
    rw [takeRequest_eq_ok_iff, true_and]
  rw [takenUntil_iff_written htake]
  constructor
  · rintro ⟨-, left, rfl, hend⟩
    obtain ⟨hlength, rfl, rfl⟩ := takeRequest_eq_error_iff.1 hend
    exact ⟨rfl, hlength, rfl⟩
  · rintro ⟨rfl, hlength, rfl⟩
    exact ⟨fun _ _ => trivial, rest, rfl, takeRequest_eq_error_iff.2 ⟨hlength, rfl, rfl⟩⟩

theorem exists_takenUntil_takeRequests (bytes : Bytes) :
    ∃ fault, TakenUntil takeRequest bytes (takeRequests bytes).frames fault
      (takeRequests bytes).rest := by
  have hshorter {bytes rest : Bytes} {caller : CallerId}
      (h : takeRequest bytes = (.ok caller, rest)) : rest.length < bytes.length := by
    rw [takeRequest_eq_ok_iff.1 h, List.length_append, CallerId.encode_length]
    omega
  have hnothing : takeRequest [] = (.error (.truncatedRequest 0), []) := rfl
  exact exists_takenUntil hshorter hnothing (Nat.lt_succ_self bytes.length)

/-! ## Responses -/

namespace Response

theorem takenUntil_take_iff {bytes rest : Bytes} {responses : List Response} {fault : FrameFault} :
    TakenUntil take bytes responses fault rest ↔
      (∀ response ∈ responses, 0 < response.time ∧ response.time ≤ Timestamp.greatest) ∧
        ((bytes = (responses.map encode).flatten ++ rest ∧ rest.length < responseLength ∧
            fault = .truncatedResponse rest.length) ∨
          ∃ refused : Response, refused.time.toInt64 ≤ 0 ∧
            bytes = (responses.map encode).flatten ++ refused.encode ++ rest ∧
            fault = .invalidTimestamp refused.time.toInt64.toInt) := by
  have htake {bytes rest : Bytes} {response : Response} :
      take bytes = (.ok response, rest) ↔
        (0 < response.time ∧ response.time ≤ Timestamp.greatest) ∧
          bytes = response.encode ++ rest := by
    rw [take_eq_ok_iff, Timestamp.toInt64_pos_iff]
  rw [takenUntil_iff_written htake]
  refine and_congr_right fun _ => ?_
  constructor
  · rintro ⟨left, rfl, hend⟩
    rcases take_eq_error_iff.1 hend with ⟨hlength, rfl, rfl⟩ | ⟨refused, hrefused, rfl, rfl⟩
    · exact .inl ⟨rfl, hlength, rfl⟩
    · exact .inr ⟨refused, hrefused, by rw [List.append_assoc], rfl⟩
  · rintro (⟨rfl, hlength, rfl⟩ | ⟨refused, hrefused, rfl, rfl⟩)
    · exact ⟨rest, rfl, take_eq_error_iff.2 (.inl ⟨hlength, rfl, rfl⟩)⟩
    · refine ⟨refused.encode ++ rest, by rw [List.append_assoc], take_eq_error_iff.2 (.inr ?_)⟩
      exact ⟨refused, hrefused, rfl, rfl⟩

theorem exists_takenUntil_takeResponses (bytes : Bytes) :
    ∃ fault, TakenUntil take bytes (takeResponses bytes).frames fault
      (takeResponses bytes).rest := by
  have hshorter {bytes rest : Bytes} {response : Response}
      (h : take bytes = (.ok response, rest)) : rest.length < bytes.length := by
    have hpositive : 0 < responseLength := by decide
    rw [(take_eq_ok_iff.1 h).2, List.length_append, response.encode_length]
    omega
  have hnothing : take [] = (.error (.truncatedResponse 0), []) := rfl
  exact exists_takenUntil hshorter hnothing (Nat.lt_succ_self bytes.length)

end Response

/-- Encoded requests, and encoded responses with admissible timestamps, decode to themselves with
nothing left. Conversely any bytes decompose in exactly one way, that of `takeRequests` and
`takeResponses`. The requests, encoded again, are the bytes without the rest, which is shorter than
a request. The responses have admissible timestamps, and encoded again they are the bytes without
the rest, which is shorter than a response or follows a consumed response whose timestamp, as a
signed word, is not positive. -/
theorem takenUntil_roundTrip (callers : List CallerId) {responses : List Response}
    (hresponses : ∀ response ∈ responses,
      0 < response.time ∧ response.time ≤ Timestamp.greatest) (bytes : Bytes) :
    TakenUntil takeRequest (callers.map CallerId.encode).flatten callers (.truncatedRequest 0) [] ∧
    TakenUntil Response.take (responses.map Response.encode).flatten responses
      (.truncatedResponse 0) [] ∧
    (∃ callers rest,
      (∀ callers' fault rest', TakenUntil takeRequest bytes callers' fault rest' ↔
        callers' = callers ∧ fault = .truncatedRequest rest.length ∧ rest' = rest) ∧
      (takeRequests bytes).frames = callers ∧ (takeRequests bytes).rest = rest ∧
      bytes = (callers.map CallerId.encode).flatten ++ rest ∧ rest.length < 2) ∧
    ∃ responses fault rest,
      (∀ responses' fault' rest', TakenUntil Response.take bytes responses' fault' rest' ↔
        responses' = responses ∧ fault' = fault ∧ rest' = rest) ∧
      (takeResponses bytes).frames = responses ∧ (takeResponses bytes).rest = rest ∧
      (∀ response ∈ responses, 0 < response.time ∧ response.time ≤ Timestamp.greatest) ∧
      ((bytes = (responses.map Response.encode).flatten ++ rest ∧ rest.length < 10 ∧
          fault = .truncatedResponse rest.length) ∨
        ∃ refused : Response, refused.encode.length = 10 ∧ refused.time.toInt64 ≤ 0 ∧
          bytes = (responses.map Response.encode).flatten ++ refused.encode ++ rest ∧
          fault = .invalidTimestamp refused.time.toInt64.toInt) := by
  refine ⟨?requests, ?responses, ?anyRequests, ?anyResponses⟩
  case requests =>
    exact takenUntil_takeRequest_iff.2 ⟨by rw [List.append_nil], by decide, rfl⟩
  case responses =>
    refine Response.takenUntil_take_iff.2 ⟨hresponses, .inl ⟨?_, by decide, rfl⟩⟩
    rw [List.append_nil]
  case anyRequests =>
    obtain ⟨fault, htaken⟩ := exists_takenUntil_takeRequests bytes
    obtain ⟨hbytes, hlength, rfl⟩ := takenUntil_takeRequest_iff.1 htaken
    refine ⟨_, _, fun callers' fault rest' => ⟨htaken.unique, ?_⟩, rfl, rfl, hbytes, hlength⟩
    rintro ⟨rfl, rfl, rfl⟩
    exact htaken
  case anyResponses =>
    obtain ⟨fault, htaken⟩ := Response.exists_takenUntil_takeResponses bytes
    obtain ⟨hfits, hend⟩ := Response.takenUntil_take_iff.1 htaken
    refine ⟨_, fault, _, fun responses' fault' rest' => ⟨htaken.unique, ?_⟩, rfl, rfl, hfits, ?_⟩
    · rintro ⟨rfl, rfl, rfl⟩
      exact htaken
    · rcases hend with hfragment | ⟨refused, hrefused, hbytes, hfault⟩
      · exact .inl hfragment
      · exact .inr ⟨refused, refused.encode_length, hrefused, hbytes, hfault⟩

/-- Two responses decode, one of them with the greatest timestamp. In another stream a response with
timestamp zero is refused, and the byte after it is left. -/
theorem takenUntil_roundTrip_refused :
    (∀ response ∈ [(⟨1, 5⟩ : Response), ⟨-2, Timestamp.greatest⟩],
      0 < response.time ∧ response.time ≤ Timestamp.greatest) ∧
    TakenUntil Response.take
      ([(⟨1, 5⟩ : Response), ⟨-2, Timestamp.greatest⟩].map Response.encode).flatten
      [⟨1, 5⟩, ⟨-2, Timestamp.greatest⟩] (.truncatedResponse 0) [] ∧
    TakenUntil Response.take ((⟨1, 5⟩ : Response).encode ++ (⟨3, 0⟩ : Response).encode ++ [7])
      [⟨1, 5⟩] (.invalidTimestamp 0) [7] ∧
    (takeResponses ((⟨1, 5⟩ : Response).encode ++ (⟨3, 0⟩ : Response).encode ++ [7])).frames =
      [⟨1, 5⟩] := by
  have hresponses : ∀ response ∈ [(⟨1, 5⟩ : Response), ⟨-2, Timestamp.greatest⟩],
      0 < response.time ∧ response.time ≤ Timestamp.greatest := by decide
  have hread : TakenUntil Response.take
      ((⟨1, 5⟩ : Response).encode ++ (⟨3, 0⟩ : Response).encode ++ [7])
      [⟨1, 5⟩] (.invalidTimestamp 0) [7] := .taken rfl (.refused rfl)
  obtain ⟨-, hwritten, -, responses, fault, rest, hiff, hframes, -⟩ := takenUntil_roundTrip []
    hresponses ((⟨1, 5⟩ : Response).encode ++ (⟨3, 0⟩ : Response).encode ++ [7])
  obtain ⟨rfl, -, -⟩ := (hiff _ _ _).1 hread
  exact ⟨hresponses, hwritten, hread, hframes⟩

end Mvcc

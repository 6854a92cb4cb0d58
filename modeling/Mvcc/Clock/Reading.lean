import Mvcc.Clock.Connection

/-!
# Requests read in pieces

A read returns the bytes that have arrived, up to the size of the buffer, and is empty only at the
end of the stream. The server reads until a frame is full, responds, and starts an empty frame.
-/

namespace Mvcc.Connection

/-- Read at most `room` bytes of what arrives in these pieces. -/
def read (room : Nat) : List Bytes → Bytes × List Bytes
  | [] => ([], [])
  | piece :: pieces =>
    (piece.take room, if piece.length ≤ room then pieces else piece.drop room :: pieces)

theorem read_flatten (room : Nat) (pieces : List Bytes) :
    (read room pieces).1 ++ (read room pieces).2.flatten = pieces.flatten := by
  cases pieces with
  | nil => rfl
  | cons piece pieces =>
    simp only [read]
    split
    · rename_i hfits
      rw [List.take_of_length_le hfits, List.flatten_cons]
    · rw [List.flatten_cons, List.flatten_cons, ← List.append_assoc, List.take_append_drop]

/-- Fill a request frame, of which some bytes may be read already. The result is none at the end of
the input; an incomplete frame is an error. -/
def readFrame (filled : Bytes) (pieces : List Bytes) :
    Except FrameFault (Option Bytes) × List Bytes :=
  if filled.length < requestLength then
    match read (requestLength - filled.length) pieces with
    | ([], rest) =>
      (if filled = [] then .ok none else .error (.truncatedRequest filled.length), rest)
    | (byte :: bytes, rest) => readFrame (filled ++ byte :: bytes) rest
  else (.ok (some filled), pieces)
termination_by requestLength - filled.length
decreasing_by
  rw [List.length_append, List.length_cons]
  omega

theorem readFrame_eq_some {filled frame : Bytes} {pieces rest : List Bytes}
    (h : readFrame filled pieces = (.ok (some frame), rest)) :
    requestLength ≤ frame.length ∧ frame ++ rest.flatten = filled ++ pieces.flatten := by
  fun_induction readFrame filled pieces with
  | case1 filled pieces hroom rest' hread =>
    split at h
    · cases h
    · cases h
  | case2 filled pieces hroom byte bytes rest' hread ih =>
    have hflatten := read_flatten (requestLength - filled.length) pieces
    rw [hread] at hflatten
    obtain ⟨hfull, hfront⟩ := ih h
    refine ⟨hfull, hfront.trans ?_⟩
    rw [List.append_assoc, hflatten]
  | case3 filled pieces hfull =>
    cases h
    exact ⟨Nat.not_lt.1 hfull, rfl⟩

section

variable {τ : Type} [TimestampSource τ]

/-- Serve a connection until its end: the answers, and whether it ended well. -/
def handle (pieces : List Bytes) (source : τ) : (Bytes × Except TimestampError Unit) × τ :=
  match _hread : readFrame [] pieces with
  | (.ok none, _) => (([], .ok ()), source)
  | (.error fault, _) => (([], .error (.protocol fault)), source)
  | (.ok (some frame), rest) =>
    match TimestampSource.draw source with
    | .error e source => (([], .error e), source)
    | .ok time source =>
      let response : Response := ⟨CallerId.decode frame, time⟩
      let ((sent, ended), source) := handle rest source
      ((response.encode ++ sent, ended), source)
termination_by pieces.flatten.length
decreasing_by
  obtain ⟨hfull, hfront⟩ := readFrame_eq_some _hread
  have hlength := congrArg List.length hfront
  rw [List.length_append, List.nil_append] at hlength
  have hpositive : 0 < requestLength := by decide
  omega

end

end Mvcc.Connection

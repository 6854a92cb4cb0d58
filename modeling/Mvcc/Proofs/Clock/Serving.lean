import Mvcc.Clock.Reading
import Mvcc.Proofs.Clock.Ascending

/-!
# Serving a stream

For every division of the incoming bytes into pieces, the server responds to the complete requests
in order with successive oracle timestamps, until the oracle refuses. An incomplete request causes
no oracle call.
-/

namespace Mvcc

/-! ## Requests -/

def requestsIn : Bytes → List CallerId
  | first :: second :: rest => CallerId.decode [first, second] :: requestsIn rest
  | _ => []

theorem length_requestsIn : ∀ bytes : Bytes, (requestsIn bytes).length = bytes.length / 2
  | first :: second :: rest => by
    rw [requestsIn, List.length_cons, length_requestsIn rest]
    simp only [List.length_cons]
    omega
  | [] | [_] => by simp [requestsIn]

/-- The bytes of the responses to the requests in some bytes, as far as there are timestamps. -/
def responsesTo (bytes : Bytes) (times : List Timestamp) : Bytes :=
  ((requestsIn bytes).zipWith (fun caller time => (Response.mk caller time).encode) times).flatten

namespace Oracle

/-- Ask an oracle repeatedly until it refuses: the timestamps, and whether it refused. -/
def ask : Nat → Oracle → (List Timestamp × Except TimestampError Unit) × Oracle
  | 0, o => (([], .ok ()), o)
  | requests + 1, o =>
    match o.next with
    | .ok time o =>
      let ((times, ended), o) := ask requests o
      ((time :: times, ended), o)
    | .error e o => (([], .error e), o)

theorem lt_of_mem_ask {o : Oracle} (hsupply : 0 < o.supply) {requests : Nat} {time : Timestamp}
    (h : time ∈ (ask requests o).1.1) : o.counter < time := by
  induction requests generalizing o with
  | zero => cases h
  | succ requests ih =>
    rw [ask] at h
    cases hnext : o.next with
    | error e o' =>
      rw [hnext] at h
      cases h
    | ok first o' =>
      have hfirst : o.counter < first ∧ first ≤ o'.counter := by
        obtain ⟨hlt, hle, -⟩ := AscendingSource.drawn (s := o) hsupply hnext
        exact ⟨hlt, hle⟩
      rw [hnext] at h
      rcases List.mem_cons.1 h with rfl | hlater
      · exact hfirst.1
      · have hlt := ih (AscendingSource.answered (s := o) hsupply hnext) hlater
        exact UInt64.lt_trans (UInt64.lt_of_lt_of_le hfirst.1 hfirst.2) hlt

theorem ask_eq_ok_iff {requests : Nat} {o : Oracle} :
    (ask requests o).1.2 = .ok () ↔ (ask requests o).1.1.length = requests := by
  induction requests generalizing o with
  | zero => simp [ask]
  | succ requests ih =>
    rw [ask]
    cases o.next with
    | error e o' => simp
    | ok time o' => simpa using ih

/-- The timestamps of successive requests ascend, from any oracle state. -/
theorem ask_increasing (requests : Nat) (o : Oracle) : (ask requests o).1.1.Pairwise (· < ·) := by
  induction requests generalizing o with
  | zero => exact .nil
  | succ requests ih =>
    have hcounter := counter_of_next o
    rw [ask]
    cases hnext : o.next with
    | error e o' => exact .nil
    | ok time o' =>
      rw [hnext] at hcounter
      obtain ⟨rfl, hcounter, hgreatest⟩ := hcounter
      refine List.pairwise_cons.2 ⟨fun later hlater => ?_, ih o'⟩
      have hsupply : 0 < o'.supply :=
        Nat.lt_of_lt_of_le (by decide) (supply_of_le (hcounter ▸ hgreatest))
      have hlt := lt_of_mem_ask hsupply hlater
      rwa [hcounter] at hlt

end Oracle

namespace Connection

/-! ## Frames -/

theorem read_eq_nil {room : Nat} {pieces rest : List Bytes} (hroom : 0 < room)
    (hpieces : ∀ piece ∈ pieces, piece ≠ []) (h : read room pieces = ([], rest)) :
    pieces = [] ∧ rest = [] := by
  cases pieces with
  | nil =>
    cases h
    exact ⟨rfl, rfl⟩
  | cons piece pieces =>
    have hpiece := hpieces piece List.mem_cons_self
    have htaken : piece.take room = [] := congrArg Prod.fst h
    rcases List.take_eq_nil_iff.1 htaken with hzero | hnil
    · omega
    · exact absurd hnil hpiece

/-- A read takes at most `room` bytes and leaves no empty pieces. -/
theorem read_spec (room : Nat) {pieces : List Bytes} (hpieces : ∀ piece ∈ pieces, piece ≠ []) :
    (read room pieces).1.length ≤ room ∧ ∀ piece ∈ (read room pieces).2, piece ≠ [] := by
  cases pieces with
  | nil => exact ⟨Nat.zero_le _, hpieces⟩
  | cons piece pieces =>
    have hlater : ∀ piece ∈ pieces, piece ≠ [] :=
      fun piece hpiece => hpieces piece (List.mem_cons_of_mem _ hpiece)
    refine ⟨List.length_take_le .., ?_⟩
    simp only [read]
    split
    · exact hlater
    · rename_i hlong
      intro left hleft
      rcases List.mem_cons.1 hleft with rfl | hleft
      · simpa using Nat.not_le.1 hlong
      · exact hlater left hleft

/-- A frame is complete once two bytes have arrived, however they are split. -/
theorem readFrame_of_le {filled : Bytes} {pieces : List Bytes} (hfilled : filled.length ≤ 2)
    (hpieces : ∀ piece ∈ pieces, piece ≠ []) (hbytes : 2 ≤ (filled ++ pieces.flatten).length) :
    ∃ rest, readFrame filled pieces = (.ok (some ((filled ++ pieces.flatten).take 2)), rest) ∧
      rest.flatten = (filled ++ pieces.flatten).drop 2 ∧ ∀ piece ∈ rest, piece ≠ [] := by
  fun_induction readFrame filled pieces with
  | case1 filled pieces hroom rest hread =>
    obtain ⟨rfl, -⟩ := read_eq_nil (Nat.sub_pos_of_lt hroom) hpieces hread
    rw [List.flatten_nil, List.append_nil] at hbytes
    exact absurd hbytes (Nat.not_le.2 hroom)
  | case2 filled pieces hroom byte bytes rest hread ih =>
    have hflatten := read_flatten (requestLength - filled.length) pieces
    have hspec := read_spec (requestLength - filled.length) hpieces
    rw [hread] at hflatten hspec
    have hsame : (filled ++ byte :: bytes) ++ rest.flatten = filled ++ pieces.flatten := by
      rw [List.append_assoc, hflatten]
    have hlength : (filled ++ byte :: bytes).length ≤ 2 := by
      have hroom' : (byte :: bytes).length ≤ 2 - filled.length := hspec.1
      rw [List.length_append]
      omega
    rw [← hsame] at hbytes ⊢
    exact ih hlength hspec.2 hbytes
  | case3 filled pieces hfull =>
    have htwo : filled.length = 2 := Nat.le_antisymm hfilled (Nat.not_lt.1 hfull)
    rw [List.take_left' htwo, List.drop_left' htwo]
    exact ⟨pieces, rfl, rfl, hpieces⟩

/-- An input that ends earlier ends between two requests, or is truncated. -/
theorem readFrame_of_lt {filled : Bytes} {pieces : List Bytes}
    (hpieces : ∀ piece ∈ pieces, piece ≠ []) (hbytes : (filled ++ pieces.flatten).length < 2) :
    readFrame filled pieces =
      (if filled ++ pieces.flatten = [] then .ok none
        else .error (.truncatedRequest (filled ++ pieces.flatten).length), []) := by
  fun_induction readFrame filled pieces with
  | case1 filled pieces hroom rest hread =>
    obtain ⟨rfl, rfl⟩ := read_eq_nil (Nat.sub_pos_of_lt hroom) hpieces hread
    rw [List.flatten_nil, List.append_nil]
  | case2 filled pieces hroom byte bytes rest hread ih =>
    have hflatten := read_flatten (requestLength - filled.length) pieces
    have hspec := read_spec (requestLength - filled.length) hpieces
    rw [hread] at hflatten hspec
    have hsame : (filled ++ byte :: bytes) ++ rest.flatten = filled ++ pieces.flatten := by
      rw [List.append_assoc, hflatten]
    rw [← hsame] at hbytes ⊢
    exact ih hspec.2 hbytes
  | case3 filled pieces hfull =>
    rw [List.length_append] at hbytes
    exact absurd (Nat.lt_of_le_of_lt (Nat.le_add_right ..) hbytes) hfull

/-! ## Whole connections -/

def endOf (bytes : Bytes) (asked : Except TimestampError Unit) : Except TimestampError Unit :=
  asked.bind fun _ =>
    if bytes.length % 2 = 0 then .ok () else .error (.protocol (.truncatedRequest 1))

theorem handle_of_frame {pieces rest : List Bytes} {frame : Bytes} (o : Oracle)
    (hread : readFrame [] pieces = (.ok (some frame), rest)) :
    handle pieces o =
      match o.next with
      | .error e o => (([], .error e), o)
      | .ok time o =>
        (((Response.mk (CallerId.decode frame) time).encode ++ (handle rest o).1.1,
          (handle rest o).1.2), (handle rest o).2) := by
  rw [handle]
  split
  · rename_i hother
    cases hother.symm.trans hread
  · rename_i hother
    cases hother.symm.trans hread
  · rename_i hsame
    cases hsame.symm.trans hread
    have hdraw : TimestampSource.draw o = o.next := rfl
    rw [hdraw]
    cases o.next <;> rfl

theorem handle_of_end {pieces : List Bytes} (o : Oracle)
    (hread : readFrame [] pieces = (.ok none, [])) : handle pieces o = (([], .ok ()), o) := by
  rw [handle]
  split
  · rfl
  · rename_i hother
    cases hother.symm.trans hread
  · rename_i hother
    cases hother.symm.trans hread

theorem handle_of_fault {pieces : List Bytes} {fault : FrameFault} (o : Oracle)
    (hread : readFrame [] pieces = (.error fault, [])) :
    handle pieces o = (([], .error (.protocol fault)), o) := by
  rw [handle]
  split
  · rename_i hother
    cases hother.symm.trans hread
  · rename_i hsame
    cases hsame.symm.trans hread
    rfl
  · rename_i hother
    cases hother.symm.trans hread

/-- The read loop gives the same responses as one read of all bytes. -/
theorem handle_eq : ∀ (bytes : Bytes) {pieces : List Bytes} (o : Oracle),
    (∀ piece ∈ pieces, piece ≠ []) → pieces.flatten = bytes →
    handle pieces o =
      ((responsesTo bytes (o.ask (bytes.length / 2)).1.1,
        endOf bytes (o.ask (bytes.length / 2)).1.2), (o.ask (bytes.length / 2)).2)
  | first :: second :: rest, pieces, o, hpieces, hbytes => by
    obtain ⟨left, hread, hleft, hpieces'⟩ := @readFrame_of_le [] pieces (Nat.zero_le _) hpieces
      (by simp [hbytes])
    rw [List.nil_append, hbytes] at hread hleft
    have hhalf : (first :: second :: rest).length / 2 = rest.length / 2 + 1 := by
      simp only [List.length_cons]
      omega
    have hodd : (first :: second :: rest).length % 2 = rest.length % 2 := by
      simp only [List.length_cons]
      omega
    rw [handle_of_frame o hread, hhalf, Oracle.ask]
    cases hnext : o.next with
    | error e o' => simp [responsesTo, endOf, Except.bind]
    | ok time o' =>
      have hrest := handle_eq rest o' hpieces' hleft
      simp only [hrest, responsesTo, requestsIn, endOf, hodd]
      rfl
  | [byte], pieces, o, hpieces, hbytes => by
    have hread := @readFrame_of_lt [] pieces hpieces (by simp [hbytes])
    rw [List.nil_append, hbytes, if_neg (by simp)] at hread
    simpa [responsesTo, requestsIn, Oracle.ask, endOf, Except.bind] using handle_of_fault o hread
  | [], pieces, o, hpieces, hbytes => by
    have hread := @readFrame_of_lt [] pieces hpieces (by simp [hbytes])
    rw [List.nil_append, hbytes, if_pos rfl] at hread
    exact handle_of_end o hread

/-! ## Piece by piece -/

def receiveAll (c : Connection) : List Bytes → Oracle → (Bytes × Connection) × Oracle
  | [], o => (([], c), o)
  | piece :: pieces, o =>
    let ((sent, c), o) := c.receive piece o
    let ((sent', c), o) := c.receiveAll pieces o
    ((sent ++ sent', c), o)

/-- Later bytes are received by the connection that is left. -/
theorem answer_append : ∀ (bytes later : Bytes) (o : Oracle),
    answer (bytes ++ later) o =
      (((answer bytes o).1.1 ++ ((answer bytes o).1.2.receive later (answer bytes o).2).1.1,
        ((answer bytes o).1.2.receive later (answer bytes o).2).1.2),
        ((answer bytes o).1.2.receive later (answer bytes o).2).2)
  | first :: second :: rest, later, o => by
    simp only [List.cons_append, answer]
    cases TimestampSource.draw o with
    | error e o' => rfl
    | ok time o' =>
      simp only [answer_append rest later o', List.append_assoc]
  | [], later, o => rfl
  | [byte], later, o => rfl

theorem answer_append_flatten (pieces : List Bytes) (bytes : Bytes) (o : Oracle) :
    answer (bytes ++ pieces.flatten) o =
      (((answer bytes o).1.1 ++ ((answer bytes o).1.2.receiveAll pieces (answer bytes o).2).1.1,
        ((answer bytes o).1.2.receiveAll pieces (answer bytes o).2).1.2),
        ((answer bytes o).1.2.receiveAll pieces (answer bytes o).2).2) := by
  induction pieces generalizing bytes with
  | nil => simp [receiveAll]
  | cons piece pieces ih =>
    rw [List.flatten_cons, ← List.append_assoc, ih, answer_append bytes piece o]
    simp only [receiveAll, List.append_assoc]

theorem receiveAll_opened (pieces : List Bytes) (o : Oracle) :
    opened.receiveAll pieces o = answer pieces.flatten o :=
  (answer_append_flatten pieces [] o).symm

theorem answer_eq : ∀ (bytes : Bytes) (o : Oracle),
    (answer bytes o).1.1 = responsesTo bytes (o.ask (bytes.length / 2)).1.1 ∧
      (answer bytes o).1.2.closed = !(o.ask (bytes.length / 2)).1.2.isOk ∧
      (answer bytes o).2 = (o.ask (bytes.length / 2)).2
  | first :: second :: rest, o => by
    have hhalf : (first :: second :: rest).length / 2 = rest.length / 2 + 1 := by
      simp only [List.length_cons]
      omega
    have hdraw : TimestampSource.draw o = o.next := rfl
    simp only [answer, hdraw, hhalf, Oracle.ask]
    cases o.next with
    | error e o' => simp [responsesTo, Except.isOk, Except.toBool]
    | ok time o' =>
      obtain ⟨hsent, hclosed, horacle⟩ := answer_eq rest o'
      simp only [hsent, hclosed, horacle, responsesTo, requestsIn, and_true]
      rfl
  | [], o => ⟨rfl, rfl, rfl⟩
  | [byte], o => by simp [answer, responsesTo, requestsIn, Oracle.ask, Except.isOk, Except.toBool]

/-- For every split of a request string into nonempty reads and every oracle state: the read loop
writes for each complete request, in order, a response with its caller id and the next timestamp,
and these ascend. It ends at the first request that the oracle refuses, which is its last call to
the oracle; a trailing half request gets no response and makes no call. A connection that receives
the pieces one by one gives the same responses, and is closed exactly if the oracle refused. -/
theorem handle_pieces (pieces : List Bytes) (hpieces : ∀ piece ∈ pieces, piece ≠ []) (o : Oracle) :
    let bytes := pieces.flatten
    let asked := o.ask (bytes.length / 2)
    handle pieces o = ((responsesTo bytes asked.1.1, endOf bytes asked.1.2), asked.2) ∧
      (requestsIn bytes).length = bytes.length / 2 ∧ asked.1.1.Pairwise (· < ·) ∧
      (asked.1.2 = .ok () ↔ asked.1.1.length = bytes.length / 2) ∧
      (opened.receiveAll pieces o).1.1 = responsesTo bytes asked.1.1 ∧
      (opened.receiveAll pieces o).1.2.closed = !asked.1.2.isOk ∧
      (opened.receiveAll pieces o).2 = asked.2 := by
  intro bytes asked
  rw [receiveAll_opened]
  exact ⟨handle_eq bytes o hpieces rfl, length_requestsIn bytes, Oracle.ask_increasing _ o,
    Oracle.ask_eq_ok_iff, answer_eq bytes o⟩

/-- Three requests and half of another one, cut in the middle of requests, while only two timestamps
are left. -/
theorem handle_pieces_atTop :
    let pieces : List Bytes := [[0], [3, 0, 4, 255], [255, 7]]
    let top : Oracle := ⟨.memory (.startingAt 0x7FFFFFFFFFFFFFFD), 0x7FFFFFFFFFFFFFFD,
      0x7FFFFFFFFFFFFFFD, 16, 0, 0⟩
    let sent : Bytes :=
      [0, 3, 127, 255, 255, 255, 255, 255, 255, 254, 0, 4, 127, 255, 255, 255, 255, 255, 255, 255]
    (∀ piece ∈ pieces, piece ≠ []) ∧ (handle pieces top).1.1 = sent ∧
      (opened.receiveAll pieces top).1.1 = sent ∧
      (opened.receiveAll pieces top).1.2.closed = true := by
  intro pieces top sent
  have hpieces : ∀ piece ∈ pieces, piece ≠ [] := by decide
  obtain ⟨hhandle, -, -, -, hsent, hclosed, -⟩ := handle_pieces pieces hpieces top
  have hbytes : responsesTo pieces.flatten (top.ask (pieces.flatten.length / 2)).1.1 = sent := by
    decide +kernel
  have hrefused : (top.ask (pieces.flatten.length / 2)).1.2.isOk = false := by decide +kernel
  refine ⟨hpieces, ?_, hsent.trans hbytes, ?_⟩
  · rw [hhandle]
    exact hbytes
  · rw [hclosed, hrefused]
    rfl

end Connection

end Mvcc

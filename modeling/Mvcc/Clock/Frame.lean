import Mvcc.Clock.Error
import Mvcc.Clock.Timestamp
import Mvcc.Data.Bytes

/-!
# Timestamp frames

A request is a caller's number in two bytes. A response is that number and a timestamp in eight
more, read as a signed word that has to be positive.
-/

namespace Mvcc

abbrev CallerId := Int16

namespace CallerId

def encode (caller : CallerId) : Bytes := BigEndian.encode 2 caller.toUInt16.toNat

def decode (bytes : Bytes) : CallerId := (UInt16.ofNat (BigEndian.decode bytes)).toInt16

end CallerId

structure Response where
  caller : CallerId
  time : Timestamp
  deriving DecidableEq

def requestLength : Nat := 2

def responseLength : Nat := 10

/-- Take a request off the front. A fragment shorter than a request stays where it is. -/
def takeRequest (bytes : Bytes) : Except FrameFault CallerId × Bytes :=
  if bytes.length < requestLength then (.error (.truncatedRequest bytes.length), bytes)
  else (.ok (CallerId.decode (bytes.take 2)), bytes.drop 2)

namespace Response

def encode (response : Response) : Bytes :=
  response.caller.encode ++ BigEndian.ofWord response.time

/-- Take a response off the front. A refused timestamp has been taken, a fragment has not. -/
def take (bytes : Bytes) : Except FrameFault Response × Bytes :=
  if bytes.length < responseLength then (.error (.truncatedResponse bytes.length), bytes)
  else
    let time := BigEndian.toWord ((bytes.drop 2).take 8)
    let rest := bytes.drop 10
    if time.toInt64 ≤ 0 then (.error (.invalidTimestamp time.toInt64.toInt), rest)
    else (.ok ⟨CallerId.decode (bytes.take 2), time⟩, rest)

end Response

/-- The frames read off a byte string, the fault that ended the reading, and what is left. -/
structure FrameRun (α : Type) where
  frames : List α
  fault : Option FrameFault
  rest : Bytes
  deriving DecidableEq

def takeFrames {α : Type} (take : Bytes → Except FrameFault α × Bytes) :
    Nat → Bytes → FrameRun α
  | 0, bytes => ⟨[], none, bytes⟩
  | fuel + 1, bytes =>
    match take bytes with
    | (.error fault, rest) => ⟨[], some fault, rest⟩
    | (.ok frame, []) => ⟨[frame], none, []⟩
    | (.ok frame, rest) =>
      let run := takeFrames take fuel rest
      { run with frames := frame :: run.frames }

/-- Take requests until one fails or nothing is left; there is always one attempt. -/
def takeRequests (bytes : Bytes) : FrameRun CallerId :=
  takeFrames takeRequest (bytes.length + 1) bytes

def takeResponses (bytes : Bytes) : FrameRun Response :=
  takeFrames Response.take (bytes.length + 1) bytes

end Mvcc

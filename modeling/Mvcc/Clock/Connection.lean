import Mvcc.Clock.Frame
import Mvcc.Clock.Oracle

/-!
# Connections to the timestamp server

Bytes arrive in pieces of any length. Each complete request is answered with a timestamp of its own,
in order of arrival. The connection ends when the oracle refuses a timestamp, or when the stream
ends inside a request.
-/

namespace Mvcc

structure Connection where
  /-- The bytes of an incomplete request. -/
  pending : Bytes
  closed : Bool
  deriving DecidableEq

namespace Connection

def opened : Connection := ⟨[], false⟩

section

variable {τ : Type} [TimestampSource τ]

/-- Answer every complete request in some bytes: the responses, and the connection afterwards. -/
def answer : Bytes → τ → (Bytes × Connection) × τ
  | first :: second :: rest, source =>
    match TimestampSource.draw source with
    | .ok time source =>
      let response : Response := ⟨CallerId.decode [first, second], time⟩
      let ((sent, connection), source) := answer rest source
      ((response.encode ++ sent, connection), source)
    | .error _ source => (([], ⟨[], true⟩), source)
  | rest, source => (([], ⟨rest, false⟩), source)

def receive (connection : Connection) (bytes : Bytes) (source : τ) :
    (Bytes × Connection) × τ :=
  if connection.closed then (([], connection), source)
  else answer (connection.pending ++ bytes) source

end

/-- Why the connection was closed, if the client stopped in the middle of a request. -/
def finish (connection : Connection) : Option FrameFault :=
  if connection.closed || connection.pending.isEmpty then none
  else some (.truncatedRequest connection.pending.length)

end Connection

end Mvcc

import Mvcc.Clock.Frame

/-!
# Timestamp clients

Many calls share one connection. Each call in flight has a unique caller id, under which its
response is delivered. Ids are assigned cyclically, skipping those in use. A response without a call
in flight is ignored. An invalid frame closes the connection and fails every call in flight.
-/

namespace Mvcc

structure PendingCall where
  caller : CallerId
  /-- The number of the call. -/
  call : Nat
  deriving DecidableEq

structure Client where
  nextCaller : UInt16
  calls : Nat
  inFlight : List PendingCall
  /-- The bytes of an incomplete response. -/
  pending : Bytes
  closed : Bool
  /-- The results by call number, in order of arrival. -/
  results : List (Nat × Except TimestampError Timestamp)

namespace Client

def connected : Client := ⟨0, 0, [], [], false, []⟩

def isInUse (client : Client) (caller : CallerId) : Bool :=
  client.inFlight.any (·.caller = caller)

/-- The first of the next `count` caller ids that is not in use. -/
def freeCaller? (client : Client) : Nat → UInt16 → Option UInt16
  | 0, _ => none
  | count + 1, next =>
    if client.isInUse next.toInt16 then freeCaller? client count (next + 1) else some next

def settle (client : Client) (call : Nat) (result : Except TimestampError Timestamp) : Client :=
  { client with results := client.results ++ [(call, result)] }

def callerIds : Nat := 65536

def call (client : Client) : Bytes × Client :=
  let number := client.calls
  let client := { client with calls := number + 1 }
  match client.freeCaller? callerIds client.nextCaller with
  | none => ([], client.settle number (.error (.protocol .noFreeCaller)))
  | some next =>
    let client := { client with nextCaller := next + 1 }
    if client.closed then ([], client.settle number (.error .closed))
    else
      (CallerId.encode next.toInt16, { client with
        inFlight := client.inFlight ++ [⟨next.toInt16, number⟩] })

def close (client : Client) : Client :=
  { client with
    closed := true
    pending := []
    inFlight := []
    results := client.results ++ client.inFlight.map fun waiting => (waiting.call, .error .closed) }

/-- Complete the call that waits under the caller id of the response, if there is one. -/
def deliver (client : Client) (response : Response) : Client :=
  match client.inFlight.find? (·.caller = response.caller) with
  | none => client
  | some waiting =>
    { client with inFlight := client.inFlight.filter (·.caller ≠ response.caller) }.settle
      waiting.call (.ok response.time)

def takeAnswers : Nat → Client → Client
  | 0, client => client
  | fuel + 1, client =>
    match Response.take client.pending with
    | (.ok response, rest) => takeAnswers fuel ({ client with pending := rest }.deliver response)
    | (.error (.truncatedResponse _), _) => client
    | (.error _, _) => client.close

def receive (client : Client) (bytes : Bytes) : Client :=
  if client.closed then client
  else
    let pending := client.pending ++ bytes
    takeAnswers (pending.length + 1) { client with pending := pending }

end Client

end Mvcc

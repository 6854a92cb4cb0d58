import Mvcc.Clock.Client
import Mvcc.Clock.Host

/-!
# Links between clients and the timestamp server

A link is a connection with both of its ends, in atomic steps of the client's calls, the client's
reader and the server. Bytes are delivered in order. Either end may lose the connection at any time,
also inside a frame; bytes still in transit are then discarded.
-/

namespace Mvcc

/-! ## The server's end -/

inductive ServerStage where
  | reading
  /-- A request was read; its oracle call is in progress. -/
  | asking (caller : CallerId) (call : Nat)
  | closed

/-- The two directions of a connection and the server at the end of them. -/
structure Channel where
  /-- Bytes in transit to the server. -/
  upstream : Bytes
  /-- Whether a write of the client has failed; all later ones fail. -/
  broken : Bool
  /-- Bytes in transit to the client. -/
  downstream : Bytes
  server : ServerStage
  /-- Requests written. -/
  sent : List PendingCall
  /-- The oracle calls of the requests read. -/
  served : List Nat
  /-- Responses written. -/
  replies : List Response
  /-- Number of responses read. -/
  taken : Nat

namespace Channel

def opened : Channel := ⟨[], false, [], .reading, [], [], [], 0⟩

def send (c : Channel) (request : PendingCall) : Channel :=
  { c with upstream := c.upstream ++ request.caller.encode, sent := c.sent ++ [request] }

/-- Write a prefix of a request and lose the connection. -/
def breakOff (c : Channel) (caller : CallerId) (bytes : Nat) : Channel :=
  { c with
    upstream := if c.broken then c.upstream else c.upstream ++ caller.encode.take bytes
    broken := true }

/-- Read a request and ask the oracle on its behalf. -/
def serve (c : Channel) (host : Host) : Channel × Host :=
  match c.server, host.session, takeRequest c.upstream with
  | .reading, some _, (.ok caller, rest) =>
    ({ c with
      upstream := rest
      server := .asking caller host.begun
      served := c.served ++ [host.begun] }, host.step .call)
  | _, _, _ => (c, host)

/-- Write the response once the oracle has answered. Without a timestamp the server closes. -/
def reply (c : Channel) (host : Host) : Channel :=
  match c.server with
  | .asking caller call =>
    match host.calls call with
    | some (.ended (.ok time)) =>
      { c with
        downstream := c.downstream ++ (Response.mk caller time).encode
        server := .reading
        replies := c.replies ++ [⟨caller, time⟩] }
    | some (.ended (.error _)) => { c with server := .closed }
    | _ => c
  | _ => c

/-- Write a prefix of the response and close. -/
def cutReply (c : Channel) (host : Host) (bytes : Nat) : Channel :=
  match c.server with
  | .asking caller call =>
    match host.calls call with
    | some (.ended (.ok time)) =>
      { c with
        downstream := c.downstream ++ (Response.mk caller time).encode.take bytes
        server := .closed }
    | _ => c
  | _ => c

def shut (c : Channel) : Channel :=
  match c.server with
  | .reading => { c with server := .closed }
  | _ => c

/-- The server has read the request of call `ask` and serves it by oracle call `call`. -/
def Asked (c : Channel) (ask call : Nat) : Prop :=
  ∃ (position : Nat) (caller : CallerId), c.sent[position]? = some ⟨caller, ask⟩ ∧
    c.served[position]? = some call

end Channel

/-! ## The client's end -/

namespace Client

/-- Put a new call in flight. The result is its caller id, unless none is free. -/
def register (client : Client) : Option CallerId × Client :=
  let number := client.calls
  let client := { client with calls := number + 1 }
  match client.freeCaller? callerIds client.nextCaller with
  | none => (none, client.settle number (.error (.protocol .noFreeCaller)))
  | some next => (some next.toInt16, { client with
      nextCaller := next + 1
      inFlight := client.inFlight ++ [⟨next.toInt16, number⟩] })

/-- Free a caller id. The call that waits under it is completed without an answer. -/
def withdraw (client : Client) (caller : CallerId) : Client :=
  { client with
    inFlight := client.inFlight.filter (·.caller ≠ caller)
    results := client.results ++ (client.inFlight.filter (·.caller = caller)).map
      fun waiting => (waiting.call, .error .closed) }

end Client

inductive AskStage where
  /-- The call is in flight; the closed flag is not checked yet. -/
  | registered (caller : CallerId)
  | cleared (caller : CallerId)
  | awaiting
  /-- The call is about to remove its caller id and fail. -/
  | failing (caller : CallerId) (e : TimestampError)
  | ended (result : Except TimestampError Timestamp)

/-- A client, its calls by number, and what connects it to the oracle. -/
structure Link extends Channel where
  client : Client
  asks : Nat → Option AskStage

namespace Link

def opened : Link := { Channel.opened with client := .connected, asks := fun _ => none }

inductive Event where
  | call
  /-- A call checks the closed flag. -/
  | check (ask : Nat)
  | write (ask : Nat)
  /-- A request is written only up to this many bytes. -/
  | breakOff (ask : Nat) (bytes : Fin requestLength) (fault : IoFault)
  | withdraw (ask : Nat)
  /-- A call returns its answer. -/
  | collect (ask : Nat)
  | receive
  /-- The client reaches the end of the stream. -/
  | lose
  /-- A closed client fails all calls in flight. -/
  | release
  | serve
  | reply
  /-- A response is written only up to this many bytes. -/
  | cutReply (bytes : Fin responseLength)
  /-- The server reaches the end of the stream. -/
  | shut

def put (l : Link) (ask : Nat) (stage : AskStage) : Link :=
  { l with asks := fun other => if other = ask then some stage else l.asks other }

def within (l : Link) (client : Client) : Link := { l with client := client }

def along (l : Link) (channel : Channel) : Link := { l with toChannel := channel }

def call (l : Link) : Link :=
  match l.client.register with
  | (none, client) =>
    (l.within client).put l.client.calls (.ended (.error (.protocol .noFreeCaller)))
  | (some caller, client) => (l.within client).put l.client.calls (.registered caller)

def check (l : Link) (ask : Nat) : Link :=
  match l.asks ask with
  | some (.registered caller) =>
    l.put ask (if l.client.closed then .failing caller .closed else .cleared caller)
  | _ => l

def write (l : Link) (ask : Nat) : Link :=
  match l.asks ask with
  | some (.cleared caller) =>
    if l.broken then l else (l.along (l.send ⟨caller, ask⟩)).put ask .awaiting
  | _ => l

def breakOff (l : Link) (ask bytes : Nat) (fault : IoFault) : Link :=
  match l.asks ask with
  | some (.cleared caller) =>
    (l.along (l.toChannel.breakOff caller bytes)).put ask (.failing caller (.io fault))
  | _ => l

def withdraw (l : Link) (ask : Nat) : Link :=
  match l.asks ask with
  | some (.failing caller e) => (l.within (l.client.withdraw caller)).put ask (.ended (.error e))
  | _ => l

def collect (l : Link) (ask : Nat) : Link :=
  match l.asks ask, l.client.results.lookup ask with
  | some .awaiting, some result => l.put ask (.ended result)
  | _, _ => l

def lose (l : Link) : Link := l.within { l.client with closed := true }

def release (l : Link) : Link := if l.client.closed then l.within l.client.close else l

/-- Read one response and complete its call. A response that does not parse ends the reading. -/
def receive (l : Link) : Link :=
  if l.client.closed then l
  else match Response.take l.downstream with
    | (.ok response, rest) =>
      (l.along { l.toChannel with downstream := rest, taken := l.taken + 1 }).within
        (l.client.deliver response)
    | (.error (.truncatedResponse _), _) => l
    | (.error _, _) => l.lose

/-- Only a server that reads a request has an effect on its host. -/
def step (l : Link) (host : Host) : Event → Link × Host
  | .call => (l.call, host)
  | .check ask => (l.check ask, host)
  | .write ask => (l.write ask, host)
  | .breakOff ask bytes fault => (l.breakOff ask bytes fault, host)
  | .withdraw ask => (l.withdraw ask, host)
  | .collect ask => (l.collect ask, host)
  | .receive => (l.receive, host)
  | .lose => (l.lose, host)
  | .release => (l.release, host)
  | .serve =>
    let (channel, host) := l.toChannel.serve host
    (l.along channel, host)
  | .reply => (l.along (l.toChannel.reply host), host)
  | .cutReply bytes => (l.along (l.toChannel.cutReply host bytes), host)
  | .shut => (l.along l.toChannel.shut, host)

end Link

end Mvcc

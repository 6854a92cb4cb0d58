import Mvcc.Clock.Link

/-!
# Links to an arbitrary peer

The remote end of such a link may send any bytes at any time, and the connection may be lost after
any of them. The client takes the same steps as on any link. Reading an invalid frame and closing
the client are one step: no other step observes the state in between.
-/

namespace Mvcc.Link

/-- An event on a link whose other end is arbitrary. -/
inductive Encounter where
  | call
  | check (ask : Nat)
  | write (ask : Nat)
  | breakOff (ask : Nat) (bytes : Fin requestLength) (fault : IoFault)
  | withdraw (ask : Nat)
  | collect (ask : Nat)
  | receive
  | lose
  | release
  /-- Bytes sent by the remote end, possibly none. -/
  | arrive (bytes : Bytes)

def arrive (l : Link) (bytes : Bytes) : Link :=
  l.along { l.toChannel with downstream := l.downstream ++ bytes }

def meet (l : Link) : Encounter → Link
  | .call => l.call
  | .check ask => l.check ask
  | .write ask => l.write ask
  | .breakOff ask bytes fault => l.breakOff ask bytes fault
  | .withdraw ask => l.withdraw ask
  | .collect ask => l.collect ask
  | .receive => l.receive
  | .lose => l.lose
  | .release => l.release
  | .arrive bytes => l.arrive bytes

def after (schedule : Nat → Encounter) : Nat → Link
  | 0 => opened
  | count + 1 => (after schedule count).meet (schedule count)

/-- After this event no response can be read: the connection is lost, or the next response has an
invalid timestamp. -/
def Ends (l : Link) : Encounter → Prop
  | .lose => True
  | .receive => ∃ time rest, Response.take l.downstream = (.error (.invalidTimestamp time), rest)
  | _ => False

/-- The next step of a call. A waiting call takes none before it has a result. -/
def Takes (l : Link) (ask : Nat) (encounter : Encounter) : Prop :=
  match l.asks ask with
  | some (.registered _) => encounter = .check ask
  | some (.cleared _) =>
    encounter = .write ask ∧ l.broken = false ∨
      ∃ bytes fault, encounter = .breakOff ask bytes fault
  | some .awaiting => encounter = .collect ask ∧ (l.client.results.lookup ask).isSome
  | some (.failing _ _) => encounter = .withdraw ask
  | some (.ended _) | none => False

/-- Fairness: a call that can step does so eventually. -/
def Diligent (schedule : Nat → Encounter) (ask : Nat) : Prop :=
  ∀ count, (∃ encounter, (after schedule count).Takes ask encounter) →
    ∃ later ≥ count, (after schedule later).Takes ask (schedule later)

end Mvcc.Link

import Mvcc.Snapshot.Resolution

/-!
# The queue of cells to resolve

Readers enqueue cells without waiting, and workers dequeue them in order. An event that exceeds the
capacity or arrives after the end is dropped; a later reader enqueues the cell again.
-/

namespace Mvcc

structure ResolveEvent where
  table : String
  row : Bytes
  writer : TxnId
  /-- Whether the stamp is reported. -/
  reported : Bool
  deriving DecidableEq, Repr

structure ResolveQueue where
  capacity : Nat
  workers : Nat
  waiting : List ResolveEvent
  running : Bool
  stopped : Bool
  deriving DecidableEq, Repr

namespace ResolveQueue

def powerAtLeast (n : Nat) : Nat := if n ≤ 1 then 1 else 1 <<< (Nat.log2 (n - 1) + 1)

/-- An empty queue. Nothing is taken from it before it is started. -/
def new (workers size : Nat) : ResolveQueue :=
  ⟨powerAtLeast size, max workers 1, [], false, false⟩

/-- Start the workers. Doing so again, or after the end, changes nothing. -/
def start (q : ResolveQueue) : ResolveQueue :=
  if q.stopped then q else { q with running := true }

def shutdown (q : ResolveQueue) : ResolveQueue := { q with running := false, stopped := true }

def accepts (q : ResolveQueue) : Bool := !q.stopped && q.waiting.length < q.capacity

/-- Offer an event; the result is whether it was accepted. -/
def offer (q : ResolveQueue) (event : ResolveEvent) : Bool × ResolveQueue :=
  if q.accepts then (true, { q with waiting := q.waiting ++ [event] }) else (false, q)

end ResolveQueue

end Mvcc

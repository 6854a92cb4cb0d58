import Mvcc.Txn.Ledger

/-!
# Heartbeats

The heartbeat of a transaction writes its keep-alive slot at every multiple of the interval after it
was scheduled. It ends when the transaction is found to be finished, when it is finished or
cancelled, and at a shutdown. A cancellation is sent to the watch of the transaction and to a
bounded log of signals.
-/

namespace Mvcc

structure CancelSignal where
  txn : TxnId
  reason : String
  deriving DecidableEq, Repr

/-- Signals that were not read yet. When there are too many the oldest are lost. -/
structure SignalLog where
  unread : List CancelSignal
  lost : Nat
  deriving DecidableEq, Repr

namespace SignalLog

def capacity : Nat := 64

def empty : SignalLog := ⟨[], 0⟩

def add (log : SignalLog) (signal : CancelSignal) : SignalLog :=
  let unread := log.unread ++ [signal]
  let excess := unread.length - capacity
  ⟨unread.drop excess, log.lost + excess⟩

end SignalLog

structure Heartbeat where
  txn : TxnId
  /-- The next firing; none for a zero interval. -/
  due : Option Nat
  /-- The watch notified of a cancellation. -/
  watch : Nat
  deriving DecidableEq, Repr

structure Heartbeats where
  /-- The heartbeat interval in milliseconds. -/
  interval : Nat
  timer : Nat
  /-- The heartbeats of the tracked transactions, in scheduling order. -/
  running : List Heartbeat
  watches : Nat
  /-- The states sent to the watches. -/
  announced : List (Nat × CancelSignal)
  signals : SignalLog
  failures : Nat

namespace Heartbeats

def new (interval : UInt64) : Heartbeats := ⟨interval.toNat, 0, [], 0, [], .empty, 0⟩

def stopped (beats : Heartbeats) : Heartbeats := { beats with running := [] }

def find? (beats : Heartbeats) (id : TxnId) : Option Heartbeat :=
  beats.running.find? (·.txn = id)

def isTracked (beats : Heartbeats) (id : TxnId) : Bool := (beats.find? id).isSome

/-- When a heartbeat fires that fired or was scheduled at `time`. -/
def dueAfter (beats : Heartbeats) (time : Nat) : Option Nat :=
  if beats.interval = 0 then none else some (time + beats.interval)

/-- Start a heartbeat and give a watch on it. A transaction that has one keeps it. -/
def schedule (beats : Heartbeats) (id : TxnId) : Nat × Heartbeats :=
  match beats.find? id with
  | some beat => (beat.watch, beats)
  | none =>
    let beat : Heartbeat := ⟨id, beats.dueAfter beats.timer, beats.watches⟩
    (beats.watches, { beats with
      running := beats.running ++ [beat]
      watches := beats.watches + 1 })

def finish (beats : Heartbeats) (id : TxnId) : Heartbeats :=
  { beats with running := beats.running.filter (·.txn ≠ id) }

def announce (beats : Heartbeats) (signal : CancelSignal) : Heartbeats :=
  let announced := match beats.find? signal.txn with
    | some beat => beats.announced ++ [(beat.watch, signal)]
    | none => beats.announced
  { beats.finish signal.txn with
    announced := announced
    signals := beats.signals.add signal }

def watched (beats : Heartbeats) (watch : Nat) : Option CancelSignal :=
  beats.announced.lookup watch

/-- Every signal since the log was read last, and how many more were lost. -/
def readSignals (beats : Heartbeats) : SignalLog × Heartbeats :=
  (beats.signals, { beats with signals := .empty })

def nextDue (beats : Heartbeats) : Option Nat :=
  (beats.running.filterMap (·.due)).min?

def postpone (beats : Heartbeats) (id : TxnId) (time : Nat) : Heartbeats :=
  { beats with
    running := beats.running.map fun beat =>
      if beat.txn = id then { beat with due := beats.dueAfter time } else beat }

end Heartbeats

structure TendedLedger (τ : Type) where
  ledger : Ledger τ
  beats : Heartbeats

namespace TendedLedger

variable {τ : Type}

/-- One beat of a transaction at `time`. A failed beat is tried again the next time. -/
def beat (s : TendedLedger τ) (time : Nat) (id : TxnId) : TendedLedger τ :=
  match Ledger.keepAlive id s.ledger with
  | .ok true ledger => ⟨ledger, s.beats.postpone id time⟩
  | .ok false ledger => ⟨ledger, s.beats.finish id⟩
  | .error _ ledger =>
    ⟨ledger, { s.beats.postpone id time with failures := s.beats.failures + 1 }⟩

def beatsAt (s : TendedLedger τ) (time : Nat) : TendedLedger τ :=
  let due := s.beats.running.filter (·.due = some time)
  due.foldl (fun s b => s.beat time b.txn) { s with beats := { s.beats with timer := time } }

/-- Let the timer run to `target`, through at most `fuel` moments at which heartbeats fire. -/
def runTo (target : Nat) : Nat → TendedLedger τ → TendedLedger τ
  | 0, s => { s with beats := { s.beats with timer := target } }
  | fuel + 1, s =>
    match s.beats.nextDue with
    | some time =>
      if time ≤ target then runTo target fuel (s.beatsAt time)
      else { s with beats := { s.beats with timer := target } }
    | none => { s with beats := { s.beats with timer := target } }

/-- Let the timer run for some milliseconds. No two moments at which heartbeats fire are less than
a millisecond apart. -/
def elapse (s : TendedLedger τ) (milliseconds : Nat) : TendedLedger τ :=
  runTo (s.beats.timer + milliseconds) milliseconds s

def cancel (id : TxnId) (reason : String) : TxnM (TendedLedger τ) Unit := do
  modify fun s => { s with beats := s.beats.announce ⟨id, reason⟩ }
  TxnM.within (·.ledger) (fun s ledger => { s with ledger := ledger }) (Ledger.rollback id)

/-- Stop every heartbeat and roll back the transactions that had one, as far as that succeeds. -/
def shutdown (s : TendedLedger τ) : TendedLedger τ :=
  s.beats.running.foldl
    (fun s beat =>
      match Ledger.rollback beat.txn s.ledger with
      | .ok _ ledger => { s with ledger := ledger }
      | .error _ ledger => { s with ledger := ledger })
    { s with beats := s.beats.stopped }

end TendedLedger

end Mvcc

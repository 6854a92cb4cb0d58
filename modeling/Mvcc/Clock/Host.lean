import Mvcc.Clock.Call

/-!
# Successive oracles

A host opens an oracle on a mark and serves calls with it until a crash. Only the mark survives. A
crash may occur between any two stages of any call, and any store may fail.
-/

namespace Mvcc

/-- A running oracle with its calls; it ends with a crash of the host. -/
structure Session where
  oracle : Oracle
  /-- The call that holds the lock. -/
  turn : Option Nat
  /-- The number of calls begun before this session. -/
  first : Nat
  /-- The stored marks, newest first. -/
  stores : List Timestamp

namespace Session

/-- A call that waits for the turn proceeds only while no other call has it. -/
def mayProceed (s : Session) : CallStage → Bool
  | .waiting _ => s.turn.isNone
  | .ended _ => false
  | _ => true

/-- The session after a call moved between two stages and left this oracle. -/
def follow (s : Session) (call : Nat) (stage stage' : CallStage) (oracle : Oracle) : Session where
  oracle := oracle
  turn := if stage'.hasTurn then some call else if stage.hasTurn then none else s.turn
  first := s.first
  stores :=
    match stage' with
    | .stored time => s.oracle.blockEnd time :: s.stores
    | _ => s.stores

end Session

structure Host where
  /-- The mark at the end of the last session. -/
  mark : Mark
  session : Option Session
  /-- The calls by number, without those interrupted by a crash. -/
  calls : Nat → Option CallStage
  begun : Nat

namespace Host

inductive Event where
  | start (blockSize : UInt64)
  | crash
  /-- A call begins and increments the counter. -/
  | call
  | proceed (call : Nat)
  /-- The pending store of a call fails. -/
  | refuse (call : Nat) (e : TimestampError)

def closed (mark : Mark) : Host := ⟨mark, none, fun _ => none, 0⟩

def put (h : Host) (call : Nat) (stage : CallStage) : Host :=
  { h with calls := fun other => if other = call then some stage else h.calls other }

def within (h : Host) (s : Session) : Host := { h with session := some s }

def step (h : Host) : Event → Host
  | .start blockSize =>
    match h.session, Oracle.start h.mark blockSize with
    | none, .ok oracle => h.within ⟨oracle, none, h.begun, []⟩
    | _, _ => h
  | .crash =>
    match h.session with
    | some s =>
      { h with mark := s.oracle.mark, session := none, calls := fun call =>
        (h.calls call).filter CallStage.isEnded }
    | none => h
  | .call =>
    match h.session with
    | some s =>
      { (h.put h.begun (.counted s.oracle.count.counter)).within
        { s with oracle := s.oracle.count } with begun := h.begun + 1 }
    | none => h
  | .proceed call =>
    match h.session, h.calls call with
    | some s, some stage =>
      if s.mayProceed stage then
        let (stage', oracle) := s.oracle.proceed stage
        (h.put call stage').within (s.follow call stage stage' oracle)
      else h
    | _, _ => h
  | .refuse call e =>
    match h.session, h.calls call with
    | some s, some (.storing time) =>
      (h.put call (.leaving (.error e))).within
        (s.follow call (.storing time) (.leaving (.error e)) s.oracle)
    | _, _ => h

def run (h : Host) (events : List Event) : Host := events.foldl step h

/-- What a restart would recover from. -/
def durable (h : Host) : Except TimestampError Timestamp :=
  match h.session with
  | some s => s.oracle.mark.load
  | none => h.mark.load

def served (h : Host) : Nat :=
  match h.session with
  | some s => h.begun - s.first
  | none => 0

/-- A call returned a timestamp. -/
def Returned (h : Host) (call : Nat) (time : Timestamp) : Prop :=
  h.calls call = some (.ended (.ok time))

end Host

end Mvcc

import Mvcc.Batch.RowLocks

/-!
# Contention for row locks

Concurrent calls for locks, each acquiring its stripes one at a time. A call that holds all of its
stripes is a guard and keeps them until it is dropped. A waiting call may be cancelled at any time.
-/

namespace Mvcc

/-- A call for locks or the guard it returned, with the rows it covers. -/
structure Contender where
  table : String
  rows : List Bytes
  call : LockCall
  deriving DecidableEq, Repr

/-- Striped locks with the calls that hold or await them, in order of arrival. -/
structure Contention where
  stripes : Nat
  contenders : List Contender
  deriving DecidableEq, Repr

namespace Contention

def around (locks : RowLocks) : Contention := ⟨locks.stripes, []⟩

def locks (s : Contention) : RowLocks := ⟨s.stripes, s.contenders.map (·.call)⟩

def isWaiting (s : Contention) (c : Contender) : Bool := c.call.needed.head?.any s.locks.isTaken

inductive Move where
  /-- A call begins, under a fresh id. -/
  | enter (holder table : String) (rows : List Bytes)
  /-- A call acquires its next stripe, if free. -/
  | take (holder : String)
  /-- A guard is dropped, or a call cancelled. -/
  | leave (holder : String)
  deriving DecidableEq, Repr

def step (s : Contention) : Move → Contention
  | .enter holder table rows =>
    if s.contenders.any (·.call.holder = holder) then s
    else
      let call : LockCall := ⟨holder, [], s.locks.stripesOf table rows⟩
      { s with contenders := s.contenders ++ [⟨table, rows, call⟩] }
  | .take holder =>
    { s with contenders := s.contenders.map fun c =>
        if c.call.holder = holder then { c with call := (s.locks.advance c.call).getD c.call }
        else c }
  | .leave holder => { s with contenders := s.contenders.filter (·.call.holder ≠ holder) }

def run (s : Contention) (moves : List Move) : Contention := moves.foldl step s

end Contention

end Mvcc

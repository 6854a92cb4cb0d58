import Mvcc.Data.Crc32c
import Mvcc.Text.Utf8

/-!
# Row locks

A writer locks every row of its batch from the check until the writes are done. Rows are spread
over a fixed number of stripes by checksum. A call takes its stripes one at a time in ascending
order and waits for one that is taken; since all calls take them in the same order, no circle of
waiting calls can arise.
-/

namespace Mvcc

structure LockCall where
  holder : String
  held : List Nat
  needed : List Nat
  deriving DecidableEq, Repr

def LockCall.isComplete (call : LockCall) : Bool := call.needed.isEmpty

/-- Striped locks and the calls that hold or await them. -/
structure RowLocks where
  stripes : Nat
  calls : List LockCall
  deriving DecidableEq, Repr

namespace RowLocks

def standardStripes : Nat := 1024

def new (stripes : Nat) : RowLocks := ⟨max stripes 1, []⟩

def stripe (locks : RowLocks) (table : String) (row : Bytes) : Nat :=
  (Crc32c.checksum (Text.toUtf8 table ++ row)).toNat % locks.stripes

def dedupNeighbours : List Nat → List Nat
  | a :: b :: rest =>
    if a = b then dedupNeighbours (b :: rest) else a :: dedupNeighbours (b :: rest)
  | rest => rest

def stripesOf (locks : RowLocks) (table : String) (rows : List Bytes) : List Nat :=
  dedupNeighbours ((rows.map (locks.stripe table)).mergeSort (· ≤ ·))

def isTaken (locks : RowLocks) (stripe : Nat) : Bool := locks.calls.any (stripe ∈ ·.held)

/-- Take the next stripe for a call, unless another call holds it. -/
def advance (locks : RowLocks) (call : LockCall) : Option LockCall :=
  match call.needed with
  | [] => none
  | stripe :: needed =>
    if locks.isTaken stripe then none
    else some { call with held := call.held ++ [stripe], needed := needed }

/-- Take stripes for a call until it is complete or has to wait. -/
def acquire (locks : RowLocks) : Nat → LockCall → LockCall
  | 0, call => call
  | fuel + 1, call =>
    match locks.advance call with
    | some call => acquire locks fuel call
    | none => call

def tryLock (locks : RowLocks) (holder table : String) (rows : List Bytes) : Bool × RowLocks :=
  let needed := locks.stripesOf table rows
  let call := locks.acquire needed.length ⟨holder, [], needed⟩
  if call.isComplete then
    (true, { locks with calls := locks.calls.filter (·.holder ≠ holder) ++ [call] })
  else (false, locks)

/-- Release all stripes of a holder; the result is whether it held any. -/
def unlock (locks : RowLocks) (holder : String) : Bool × RowLocks :=
  (locks.calls.any (·.holder = holder),
    { locks with calls := locks.calls.filter (·.holder ≠ holder) })

end RowLocks

end Mvcc

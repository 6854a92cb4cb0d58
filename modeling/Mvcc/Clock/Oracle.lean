import Mvcc.Clock.Mark
import Mvcc.Data.Word

/-!
# The timestamp oracle

Timestamps are counted in memory. A count beyond the reserved bound first reserves a whole block by
raising the durable mark, so timestamps are not reused after a restart. A count whose reservation
fails is lost.
-/

namespace Mvcc

/-- A stateful source of timestamps. -/
class TimestampSource (τ : Type) where
  draw : EStateM TimestampError τ Timestamp

structure Oracle where
  mark : Mark
  /-- The counter. -/
  counter : Timestamp
  /-- The greatest reserved timestamp. -/
  reserved : Timestamp
  blockSize : UInt64
  issued : Nat
  reservations : Nat
  deriving DecidableEq

namespace Oracle

/-- Recover from a stored mark. Later timestamps are above it. -/
def start (mark : Mark) (blockSize : UInt64) : Except TimestampError Oracle := do
  let value ← mark.load
  if Timestamp.greatest ≤ value then throw .exhausted
  pure ⟨mark, value, value, max blockSize 1, 0, 0⟩

def count (o : Oracle) : Oracle := { o with counter := o.counter + 1 }

def blockEnd (o : Oracle) (time : Timestamp) : Timestamp :=
  min (Word.addCapped time (o.blockSize - 1)) Timestamp.greatest

/-- Make a block that begins at `time` durable, then usable. -/
def reserve (o : Oracle) (time : Timestamp) : Except TimestampError Oracle :=
  (o.mark.store (o.blockEnd time)).map fun mark =>
    { o with mark := mark, reserved := o.blockEnd time, reservations := o.reservations + 1 }

def hand (o : Oracle) : Oracle := { o with issued := o.issued + 1 }

def next : EStateM TimestampError Oracle Timestamp := fun o =>
  let o := o.count
  if Timestamp.greatest < o.counter then .error .exhausted o
  else if o.counter ≤ o.reserved then .ok o.counter o.hand
  else match o.reserve o.counter with
    | .error e => .error e o
    | .ok o => .ok o.counter o.hand

instance : TimestampSource Oracle := ⟨next⟩

end Oracle

end Mvcc

import Mvcc.Data.Bytes
import Mvcc.Clock.Timestamp

/-!
# Stamps

A stamp is the outcome of the transaction that wrote a cell, stored beside the cell so that later
readers skip the look-up.
-/

namespace Mvcc

inductive Stamp where
  /-- The writer committed, effectively at this timestamp. -/
  | committed (time : Timestamp)
  /-- The writer rolled back. -/
  | rolledBack
  deriving DecidableEq, Repr

inductive StampFault where
  | empty
  | badTag (tag : UInt8) (trailing : Nat)
  deriving DecidableEq, Repr

def StampFault.message : StampFault → String
  | .empty => "empty stamp"
  | .badTag tag trailing => s!"bad stamp tag {tag.toNat} ({trailing} trailing bytes)"

namespace Stamp

/-- A tag byte, then the timestamp of a commit. -/
def encode : Stamp → Bytes
  | .committed time => 1 :: BigEndian.ofWord time
  | .rolledBack => [2]

def decode : Bytes → Except StampFault Stamp
  | [] => .error .empty
  | tag :: rest =>
    if tag = 1 ∧ rest.length = 8 then .ok (.committed (BigEndian.toWord rest))
    else if tag = 2 ∧ rest = [] then .ok .rolledBack
    else .error (.badTag tag rest.length)

end Stamp

end Mvcc

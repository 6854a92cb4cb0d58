import Mvcc.Clock.Oracle

/-!
# Timestamp calls in steps

Concurrent calls of an oracle, interleaved stage by stage. A reservation is made under a lock: the
call that holds it has the turn.
-/

namespace Mvcc

inductive CallStage where
  | counted (time : Timestamp)
  /-- The timestamp is not reserved; the call waits for the lock. -/
  | waiting (time : Timestamp)
  | admitted (time : Timestamp)
  /-- The lock is held and the timestamp still not reserved; the mark is stored next. -/
  | storing (time : Timestamp)
  /-- The mark is stored; the reserved bound is not updated yet. -/
  | stored (time : Timestamp)
  /-- The call is about to release the lock. -/
  | leaving (result : Except TimestampError Timestamp)
  | granted (time : Timestamp)
  | ended (result : Except TimestampError Timestamp)

namespace CallStage

def hasTurn : CallStage → Bool
  | .admitted _ | .storing _ | .stored _ | .leaving _ => true
  | _ => false

def isEnded : CallStage → Bool
  | .ended _ => true
  | _ => false

def time? : CallStage → Option Timestamp
  | .counted time | .waiting time | .admitted time | .storing time | .stored time
  | .granted time => some time
  | .leaving result | .ended result => result.toOption

end CallStage

namespace Oracle

def proceed (o : Oracle) : CallStage → CallStage × Oracle
  | .counted time =>
    if Timestamp.greatest < time then (.ended (.error .exhausted), o)
    else if time ≤ o.reserved then (.granted time, o)
    else (.waiting time, o)
  | .waiting time => (.admitted time, o)
  | .admitted time => if time ≤ o.reserved then (.leaving (.ok time), o) else (.storing time, o)
  | .storing time =>
    match o.mark.store (o.blockEnd time) with
    | .ok mark => (.stored time, { o with mark := mark })
    | .error e => (.leaving (.error e), o)
  | .stored time =>
    (.leaving (.ok time),
      { o with reserved := o.blockEnd time, reservations := o.reservations + 1 })
  | .leaving (.ok time) => (.granted time, o)
  | .leaving (.error e) => (.ended (.error e), o)
  | .granted time => (.ended (.ok time), o.hand)
  | .ended result => (.ended result, o)

end Oracle

end Mvcc

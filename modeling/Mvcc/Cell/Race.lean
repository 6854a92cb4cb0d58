import Mvcc.Cell.Version

/-!
# Concurrent calls on one version

Any number of callers stamp and purge the same version. Each executes the partition operations of
its call one at a time, interleaved with those of the others.
-/

namespace Mvcc

inductive VersionCall where
  | stamp (outcome : Stamp)
  | purge
  deriving DecidableEq, Repr

namespace VersionCall

def first : VersionCall → VersionTask
  | .stamp _ => .probe
  | .purge => .dropValue

def written : VersionCall → Stamp
  | .stamp outcome => outcome
  | .purge => .rolledBack

end VersionCall

structure VersionCaller where
  call : VersionCall
  /-- The next operation; none once the call has returned. -/
  next : Option VersionTask
  /-- The error that ended the call, if any. -/
  failure : Option StorageError
  deriving DecidableEq, Repr

def VersionCall.caller (call : VersionCall) : VersionCaller := ⟨call, some call.first, none⟩

structure VersionRace where
  region : Partition
  callers : List VersionCaller

namespace VersionRace

inductive Event where
  | enter (call : VersionCall)
  /-- A caller executes its next operation. -/
  | proceed (caller : Nat)
  /-- The partition changes elsewhere; this version is untouched. -/
  | meanwhile (region : Partition)

variable (row : Bytes) (writer : TxnId)

/-- The two partitions agree on the cells of the version. -/
def leftAlone (region region' : Partition) : Bool :=
  region'.cell? (Version.key row writer) Version.dataColumn =
      region.cell? (Version.key row writer) Version.dataColumn &&
    region'.cell? (Version.key row writer) Version.stampColumn =
      region.cell? (Version.key row writer) Version.stampColumn

/-- A call ends when it is done, and where the storage does not answer. -/
def proceed (race : VersionRace) (i : Nat) : VersionRace :=
  match race.callers[i]? with
  | some ⟨call, some task, none⟩ =>
    match task.step (Version.key row writer) call.written race.region with
    | .ok (region, next) => ⟨region, race.callers.set i ⟨call, next, none⟩⟩
    | .error e => { race with callers := race.callers.set i ⟨call, some task, some e⟩ }
  | _ => race

def step (race : VersionRace) : Event → VersionRace
  | .enter call => { race with callers := race.callers ++ [call.caller] }
  | .proceed i => proceed row writer race i
  | .meanwhile region =>
    if leftAlone row writer race.region region then { race with region := region } else race

def run (race : VersionRace) (events : List Event) : VersionRace :=
  events.foldl (step row writer) race

end VersionRace

end Mvcc

import Mvcc.Data.ExpiringCache
import Mvcc.Txn.Ancestry

/-!
# The demarcation of schema changes

Transactions that began after a schema change committed use the new schema; older data is migrated.
A filter decides on which side a transaction is, and caches its answers as long as its view of the
owner does not change.
-/

namespace Mvcc

/-- Separates the transactions before a schema change from those after it. -/
structure DdlFilter where
  /-- The view of the owner when last looked up. -/
  owner : View
  answers : ExpiringCache TxnId Bool

namespace DdlFilter

def standardCapacity : Nat := 10000

def standardLifetime : UInt64 := 60000

def new (owner : View) (capacity : Nat) (lifetime : UInt64) : DdlFilter :=
  ⟨owner, .new capacity lifetime⟩

/-- The timestamp after which transactions work with the new schema; none while the change is
uncommitted or below a parent that rolled back. -/
def demarcation (owner : View) : Option Timestamp :=
  if owner.state ≠ .committed then none
  else if owner.parent?.any (·.effectiveState = .rolledBack) then none
  else owner.effectiveCommitTime <|> owner.record.commitTime

/-- Whether a transaction began after the schema change committed. Only answers that are final are
remembered. -/
def isVisibleBy (f : DdlFilter) (txn : TxnId) : Bool × DdlFilter :=
  match f.answers.get txn with
  | (some visible, answers) => (visible, { f with answers := answers })
  | (none, answers) =>
    match demarcation f.owner with
    | none => (false, { f with answers := answers })
    | some time =>
      let visible := decide (time < txn)
      (visible, { f with answers := answers.insert txn visible })

def refresh (f : DdlFilter) (owner : View) : DdlFilter := ⟨owner, f.answers.clear⟩

/-- How two optional timestamps compare; none comes first. -/
def compareTimes : Option Timestamp → Option Timestamp → Ordering
  | none, none => .eq
  | none, some _ => .lt
  | some _, none => .gt
  | some a, some b => compare a b

/-- Filters of committed changes come last, by commit timestamp; the others are ordered by the
begin of their root. -/
def compare (f g : DdlFilter) : Ordering :=
  if f.owner.state = .committed then
    if g.owner.state = .committed then
      compareTimes f.owner.record.commitTime g.owner.record.commitTime
    else .gt
  else if g.owner.state = .committed then .lt
  else Ord.compare f.owner.effectiveBeginTime g.owner.effectiveBeginTime

end DdlFilter

section

variable {σ : Type} [Supplier σ]

def DdlFilter.reload (f : DdlFilter) : TxnM σ DdlFilter := do
  pure (f.refresh (← View.resolve f.owner.id))

end

end Mvcc

import Mvcc.Batch.Conflict

/-!
# Checking a batch

Every mutation of a batch gets an outcome, in order. A transaction that may not write gets none.
-/

namespace Mvcc

/-- The outcome of one mutation, and the writer it is due to. -/
structure RowOutcome where
  row : Bytes
  verdict : Verdict
  other : Option TxnId
  constraint : Option ConstraintName
  deriving DecidableEq, Repr

structure BatchOutcome where
  txn : TxnId
  rows : List RowOutcome
  deriving DecidableEq, Repr

namespace BatchOutcome

def isSuccess (outcome : BatchOutcome) : Bool := outcome.rows.all (·.verdict = .success)

def errorOf (txn : TxnId) (row : RowOutcome) : TxnError :=
  let other := row.other.getD txn
  match row.verdict with
  | .writeConflict => .writeConflict txn other
  | .additiveWriteConflict => .additiveWriteConflict txn other
  | .failure | .success =>
    .constraintViolation txn ((row.constraint.map ConstraintName.text).getD "unknown")

def firstError (outcome : BatchOutcome) : Option TxnError :=
  (outcome.rows.find? (·.verdict ≠ .success)).map (errorOf outcome.txn)

end BatchOutcome

/-- The outcomes reached before a check ended, and the failure that ended it early, if any. -/
structure BatchTrace where
  rows : List RowOutcome
  failure : Option TxnError

namespace BatchTrace

def after (trace : BatchTrace) (row : RowOutcome) : BatchTrace :=
  { trace with rows := row :: trace.rows }

/-- How many write conflicts with earlier writers were found. -/
def conflicts (trace : BatchTrace) : Nat :=
  trace.rows.countP fun row => row.verdict = .writeConflict && row.constraint.isNone

def outcome (trace : BatchTrace) (txn : TxnId) : Except TxnError BatchOutcome :=
  match trace.failure with
  | some e => .error e
  | none => .ok ⟨txn, trace.rows⟩

end BatchTrace

/-- The constraints of a batch and the history of each row. -/
structure BatchRules where
  constraints : List Constraint
  history : Bytes → Except StorageError WriteHistory

section

variable {σ : Type} [Supplier σ]

/-- Decide about one mutation after mutations of the rows `earlier`. -/
def judgeMutation (rules : BatchRules) (txn : View) (earlier : List Bytes) (m : Mutation) :
    TxnM σ RowOutcome :=
  match Constraint.firstViolated m txn earlier rules.constraints with
  | some (name, verdict) => pure ⟨m.row, verdict, none, some name⟩
  | none => do
    let history ← TxnM.ofExcept .ofStorage (rules.history m.row)
    let (verdict, other) ← detectConflict txn history
    pure ⟨m.row, verdict, other, none⟩

/-- Decide about mutations in order. Refused ones count as earlier mutations too. -/
def judgeMutations (rules : BatchRules) (txn : View) :
    List Bytes → List Mutation → σ → BatchTrace × σ
  | _, [], s => (⟨[], none⟩, s)
  | earlier, m :: rest, s =>
    match judgeMutation rules txn earlier m s with
    | .error e s => (⟨[], some e⟩, s)
    | .ok row s =>
      let (trace, s) := judgeMutations rules txn (m.row :: earlier) rest s
      (trace.after row, s)

def checkBatch (rules : BatchRules) (txn : View) (batch : List Mutation) (s : σ) :
    BatchTrace × σ :=
  match txn.ensureWritable with
  | .error e => (⟨[], some e⟩, s)
  | .ok _ => judgeMutations rules txn [] batch s

end

end Mvcc

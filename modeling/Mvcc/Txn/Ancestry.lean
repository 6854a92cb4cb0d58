import Mvcc.Txn.View

/-!
# Looking up transactions and their ancestors

A supplier finds records by id. A view is resolved by following parents one look-up at a time. This
fails on a missing record, on a cycle, and on a chain longer than `longestChain`.
-/

namespace Mvcc

/-- Look-up of transaction records, with silent transactions counted as rolled back. -/
class Supplier (σ : Type) where
  lookup : TxnId → TxnM σ (Option Txn)

structure FixedRecords where
  find? : TxnId → Option Txn

/-- Records by their ids; of two with one id the later counts. -/
def FixedRecords.ofList (records : List Txn) : FixedRecords :=
  ⟨(SortedMap.ofList (records.map fun txn => (txn.id, txn))).get?⟩

instance : Supplier FixedRecords := ⟨fun id s => .ok (s.find? id) s⟩

namespace View

variable {σ : Type} [Supplier σ]

/-- The chain from `id` up to its root, of at most `budget` records and none of them `passed`.
`start` is where the walk began. -/
def climb (start : TxnId) : Nat → List TxnId → TxnId → TxnM σ (List Txn)
  | budget, passed, id =>
    if id ∈ passed then throw (.malformed (.cycle id))
    else match budget with
      | 0 => throw (.malformed (.tooDeep start))
      | budget + 1 => do
        let some txn ← Supplier.lookup id | throw (.notFound id)
        match txn.parent with
        | none => pure [txn]
        | some parent => pure (txn :: (← climb start budget (id :: passed) parent))

def ofChain? : List Txn → Option View
  | [] => none
  | record :: ancestors => some ⟨record, ancestors, false⟩

def resolve (id : TxnId) : TxnM σ View := do
  let chain ← climb id longestChain [] id
  match ofChain? chain with
  | some view => pure view
  | none => throw (.notFound id)

end View

end Mvcc

import Mvcc.Txn.View

/-!
# Mutations and constraints

A batch is a list of mutations. Before it is applied every mutation gets a verdict, first from the
constraints of the table, which see the batch alone, and then from the earlier writers of its row.
-/

namespace Mvcc

inductive Verdict where
  | success
  /-- A constraint was violated. -/
  | failure
  | writeConflict
  /-- A conflict between additive writes. -/
  | additiveWriteConflict
  deriving DecidableEq, Repr

def Verdict.name : Verdict → String
  | .success => "Success"
  | .failure => "Failure"
  | .writeConflict => "WriteConflict"
  | .additiveWriteConflict => "AdditiveWriteConflict"

inductive MutationKind where
  | insert
  | update
  | upsert
  | delete
  deriving DecidableEq, Repr

namespace MutationKind

def all : List MutationKind := [.insert, .update, .upsert, .delete]

def name : MutationKind → String
  | .insert => "Insert"
  | .update => "Update"
  | .upsert => "Upsert"
  | .delete => "Delete"

end MutationKind

structure Mutation where
  kind : MutationKind
  row : Bytes
  /-- The encoded row; unused for a delete. -/
  value : Bytes
  deriving DecidableEq, Repr

/-- What the mutation leaves behind: a value, or nothing for a delete. -/
def Mutation.written (m : Mutation) : Option Bytes :=
  if m.kind = .delete then none else some m.value

structure ConstraintName where
  table : String
  name : String
  deriving DecidableEq, Repr

def ConstraintName.text (c : ConstraintName) : String := c.table ++ "." ++ c.name

structure Constraint where
  name : ConstraintName
  /-- The verdict on a mutation of a transaction after mutations of the given rows. -/
  judge : Mutation → View → List Bytes → Verdict

namespace Constraint

/-- No inserted row was touched by the batch before. -/
def unique (name : ConstraintName) : Constraint where
  name := name
  judge m _ earlier :=
    match m.kind with
    | .insert => if m.row ∈ earlier then .failure else .success
    | .upsert => if m.row ∈ earlier then .additiveWriteConflict else .success
    | .update | .delete => .success

def firstViolated (m : Mutation) (txn : View) (earlier : List Bytes) :
    List Constraint → Option (ConstraintName × Verdict)
  | [] => none
  | constraint :: rest =>
    let verdict := constraint.judge m txn earlier
    if verdict = .success then firstViolated m txn earlier rest
    else some (constraint.name, verdict)

end Constraint

end Mvcc

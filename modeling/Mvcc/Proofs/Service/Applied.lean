import Mvcc.Proofs.Service.Writing

/-!
# Applied batches

A write that succeeds has looked up its transaction and every other writer of its rows without a
stamp, and leaves one version in each row, with the last mutation of the row. This holds for any
family relation between transactions.
-/

namespace Mvcc

/-! ## Rows written by one transaction -/

namespace Partition

/-- At most one version of a row was written; it keeps its stamp, and others are as they were. -/
structure Overwrites (p p' : Partition) (row : Bytes) (writer : TxnId) : Prop where
  legible (h : p.LegibleAt row) : p'.LegibleAt row
  unavailable : p'.unavailable = p.unavailable
  value? (other : TxnId) (hne : other ≠ writer) : p'.value? row other = p.value? row other
  stamp? (other : TxnId) : p'.stamp? row other = p.stamp? row other

end Partition

namespace Ledger

open TxnM

variable {τ : Type} {s : Ledger τ} {id : TxnId}

theorem loadExisting_serving :
    Ends (loadExisting id) s (fun _ _ => s.register.serving = true) fun _ _ => True := by
  simp only [loadExisting, load, ends_bind, ends_get, ends_ofExcept]
  cases hrow : s.partition.getRow (Slot.rowKey id) with
  | error e => trivial
  | ok columns =>
    have havailable : s.partition.unavailable = false := (Partition.serve_eq_ok_iff.1 hrow).1
    refine Ends.of_forall (fun found s' _ => ?_) fun _ _ _ => trivial
    cases found with
    | none => trivial
    | some txn => simp [register, havailable]

theorem recordDestination_serving (hs : s.Legible) (table : String) :
    Ends (recordDestination id table) s
      (fun _ s' => s.Stepped s' ∧ s'.register.serving = true) fun _ s' => s.Stepped s' := by
  have hserving : Ends (recordDestination id table) s (fun _ _ => s.register.serving = true)
      fun _ _ => True := by
    refine ends_bind.2 (loadExisting_serving.mono (fun txn s' hserving => ?_) fun _ _ h => h)
    exact Ends.of_forall (fun _ _ _ => hserving) fun _ _ _ => trivial
  refine ((recordDestination_ends hs table).and hserving).mono ?_ (fun _ _ h => h.1)
  rintro _ s' ⟨hstepped, hserving⟩
  have hsame : s'.register.serving = s.register.serving :=
    congrArg (·.2.2.2) hstepped.2.surroundings
  exact ⟨hstepped, hsame.trans hserving⟩

end Ledger

/-! ## Rows of a batch -/

/-- What some mutations leave behind in a row, if any of them is of it. -/
def lastWritten (batch : List Mutation) (row : Bytes) : Option (Option Bytes) :=
  batch.reverse.findSome? fun m => if m.row = row then some m.written else none

theorem lastWritten_cons (m : Mutation) (rest : List Mutation) (row : Bytes) :
    lastWritten (m :: rest) row =
      (lastWritten rest row <|> if m.row = row then some m.written else none) := by
  simp only [lastWritten, List.reverse_cons, List.findSome?_append, List.findSome?_cons,
    List.findSome?_nil]
  cases rest.reverse.findSome? fun m => if m.row = row then some m.written else none with
  | some value => rfl
  | none => split <;> simp_all

theorem lastWritten_append_cons {before later : List Mutation} {m : Mutation}
    (hlast : ∀ other ∈ later, other.row ≠ m.row) :
    lastWritten (before ++ m :: later) m.row = some m.written := by
  have hlater : later.reverse.findSome? (fun other =>
      if other.row = m.row then some other.written else none) = none := by
    refine List.findSome?_eq_none_iff.2 fun other hother => ?_
    exact if_neg (hlast other (List.mem_reverse.1 hother))
  simp [lastWritten, List.findSome?_append, hlater]

namespace Environment

open TxnM

variable {env env' : Environment} {id : TxnId} {table : String} {batch : List Mutation}

/-! ## Applying a batch -/

/-- The tables hold a batch of a transaction, row by row as its last mutation has it, and everything
else as before. -/
structure Holds (env : Environment) (id : TxnId) (table : String) (batch : List Mutation)
    (env' : Environment) : Prop where
  legible (other : String) {row : Bytes} (h : (env.tables.region other).LegibleAt row) :
    (env'.tables.region other).LegibleAt row
  unavailable (other : String) :
    (env'.tables.region other).unavailable = (env.tables.region other).unavailable
  value? (other : String) (row : Bytes) (writer : TxnId) :
    (env'.tables.region other).value? row writer =
      ((if other = table ∧ writer = id then lastWritten batch row else none) <|>
        (env.tables.region other).value? row writer)
  stamp? (other : String) (row : Bytes) (writer : TxnId) :
    (env'.tables.region other).stamp? row writer = (env.tables.region other).stamp? row writer

theorem Holds.refl (env : Environment) (id : TxnId) (table : String) :
    env.Holds id table [] env where
  legible _ _ h := h
  unavailable _ := rfl
  value? _ _ _ := by simp [lastWritten]
  stamp? _ _ _ := rfl

theorem Holds.cons {m : Mutation} {region : Partition}
    (hregion : (env.tables.region table).writeVersion m.row id m.written = .ok region)
    (h : Holds { env with tables := env.tables.put table region } id table batch env') :
    env.Holds id table (m :: batch) env' := by
  have hshows := Partition.shows_of_writeVersion hregion
  refine ⟨fun other row hlegible => h.legible other ?_, fun other => ?_,
    fun other row writer => ?_, fun other row writer => ?_⟩
  · rw [Tables.region_put]
    split
    · rename_i hother
      exact hshows.legible (hother ▸ hlegible)
    · exact hlegible
  · rw [h.unavailable, Tables.region_put]
    split
    · rename_i hother
      rw [hshows.unavailable, hother]
    · rfl
  · rw [h.value?, Tables.region_put, lastWritten_cons]
    by_cases hother : other = table
    · subst hother
      rw [if_pos rfl, hshows.value?]
      by_cases hwriter : writer = id
      · rw [if_pos ⟨rfl, hwriter⟩, if_pos ⟨rfl, hwriter⟩]
        simp only [hwriter, and_true, eq_comm (a := row)]
        cases lastWritten batch row with
        | some value => rfl
        | none => by_cases hrow : m.row = row <;> simp [hrow]
      · simp [hwriter]
    · simp [hother]
  · rw [h.stamp?, Tables.region_put]
    split
    · rename_i hother
      rw [hshows.stamp?, hother]
    · rfl

/-- A batch is written as a whole unless the table does not answer. Either way it leaves the ledger
alone. -/
theorem applyBatch_holds (batch : List Mutation) :
    Ends (applyBatch id table batch) env
      (fun _ env' => env'.ledger = env.ledger ∧ env.Holds id table batch env')
      fun _ env' => env'.ledger = env.ledger ∧
        (env.tables.region table).unavailable = true := by
  induction batch generalizing env with
  | nil => exact ⟨rfl, .refl env id table⟩
  | cons m rest ih =>
    simp only [applyBatch, ends_bind]
    refine (alter_ends _).mono ?_ ?_
    · rintro _ env₁ ⟨region, hregion, rfl⟩
      refine (@ih { env with tables := env.tables.put table region }).mono ?_ ?_
      · exact fun _ _ h => ⟨h.1, h.2.cons hregion⟩
      · rintro e env' ⟨hledger, hunavailable⟩
        rw [Tables.region_put, if_pos rfl] at hunavailable
        exact ⟨hledger, (Partition.shows_of_writeVersion hregion).unavailable ▸ hunavailable⟩
    · rintro e env' ⟨rfl, fault, hfault⟩
      refine ⟨rfl, ?_⟩
      cases havailable : (env'.tables.region table).unavailable with
      | true => rfl
      | false =>
        have hwrite := Partition.writeVersion_of_available havailable m.row id m.written
        cases hwrite.symm.trans hfault

theorem Holds.overwrites (h : env.Holds id table batch env') (row : Bytes) :
    (env.tables.region table).Overwrites (env'.tables.region table) row id where
  legible hlegible := h.legible table hlegible
  unavailable := h.unavailable table
  value? other hne := by simp [h.value?, hne]
  stamp? other := h.stamp? table row other

theorem Holds.value?_of_last {before later : List Mutation} {m : Mutation}
    (h : env.Holds id table (before ++ m :: later) env')
    (hlast : ∀ other ∈ later, other.row ≠ m.row) :
    (env'.tables.region table).value? m.row id = some m.written := by
  rw [h.value?, if_pos ⟨rfl, rfl⟩, lastWritten_append_cons hlast]
  rfl

/-! ## The whole write -/

theorem write_stepped (h : env.ledger.Legible) (constraints : List Constraint)
    (batch : List Mutation) :
    Leaves (write id table constraints batch) env
      fun env' => env.ledger.Stepped env'.ledger := by
  rw [write_eq]
  refine ends_bind.2 ((judge_looked h constraints batch).mono ?_ fun _ _ h' => h'.1.stepped)
  rintro outcome env₁ ⟨hlooked, -, -⟩
  cases outcome.isSuccess with
  | false => exact hlooked.stepped
  | true =>
    simp only [if_true, ends_bind]
    refine (applyBatch_holds batch).mono ?_ ?_
    · rintro _ env₂ ⟨hledger, -⟩
      rw [← hledger] at hlooked
      exact ends_within.2 ((Ledger.recordDestination_ends hlooked.1 table).imp
        fun _ hstepped => hlooked.stepped.trans hstepped)
    · rintro e env₂ ⟨hledger, -⟩
      rw [hledger]
      exact hlooked.stepped

/-- What holds once a batch was applied, of the ledger and of the row of its mutation `m`. -/
structure Applied (env : Environment) (id : TxnId) (table : String) (m : Mutation)
    (env' : Environment) : Prop where
  stepped : env.ledger.Stepped env'.ledger
  serving : env'.ledger.register.serving = true
  free : ∃ txn : View, env.ledger.register.Lineage id txn.chain ∧
    txn.chain.length ≤ longestChain ∧ ∃ constraints,
      env.ledger.register.Free ⟨constraints, (env.tables.region table).history⟩ txn m.row
  overwrites : (env.tables.region table).Overwrites (env'.tables.region table) m.row id
  written : (env'.tables.region table).value? m.row id = some m.written

theorem applied_of_write {env' : Environment} (h : env.ledger.Legible)
    {constraints : List Constraint} {before later : List Mutation} {m : Mutation}
    (hlast : ∀ other ∈ later, other.row ≠ m.row) {outcome : BatchOutcome}
    (hwrite : write id table constraints (before ++ m :: later) env = .ok outcome env')
    (hsuccess : outcome.isSuccess = true) : env.Applied id table m env' := by
  have hends : Ends (write id table constraints (before ++ m :: later)) env
      (fun outcome env' => outcome.isSuccess = true → env.Applied id table m env')
      fun _ _ => True := by
    rw [write_eq]
    refine ends_bind.2 ((judge_looked h constraints _).mono ?_ fun _ _ _ => trivial)
    rintro outcome env₁ ⟨hlooked, htables, hfree⟩
    cases houtcome : outcome.isSuccess with
    | false => exact fun hsuccess => nomatch houtcome.symm.trans hsuccess
    | true =>
      obtain ⟨txn, htxn, hlength, -, hfree⟩ := hfree houtcome
      simp only [if_true, ends_bind]
      refine (applyBatch_holds _).mono ?_ (fun _ _ _ => trivial)
      rintro _ env₂ ⟨hledger, hholds⟩
      have hover := hholds.overwrites m.row
      rw [htables] at hover
      rw [← hledger] at hlooked
      refine ends_within.2 ((Ledger.recordDestination_serving hlooked.1 table).mono ?_
        fun _ _ _ => trivial)
      rintro _ ledger ⟨hstepped, hserving⟩
      intro _
      exact ⟨hlooked.stepped.trans hstepped, hserving,
        ⟨txn, htxn, hlength, constraints, hfree m (by simp)⟩, hover, hholds.value?_of_last hlast⟩
  exact hends.of_ok hwrite hsuccess

end Environment

end Mvcc

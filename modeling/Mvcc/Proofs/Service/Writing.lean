import Mvcc.Proofs.Batch.Check
import Mvcc.Proofs.Service.Store
import Mvcc.Service.Environment

/-!
# Writes

Exactly the batches whose check succeeds are applied, each as a whole. At that point the transaction
is active, and every other writer of its rows ended before the transaction began.
-/

namespace Mvcc

namespace Environment

/-- The transactions and the tables of an environment. -/
def store (env : Environment) : Store := ⟨env.ledger, env.tables⟩

/-- The first half of a write, up to the decision whether the batch is applied. -/
def judge (id : TxnId) (table : String) (constraints : List Constraint) (batch : List Mutation) :
    TxnM Environment BatchOutcome := do
  let txn ← view id
  check txn table constraints batch

/-- The journal entries of a write: the batch if its check succeeds, otherwise none. -/
def entries (env : Environment) (id : TxnId) (table : String) (constraints : List Constraint)
    (batch : List Mutation) : List Entry :=
  match judge id table constraints batch env with
  | .ok outcome _ =>
    if outcome.isSuccess then batch.map fun m => ⟨table, m.row, id, m.written⟩ else []
  | .error .. => []

theorem write_eq (id : TxnId) (table : String) (constraints : List Constraint)
    (batch : List Mutation) :
    write id table constraints batch = (do
      let outcome ← judge id table constraints batch
      if outcome.isSuccess then
        applyBatch id table batch
        onLedger (Ledger.recordDestination id table)
      pure outcome) := by
  simp only [write, judge, bind_assoc]

end Environment

/-! ## Successful checks -/

namespace Store

variable {s : Store} {txn : View} {table : String} {row : Bytes} {id : TxnId}

/-- Where no earlier writer conflicts, all other writers have ended before. -/
theorem Sound.clear_of_free (h : s.Sound) (htxn : s.ledger.register.Lineage id txn.chain)
    {constraints : List Constraint}
    (hfree : s.ledger.register.Free ⟨constraints, (s.tables.region table).history⟩ txn row) :
    s.world.Clear table row id := by
  intro other hne hvalue
  obtain ⟨history, hhistory, hyields⟩ := hfree
  obtain ⟨hid, hbegin⟩ := h.world.plain.id_of_lineage htxn
  have hentry := Partition.mem_history hhistory hvalue
  rcases hyields _ hentry with hpasses | ⟨view, hview, -, hrivalry⟩
  · simp only [View.passesOver, hid, hne, decide_false, Bool.false_or] at hpasses
    cases hstamp : (s.tables.region table).stamp? row other with
    | none => simp [hstamp] at hpasses
    | some stamp =>
      have houtcome := h.world.stamped hstamp
      cases stamp with
      | rolledBack => exact .inl houtcome
      | committed time =>
        refine .inr ⟨time, houtcome, ?_⟩
        simpa [hstamp, hbegin] using hpasses
  · have houtcome := h.world.plain.outcome_of_lineage hview
    have hancestors := (h.world.plain.of_lineage hview).2
    have hancestors' := (h.world.plain.of_lineage htxn).2
    have hother := (h.world.plain.id_of_lineage hview).1
    simp only [View.rivalry, View.descendsFrom, hancestors, hancestors', hother, hid, hne,
      List.any_nil, decide_false, Bool.or_self, Bool.false_eq_true, if_false] at hrivalry
    split at hrivalry
    · rename_i hrolledBack
      exact .inl (houtcome ▸ View.outcome_eq_rolledBack_iff.2 hrolledBack)
    · split at hrivalry
      · rename_i hcommitted
        obtain ⟨time, htime, hle⟩ := View.committedBy_iff.1 hcommitted
        exact .inr ⟨time, houtcome ▸ htime, hbegin ▸ hle⟩
      · split at hrivalry <;> cases hrivalry

theorem Sound.active_of_lineage (h : s.Sound) (htxn : s.ledger.register.Lineage id txn.chain)
    (hactive : txn.effectiveState = .active) :
    (s.ledger.register.records id).isSome ∧ s.ledger.register.outcome? id = none := by
  have hstanding := (h.world.plain.of_lineage htxn).1
  obtain ⟨stored, hstored, -⟩ := Register.standing?_eq_some_iff.1 hstanding
  refine ⟨Option.isSome_iff_exists.2 ⟨stored, hstored⟩, ?_⟩
  have houtcome : txn.outcome = s.ledger.register.outcome? id :=
    h.world.plain.outcome_of_lineage htxn
  rw [← houtcome, View.outcome, hactive]

end Store

namespace Environment

open TxnM

variable {env : Environment} {id : TxnId} {table : String}

theorem view_ends (h : env.ledger.Legible) :
    Ends (view id) env
      (fun txn env' => env.ledger.Looked env'.ledger ∧ env'.tables = env.tables ∧
        env.ledger.register.Lineage id txn.chain)
      fun _ env' => env.ledger.Looked env'.ledger ∧ env'.tables = env.tables := by
  refine ends_within.2 ((Ledger.resolve_ends h).mono ?_ ?_)
  · exact fun _ _ h => ⟨h.1, rfl, h.2⟩
  · exact fun _ _ h => ⟨h, rfl⟩

theorem check_ends (h : env.ledger.Legible) (txn : View) (constraints : List Constraint)
    (batch : List Mutation) :
    Ends (check txn table constraints batch) env
      (fun outcome env' => env.ledger.Looked env'.ledger ∧ env'.tables = env.tables ∧
        (outcome.isSuccess = true → txn.effectiveState = .active ∧ ∀ m ∈ batch,
          env.ledger.register.Free ⟨constraints, (env.tables.region table).history⟩ txn m.row))
      fun _ env' => env.ledger.Looked env'.ledger ∧ env'.tables = env.tables := by
  obtain ⟨hlooked, hsuccess⟩ := Ledger.checkBatch_looked h
    ⟨constraints, (env.tables.region table).history⟩ txn batch
  unfold Ends check
  cases houtcome : (checkBatch ⟨constraints, (env.tables.region table).history⟩ txn batch
      env.ledger).1.outcome txn.id with
  | ok outcome =>
    simp only [houtcome]
    exact ⟨hlooked, trivial, hsuccess txn.id outcome houtcome⟩
  | error e =>
    simp only [houtcome]
    exact ⟨hlooked, trivial⟩

/-- The check only looks the ledger up. It succeeds only for active transactions with free rows. -/
theorem judge_looked (h : env.ledger.Legible) (constraints : List Constraint)
    (batch : List Mutation) :
    Ends (judge id table constraints batch) env
      (fun outcome env' => env.ledger.Looked env'.ledger ∧ env'.tables = env.tables ∧
        (outcome.isSuccess = true → ∃ txn : View, env.ledger.register.Lineage id txn.chain ∧
          txn.chain.length ≤ longestChain ∧ txn.effectiveState = .active ∧ ∀ m ∈ batch,
            env.ledger.register.Free ⟨constraints, (env.tables.region table).history⟩ txn m.row))
      fun _ env' => env.ledger.Looked env'.ledger ∧ env'.tables = env.tables := by
  have hlength : Ends (view id) env (fun txn _ => txn.chain.length ≤ longestChain)
      fun _ _ => True := ends_within.2 (Supplier.resolve_length id)
  simp only [judge, ends_bind]
  refine ((view_ends h).and hlength).mono ?_ (fun _ _ h => h.1)
  rintro txn env₁ ⟨⟨hlooked, htables, htxn⟩, hlength⟩
  refine (check_ends hlooked.1 txn constraints batch).mono ?_ ?_
  · rintro outcome env' ⟨hlooked', htables', hsuccess⟩
    refine ⟨hlooked.trans hlooked', htables'.trans htables, fun houtcome => ?_⟩
    obtain ⟨hactive, hfree⟩ := hsuccess houtcome
    refine ⟨txn, htxn, hlength, hactive, fun m hm => ?_⟩
    rw [htables] at hfree
    exact (hfree m hm).of_remembers hlooked.2
  · exact fun _ _ h => ⟨hlooked.trans h.1, h.2.trans htables⟩

theorem judge_ends (h : env.store.Sound) (constraints : List Constraint) (batch : List Mutation) :
    Ends (judge id table constraints batch) env
      (fun outcome env' => env.ledger.Looked env'.ledger ∧ env'.tables = env.tables ∧
        (outcome.isSuccess = true → (env.ledger.register.records id).isSome ∧
          env.ledger.register.outcome? id = none ∧ ∀ m ∈ batch,
            env.store.world.Clear table m.row id ∧ (env.tables.region table).unavailable = false))
      fun _ env' => env.ledger.Looked env'.ledger ∧ env'.tables = env.tables := by
  refine (judge_looked h.ledger constraints batch).mono ?_ (fun _ _ h => h)
  rintro outcome env' ⟨hlooked, htables, hsuccess⟩
  refine ⟨hlooked, htables, fun houtcome => ?_⟩
  obtain ⟨txn, htxn, -, hactive, hfree⟩ := hsuccess houtcome
  obtain ⟨hrecord, hnone⟩ := h.active_of_lineage htxn hactive
  refine ⟨hrecord, hnone, fun m hm => ?_⟩
  have ⟨history, hhistory, _⟩ := hfree m hm
  obtain ⟨versions, hversions, -⟩ := Partition.versions_of_history hhistory
  exact ⟨h.clear_of_free htxn (hfree m hm), Partition.available_of_versions hversions⟩

/-! ## Applying a batch -/

theorem alter_ends (change : Partition → Except StorageError Partition) :
    Ends (alter table change) env
      (fun _ env' => ∃ region, change (env.tables.region table) = .ok region ∧
        env' = { env with tables := env.tables.put table region })
      fun _ env' => env' = env ∧ ∃ fault, change (env.tables.region table) = .error fault := by
  unfold Ends alter
  cases hchange : change (env.tables.region table) with
  | ok region => exact ⟨region, rfl, rfl⟩
  | error fault => exact ⟨rfl, fault, rfl⟩

theorem applyBatch_ends (h : env.store.Sound) (hrecord : (env.ledger.register.records id).isSome)
    (hactive : env.ledger.register.outcome? id = none) (batch : List Mutation)
    (hbatch : ∀ m ∈ batch,
      env.store.world.Clear table m.row id ∧ (env.tables.region table).unavailable = false) :
    Ends (applyBatch id table batch) env
      (fun _ env' => env.store.Moves (batch.map fun m => ⟨table, m.row, id, m.written⟩) env'.store)
      fun _ _ => False := by
  induction batch generalizing env with
  | nil => exact Store.Moves.refl h
  | cons m rest ih =>
    obtain ⟨⟨hclear, havailable⟩, hrest⟩ := List.forall_mem_cons.1 hbatch
    have hwrite := Partition.writeVersion_of_available havailable m.row id m.written
    simp only [applyBatch, ends_bind]
    refine (alter_ends _).mono ?_ ?_
    · rintro _ env₁ ⟨region, hregion, rfl⟩
      have hmoves := Store.moves_of_writeVersion h hrecord hactive hclear hregion
      have hworld : ({ env with tables := env.tables.put table region } : Environment).store.world =
          env.store.world.write ⟨table, m.row, id, m.written⟩ :=
        Store.world_of_writeVersion (s := env.store) hregion
      refine (@ih { env with tables := env.tables.put table region }
        (hmoves.sound h) hrecord hactive fun other hother => ?_).mono ?_ (fun _ _ h => h)
      · refine ⟨?_, ?_⟩
        · have hother := (hrest other hother).1
          exact hworld ▸ hother.write ⟨table, m.row, id, m.written⟩ rfl
        · rw [Tables.region_put, if_pos rfl]
          exact (Partition.shows_of_writeVersion hregion).unavailable.trans havailable
      · exact fun _ env' h => hmoves.trans h
    · rintro e env' ⟨-, fault, hfault⟩
      cases hwrite.symm.trans hfault

theorem moves_of_stepped {env' : Environment} (h : env.store.Sound)
    (hstepped : env.ledger.Stepped env'.ledger) (htables : env'.tables = env.tables) :
    env.store.Moves [] env'.store := by
  have hstore : env'.store = env.store.withLedger env'.ledger := by
    rw [store, htables]
    rfl
  rw [hstore]
  exact .of_stepped h hstepped

/-- A write applies exactly the batch that passed its check. -/
theorem write_ends (h : env.store.Sound) (constraints : List Constraint) (batch : List Mutation) :
    Leaves (write id table constraints batch) env
      fun env' => env.store.Moves (env.entries id table constraints batch) env'.store := by
  rw [write_eq]
  refine ends_bind.2 (.of_forall (fun outcome env₁ hjudge => ?_) fun e env₁ hjudge => ?_)
  · obtain ⟨hlooked, htables, hsuccess⟩ := (judge_ends h constraints batch).of_ok hjudge
    have hmoves := moves_of_stepped h hlooked.stepped htables
    simp only [entries, hjudge]
    cases houtcome : outcome.isSuccess with
    | false => exact hmoves
    | true =>
      obtain ⟨hrecord, hactive, hbatch⟩ := hsuccess houtcome
      simp only [if_true, ends_bind]
      have hworld : env₁.store.world =
          { env.store.world with register := env₁.ledger.register } := by
        rw [store, htables]
        rfl
      refine (applyBatch_ends (hmoves.sound h) ?_ ?_ batch fun m hm => ⟨?_, ?_⟩).mono ?_ ?_
      · rw [hlooked.2.records]
        exact hrecord
      · rw [hlooked.2.outcome?]
        exact hactive
      · rw [hworld]
        exact (hbatch m hm).1.of_remembers hlooked.2
      · rw [htables]
        exact (hbatch m hm).2
      · intro _ env₂ happlied
        have hwritten := hmoves.trans happlied
        have hnoted : ∀ ledger, env₂.ledger.Stepped ledger →
            env.store.Moves (batch.map fun m => ⟨table, m.row, id, m.written⟩)
              ({ env₂ with ledger := ledger } : Environment).store := by
          intro ledger hstepped
          have hlast : env₂.store.Moves [] ({ env₂ with ledger := ledger } : Environment).store :=
            moves_of_stepped (hwritten.sound h) hstepped rfl
          simpa using hwritten.trans hlast
        exact ends_within.2 ((Ledger.recordDestination_ends happlied.ledger table).imp hnoted)
      · exact fun _ _ h => h.elim
  · obtain ⟨hlooked, htables⟩ := (judge_ends h constraints batch).of_error hjudge
    simp only [entries, hjudge]
    exact moves_of_stepped h hlooked.stepped htables

end Environment

end Mvcc

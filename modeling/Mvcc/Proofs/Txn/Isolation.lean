import Mvcc.Proofs.Snapshot.Attested

/-!
# Isolation levels

The isolation level of a reader matters for unrelated writers alone; within a family visibility does
not depend on it. Each level shows a subset of the previous one, and no level shows rolled-back
writes.
-/

namespace Mvcc

/-- What a level shows of a stranger to a reader that began at `time`. -/
def Isolation.shows (level : Isolation) (time : Timestamp) (writer : View) : Bool :=
  match level with
  | .readUncommitted => writer.effectiveState ≠ .rolledBack
  | .readCommitted => writer.effectiveState = .committed
  | .snapshot => writer.committedBy time

namespace View

variable {reader writer : View}

/-- The reader as it is if it asks for the given isolation level. -/
def withIsolation (reader : View) (level : Isolation) : View :=
  { reader with record := { reader.record with isolation := some level } }

/-- One of the two transactions is the other or an ancestor of it. -/
def Kin (reader writer : View) : Prop :=
  writer.id = reader.id ∨ reader.descendsFrom writer.id = true ∨
    writer.descendsFrom reader.id = true

/-! ## Strangers -/

theorem effectiveState_of_committedBy {time : Timestamp} (h : writer.committedBy time = true) :
    writer.effectiveState = .committed := by
  obtain ⟨commit, houtcome, -⟩ := committedBy_iff.1 h
  exact (outcome_eq_committed_iff.1 houtcome).1

theorem canSee_of_stranger (h : ¬ reader.Kin writer) :
    reader.canSee writer = reader.record.isolationLevel.shows reader.beginTime writer := by
  obtain ⟨hown, hfamily⟩ := not_or.1 h
  obtain ⟨hancestor, hdescendant⟩ := not_or.1 hfamily
  rw [canSee, if_neg (by simp [hown, hancestor]), if_neg hdescendant]
  rfl

theorem effectiveState_of_shows {level : Isolation} {time : Timestamp}
    (hlevel : level ≠ .readUncommitted) (h : level.shows time writer = true) :
    writer.effectiveState = .committed := by
  cases level with
  | readUncommitted => exact absurd rfl hlevel
  | readCommitted => simpa [Isolation.shows] using h
  | snapshot => exact effectiveState_of_committedBy h

theorem not_shows_of_rolledBack (level : Isolation) (time : Timestamp)
    (h : writer.effectiveState = .rolledBack) : level.shows time writer = false := by
  rw [Bool.eq_false_iff]
  intro hshows
  by_cases hlevel : level = .readUncommitted
  · simp [hlevel, Isolation.shows, h] at hshows
  · cases h.symm.trans (effectiveState_of_shows hlevel hshows)

theorem shows_readCommitted_of_snapshot {time : Timestamp}
    (h : Isolation.snapshot.shows time writer = true) :
    Isolation.readCommitted.shows time writer = true := by
  simpa [Isolation.shows] using effectiveState_of_committedBy h

theorem shows_readUncommitted_of_readCommitted {time : Timestamp}
    (h : Isolation.readCommitted.shows time writer = true) :
    Isolation.readUncommitted.shows time writer = true := by
  have hcommitted : writer.effectiveState = .committed := by simpa [Isolation.shows] using h
  simp [Isolation.shows, hcommitted]

/-! ## Levels -/

/-- The isolation level does not matter between kin. -/
theorem canSee_withIsolation_of_kin (h : reader.Kin writer) (level : Isolation) :
    (reader.withIsolation level).canSee writer = reader.canSee writer := by
  unfold canSee
  by_cases hup : (writer.id = reader.id || reader.descendsFrom writer.id) = true
  · rw [if_pos hup]
    exact if_pos hup
  · have hdown : writer.descendsFrom reader.id = true := by
      simp only [Bool.or_eq_true, decide_eq_true_eq, not_or] at hup
      exact (h.resolve_left hup.1).resolve_left hup.2
    rw [if_neg hup, if_pos hdown]
    exact (if_neg hup).trans (if_pos hdown)

theorem canSee_withIsolation_of_stranger (h : ¬ reader.Kin writer) (level : Isolation) :
    (reader.withIsolation level).canSee writer = level.shows reader.beginTime writer :=
  @canSee_of_stranger (reader.withIsolation level) writer h

theorem canSee_withIsolation_self (reader writer : View) :
    (reader.withIsolation reader.record.isolationLevel).canSee writer = reader.canSee writer := by
  by_cases hkin : reader.Kin writer
  · exact canSee_withIsolation_of_kin hkin _
  · rw [canSee_withIsolation_of_stranger hkin, canSee_of_stranger hkin]

/-- `canSee` is monotone in the isolation level. -/
theorem canSee_withIsolation_mono {level level' : Isolation}
    (hshows : level.shows reader.beginTime writer = true →
      level'.shows reader.beginTime writer = true)
    (h : (reader.withIsolation level).canSee writer = true) :
    (reader.withIsolation level').canSee writer = true := by
  by_cases hkin : reader.Kin writer
  · rw [canSee_withIsolation_of_kin hkin] at h ⊢
    exact h
  · rw [canSee_withIsolation_of_stranger hkin] at h ⊢
    exact hshows h

variable {σ : Type} [Supplier σ] {known : TxnId → Except TxnError (Option Txn)} {s : σ}
  {id : TxnId}

theorem canSee_withIsolation_of_rolledBack (hsteady : Supplier.Steady known s)
    (hreader : reader.Current s) (hactive : reader.effectiveState = .active)
    (hwriter : Supplier.Finds s id writer) (h : writer.effectiveState = .rolledBack)
    (level : Isolation) : (reader.withIsolation level).canSee writer = false := by
  by_cases hkin : reader.Kin writer
  · obtain ⟨-, hchain⟩ := hwriter.lineage hsteady
    rw [canSee_withIsolation_of_kin hkin]
    exact canSee_of_rolledBack hsteady.definite (hreader.stands hsteady) hactive hchain
      (outcome_eq_rolledBack_iff.2 h)
  · rw [canSee_withIsolation_of_stranger hkin]
    exact not_shows_of_rolledBack level _ h

/-- An active reader and a writer, resolved in one supplier state. At every isolation level the
reader does not see a rolled-back writer, kin or not; a stranger it sees is committed, unless it
reads uncommitted; and a writer seen at one level is seen at every lower one. -/
theorem canSee_by_isolation (hsteady : Supplier.Steady known s) (hreader : reader.Current s)
    (hactive : reader.effectiveState = .active) (hwriter : Supplier.Finds s id writer) :
    (reader.withIsolation reader.record.isolationLevel).canSee writer = reader.canSee writer ∧
    (writer.effectiveState = .rolledBack →
      ∀ level, (reader.withIsolation level).canSee writer = false) ∧
    (∀ level ∈ [Isolation.readCommitted, .snapshot], ¬ reader.Kin writer →
      (reader.withIsolation level).canSee writer = true → writer.effectiveState = .committed) ∧
    ((reader.withIsolation .snapshot).canSee writer = true →
      (reader.withIsolation .readCommitted).canSee writer = true) ∧
    ((reader.withIsolation .readCommitted).canSee writer = true →
      (reader.withIsolation .readUncommitted).canSee writer = true) := by
  refine ⟨canSee_withIsolation_self reader writer, ?rolledBack, ?strangers, ?snapshot, ?committed⟩
  case rolledBack =>
    exact canSee_withIsolation_of_rolledBack hsteady hreader hactive hwriter
  case strangers =>
    intro level hlevel hstranger hsees
    rw [canSee_withIsolation_of_stranger hstranger] at hsees
    refine effectiveState_of_shows (fun hlowest => ?_) hsees
    simp [hlowest] at hlevel
  case snapshot => exact canSee_withIsolation_mono shows_readCommitted_of_snapshot
  case committed => exact canSee_withIsolation_mono shows_readUncommitted_of_readCommitted

/-- A transaction that is active has a child that rolled back. -/
def disownedRecords : FixedRecords :=
  .ofList [Txn.new 4 4 0, { Txn.new 5 5 0 with parent := some 4, state := .rolledBack }]

theorem canSee_by_isolation_ofDisowned :
    ∃ reader writer s s', View.resolve 4 disownedRecords = .ok reader s ∧
      View.resolve 5 disownedRecords = .ok writer s' ∧ reader.Kin writer ∧
      (reader.withIsolation .readUncommitted).canSee writer = false := by
  have hreader : TxnM.Ends (View.resolve 4) disownedRecords
      (fun view _ => view.id = 4 ∧ view.effectiveState = .active) fun _ _ => False := by
    decide +kernel
  have hwriter : TxnM.Ends (View.resolve 5) disownedRecords
      (fun view _ => view.descendsFrom 4 = true ∧ view.effectiveState = .rolledBack)
      fun _ _ => False := by
    decide +kernel
  obtain ⟨reader, s, hreader, hid, hactive⟩ := hreader.exists_ok
  obtain ⟨writer, s', hwriter, hdescends, hrolledBack⟩ := hwriter.exists_ok
  obtain ⟨-, hunseen, -⟩ := canSee_by_isolation (FixedRecords.steady_ofList _)
    (.stored (hid.symm ▸ hreader)) hactive ⟨s', hwriter⟩
  exact ⟨reader, writer, s, s', hreader, hwriter, .inr (.inr (hid.symm ▸ hdescends)),
    hunseen hrolledBack .readUncommitted⟩

end View

end Mvcc

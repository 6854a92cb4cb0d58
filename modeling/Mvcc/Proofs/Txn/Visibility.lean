import Mvcc.Proofs.Txn.Chain
import Mvcc.Proofs.Txn.Lineage
import Mvcc.Snapshot.Read

/-!
# Stamps and views agree

A finished writer is judged alike by its stamp and by its view while the reader is active: no
ancestor of an active reader is rolled back, and no descendant is effectively committed.
-/

namespace Mvcc.View

variable {answers : TxnId → Txn → Prop} {reader writer : View}

/-- The chain of a reader is that of the look-ups. A read-only reader need not have a record. -/
inductive Stands (answers : TxnId → Txn → Prop) (reader : View) : Prop where
  | stored (h : Lineage answers reader.id reader.chain)
  | unstored (hunknown : ∀ txn, ¬ answers reader.id txn)
    (habove : reader.ancestors = [] ∨ ∃ parent, Lineage answers parent reader.ancestors)

/-! ## Families -/

theorem Stands.chain_of_stored (h : reader.Stands answers) {txn : Txn}
    (htxn : answers reader.id txn) : Lineage answers reader.id reader.chain := by
  cases h with
  | stored h => exact h
  | unstored hunknown habove => exact absurd htxn (hunknown txn)

theorem Stands.chain_subset (hanswers : Definite answers) (h : reader.Stands answers)
    (hwriter : Lineage answers writer.id writer.chain)
    (hfamily : writer.id = reader.id ∨ reader.descendsFrom writer.id = true) :
    writer.chain ⊆ reader.chain := by
  rcases hfamily with hown | hancestor
  · have hreader := h.chain_of_stored (hown ▸ hwriter.head.1)
    rw [hown] at hwriter
    rw [hwriter.unique hanswers hreader]
    exact List.Subset.refl _
  · have hmem : ∃ txn ∈ reader.ancestors, txn.id = writer.id := by
      simpa [descendsFrom] using hancestor
    have habove : ∃ parent, Lineage answers parent reader.ancestors := by
      have hne : reader.ancestors ≠ [] := by
        obtain ⟨txn, htxn, -⟩ := hmem
        exact List.ne_nil_of_mem htxn
      cases h with
      | stored h =>
        obtain ⟨-, ⟨-, hnil⟩ | ⟨parent, -, -, habove⟩⟩ := h.head
        · exact absurd hnil hne
        · exact ⟨parent, habove⟩
      | unstored hunknown habove => exact habove.resolve_left hne
    obtain ⟨parent, habove⟩ := habove
    intro txn htxn
    have hsuffix := habove.suffix_of_mem hanswers hwriter hmem
    have hmember : txn ∈ reader.ancestors := by
      rw [hsuffix]
      exact List.mem_append_right _ htxn
    exact List.mem_cons_of_mem _ hmember

theorem Stands.chain_eq_append (hanswers : Definite answers) (h : reader.Stands answers)
    (hwriter : Lineage answers writer.id writer.chain)
    (hdescends : writer.descendsFrom reader.id = true) :
    writer.chain = writer.chain.takeWhile (·.id ≠ reader.id) ++ reader.chain := by
  have hmem : ∃ txn ∈ writer.ancestors, txn.id = reader.id := by
    simpa [descendsFrom] using hdescends
  obtain ⟨txn, htxn, hid⟩ := hmem
  have hmember : txn ∈ writer.chain := List.mem_cons_of_mem _ htxn
  obtain ⟨other, hanswer⟩ := hwriter.answers_of_mem txn hmember
  have hother : other = reader.id := (hanswers.id_eq hanswer).symm.trans hid
  have hreader := h.chain_of_stored (hother ▸ hanswer)
  exact hwriter.suffix_of_mem hanswers hreader ⟨txn, hmember, hid⟩

/-! ## Active readers -/

/-- An active reader does not see a rolled-back writer. -/
theorem canSee_of_rolledBack (hanswers : Definite answers) (hreader : reader.Stands answers)
    (hactive : reader.effectiveState = .active)
    (hwriter : Lineage answers writer.id writer.chain) (h : writer.outcome = some .rolledBack) :
    reader.canSee writer = false := by
  have hstate := outcome_eq_rolledBack_iff.1 h
  obtain ⟨member, hmember, hrolledBack⟩ := effectiveState_eq_rolledBack_iff.1 hstate
  have hnot : member ∉ reader.chain := by
    intro hshared
    have hreader' := effectiveState_eq_rolledBack_iff.2 ⟨member, hshared, hrolledBack⟩
    cases hactive.symm.trans hreader'
  have hforeign : ¬ (writer.id = reader.id ∨ reader.descendsFrom writer.id = true) :=
    fun hfamily => hnot (hreader.chain_subset hanswers hwriter hfamily hmember)
  rw [canSee, if_neg (by simpa using hforeign)]
  cases hdescends : writer.descendsFrom reader.id with
  | true =>
    have hchain := hreader.chain_eq_append hanswers hwriter hdescends
    rw [hchain] at hmember
    have hbelow := (List.mem_append.1 hmember).resolve_right hnot
    simp only [if_true, committedBelow, List.all_eq_false]
    exact ⟨member, hbelow, by simp [hrolledBack]⟩
  | false =>
    cases reader.record.isolationLevel <;> simp [hstate, committedBy, effectiveCommitTime]

/-- An active reader sees a committed writer exactly if its stamp is visible. -/
theorem canSee_of_committed (hanswers : Definite answers) (hreader : reader.Stands answers)
    (hactive : reader.effectiveState = .active)
    (hwriter : Lineage answers writer.id writer.chain) {time : Timestamp}
    (h : writer.outcome = some (.committed time)) :
    reader.canSee writer = reader.seesStamped writer.id time := by
  obtain ⟨hstate, htime⟩ := outcome_eq_committed_iff.1 h
  have hstates := effectiveState_eq_committed_iff.1 hstate
  have hdescends : writer.descendsFrom reader.id = false := by
    rw [Bool.eq_false_iff]
    intro hdescends
    have hchain := hreader.chain_eq_append hanswers hwriter hdescends
    have hreader' : reader.effectiveState = .committed :=
      effectiveState_eq_committed_iff.2 fun member hmember =>
        hstates member (hchain ▸ List.mem_append_right _ hmember)
    cases hactive.symm.trans hreader'
  by_cases hfamily : writer.id = reader.id ∨ reader.descendsFrom writer.id = true
  · rcases hfamily with hown | hancestor
    · simp [canSee, seesStamped, hown]
    · simp [canSee, seesStamped, hancestor]
  · obtain ⟨hown, hancestor⟩ := not_or.1 hfamily
    cases hlevel : reader.record.isolationLevel <;>
      simp [canSee, seesStamped, hown, hancestor, hdescends, hlevel, hstate, committedBy, htime]

end Mvcc.View

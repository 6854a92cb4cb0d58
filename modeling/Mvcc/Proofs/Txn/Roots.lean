import Mvcc.Proofs.Txn.Ascent
import Mvcc.Proofs.Txn.Chain

/-!
# Ledgers of roots

Without nested transactions and coordinated commits, the outcome of a transaction is that of its
record. It is final, and a commit timestamp exceeds every begin timestamp drawn before it.
-/

namespace Mvcc

def Txn.alone (txn : Txn) : View := ⟨txn, [], false⟩

namespace Register

variable {τ : Type} {r r' : Register τ} {id : TxnId}

def outcome? (r : Register τ) (id : TxnId) : Option Stamp :=
  (r.standing? id).bind fun txn => txn.alone.outcome

theorem outcome_alone (txn : Txn) :
    txn.alone.outcome = match txn.state with
      | .committed => (txn.globalCommitTime <|> txn.commitTime).map .committed
      | .rolledBack => some .rolledBack
      | .active => none := by
  simp only [View.outcome, View.effectiveCommitTime, View.effectiveState, View.stateBelow,
    View.commitTimeBelow, Txn.alone]
  cases txn.state <;> rfl

/-- Outcomes are final as long as the clock does not go back. -/
theorem Settles.outcome? (h : r.Settles r') {stamp : Stamp} (hstamp : r.outcome? id = some stamp) :
    r'.outcome? id = some stamp := by
  obtain ⟨txn, htxn, houtcome⟩ := Option.bind_eq_some_iff.1 hstamp
  have hfinal : txn.state.isFinal := by
    rw [outcome_alone] at houtcome
    cases hstate : txn.state with
    | active => simp [hstate] at houtcome
    | _ => rfl
  exact Option.bind_eq_some_iff.2 ⟨txn, h id txn htxn hfinal, houtcome⟩

theorem Remembers.outcome? (h : r.Remembers r') (id : TxnId) : r'.outcome? id = r.outcome? id := by
  rw [Register.outcome?, h.standing?]
  rfl

variable [TimestampSource τ] [AscendingSource τ]

/-- Every transaction is a root without a global commit, and caches are faithful. -/
structure Plain (r : Register τ) : Prop where
  sound : r.Sound
  faithful : r.Faithful
  root {id : TxnId} {txn : Txn} (h : r.records id = some txn) :
    txn.parent = none ∧ txn.globalCommitTime = none

theorem Plain.proceeds (h : r.Plain) (hproceeds : r.Proceeds (· = none) r') : r'.Plain where
  sound := hproceeds.sound
  faithful := hproceeds.faithful h.faithful
  root {id txn} hrecord := by
    cases hbefore : r.records id with
    | none => exact (hproceeds.advances.born hbefore hrecord).2
    | some stored =>
      obtain ⟨kept, hkept, horigin, hglobal, -⟩ := hproceeds.advances.kept hbefore
      cases hrecord.symm.trans hkept
      obtain ⟨hparent, hlocal⟩ := h.root hbefore
      exact ⟨(Txn.eq_of_origin horigin).2.2.trans hparent, hglobal.trans hlocal⟩

theorem Plain.outcome?_eq (h : r.Plain) {txn : Txn} (hstanding : r.standing? id = some txn) :
    r.outcome? id = match txn.state with
      | .committed => txn.commitTime.map .committed
      | .rolledBack => some .rolledBack
      | .active => none := by
  obtain ⟨stored, hstored, rfl⟩ := standing?_eq_some_iff.1 hstanding
  have hglobal : (r.current stored).globalCommitTime = none := (h.root hstored).2
  rw [outcome?, hstanding, Option.bind_some, outcome_alone, hglobal]
  rfl

theorem Plain.outcome?_eq_committed_iff (h : r.Plain) {time : Timestamp} :
    r.outcome? id = some (.committed time) ↔
      ∃ txn, r.records id = some txn ∧ txn.state = .committed ∧ txn.commitTime = some time := by
  constructor
  · intro houtcome
    obtain ⟨txn, hstanding, -⟩ := Option.bind_eq_some_iff.1 houtcome
    rw [h.outcome?_eq hstanding] at houtcome
    obtain ⟨stored, hstored, rfl⟩ := standing?_eq_some_iff.1 hstanding
    cases hstate : (r.current stored).state with
    | committed =>
      simp only [hstate, current_commitTime, Option.map_eq_some_iff, Stamp.committed.injEq,
        exists_eq_right] at houtcome
      exact ⟨stored, hstored, current_committed_iff.1 hstate, houtcome⟩
    | active => simp [hstate] at houtcome
    | rolledBack => simp [hstate] at houtcome
  · rintro ⟨txn, htxn, hstate, htime⟩
    have hstanding := standing?_of_record htxn
    rw [current_of_final (by simp [hstate])] at hstanding
    rw [h.outcome?_eq hstanding, hstate, htime]
    rfl

theorem Plain.active_of_outcome? (h : r.Plain) {txn : Txn} (hrecord : r.records id = some txn)
    (houtcome : r.outcome? id = none) : txn.state = .active ∧ r.isSilent txn = false := by
  have hstanding := standing?_of_record hrecord
  rw [h.outcome?_eq hstanding] at houtcome
  refine current_active_iff.1 ?_
  cases hstate : (r.current txn).state with
  | active => rfl
  | rolledBack => simp [hstate] at houtcome
  | committed =>
    have hcommitted := current_committed_iff.1 hstate
    have htime := (h.sound.committed hrecord).1 hcommitted
    simp [hstate, (h.root hrecord).2] at houtcome htime
    simp [houtcome] at htime

theorem Plain.lt_of_committed (h : r.Plain) {time : Timestamp}
    (houtcome : r.outcome? id = some (.committed time)) : id < time ∧ time ≤ r.latest := by
  obtain ⟨txn, hrecord, -, htime⟩ := h.outcome?_eq_committed_iff.1 houtcome
  exact h.sound.ordered hrecord htime

/-- A transaction that commits later has a commit time above all earlier timestamps. -/
theorem Plain.latest_lt (h : r.Plain) (hproceeds : r.Proceeds (· = none) r')
    (hrecord : (r.records id).isSome) (hnone : r.outcome? id = none) {time : Timestamp}
    (houtcome : r'.outcome? id = some (.committed time)) : r.latest < time := by
  obtain ⟨txn, htxn⟩ := Option.isSome_iff_exists.1 hrecord
  obtain ⟨hactive, -⟩ := h.active_of_outcome? htxn hnone
  obtain ⟨kept, hkept, -, -, -, hlater⟩ := hproceeds.advances.kept htxn
  obtain ⟨committed, hcommitted, -, htime⟩ :=
    (h.proceeds hproceeds).outcome?_eq_committed_iff.1 houtcome
  cases hkept.symm.trans hcommitted
  exact hlater hactive time htime

/-! ## Views of roots -/

theorem Plain.of_lineage (h : r.Plain) {view : View} (hchain : r.Lineage id view.chain) :
    r.standing? id = some view.record ∧ view.ancestors = [] := by
  obtain ⟨record, ancestors, readOnly⟩ := view
  have hroot : ∀ {id txn}, r.Answers id txn → r.standing? id = some txn ∧ txn.parent = none := by
    intro id txn hanswer
    have hstanding := h.faithful.answers_iff.1 hanswer
    obtain ⟨stored, hstored, rfl⟩ := standing?_eq_some_iff.1 hstanding
    exact ⟨hstanding, (h.root hstored).1⟩
  cases hchain with
  | root hanswer hparent => exact ⟨(hroot hanswer).1, rfl⟩
  | child hanswer hparent habove => cases (hroot hanswer).2.symm.trans hparent

theorem Plain.id_of_lineage (h : r.Plain) {view : View} (hchain : r.Lineage id view.chain) :
    view.id = id ∧ view.beginTime = id := by
  obtain ⟨stored, hstored, hrecord⟩ := standing?_eq_some_iff.1 (h.of_lineage hchain).1
  obtain ⟨hid, hbegin, -⟩ := h.sound.known hstored
  rw [View.id, View.beginTime, ← hrecord]
  exact ⟨hid, hbegin⟩

theorem Plain.outcome_of_lineage (h : r.Plain) {view : View} (hchain : r.Lineage id view.chain) :
    view.outcome = r.outcome? id := by
  obtain ⟨hstanding, hancestors⟩ := h.of_lineage hchain
  rw [outcome?, hstanding, Option.bind_some]
  simp only [View.outcome, View.effectiveCommitTime, View.effectiveState, hancestors, Txn.alone]
  rfl

theorem Plain.rooted (h : r.Plain) (hrecord : (r.records id).isSome) : r.Rooted id := by
  obtain ⟨txn, hrecord⟩ := Option.isSome_iff_exists.1 hrecord
  have hascends : r.Ascends id 1 := .root hrecord (h.root hrecord).1
  exact ⟨1, by decide, hascends⟩

end Register

end Mvcc

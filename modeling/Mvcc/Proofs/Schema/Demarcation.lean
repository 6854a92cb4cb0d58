import Mvcc.Proofs.Data.ExpiringCache
import Mvcc.Proofs.Txn.Chain
import Mvcc.Schema.Demarcation

/-!
# Demarcation

A schema change takes effect at the effective commit timestamp of its owner. A filter answers
accordingly, with one exception: an owner that is committed below an active ancestor is taken to be
in effect from its own commit timestamp.
-/

namespace Mvcc

namespace View

theorem effectiveCommitTime_isSome {v : View} (h : v.effectiveCommitTime.isSome) :
    v.effectiveState = .committed := by
  unfold effectiveCommitTime at h
  split at h
  · assumption
  · cases h

theorem commitTimeBelow_isSome {txn : Txn} {above : List Txn}
    (h : ∀ member ∈ txn :: above, member.commitTime.isSome ∨ member.globalCommitTime.isSome) :
    (commitTimeBelow txn above).isSome := by
  induction above generalizing txn with
  | nil =>
    have htxn := h txn (by simp)
    simp only [commitTimeBelow, Option.orElse_eq_orElse, Option.orElse_eq_or, Option.isSome_or,
      Bool.or_eq_true]
    exact htxn.symm
  | cons parent above ih =>
    have hbelow := ih fun member hmember => h member (List.mem_cons_of_mem txn hmember)
    simp [commitTimeBelow, hbelow]

/-- The parent's view is rolled back exactly if some ancestor is. -/
theorem parent?_rolledBack_iff {v : View} :
    v.parent?.any (·.effectiveState = .rolledBack) = true ↔
      ∃ ancestor ∈ v.ancestors, ancestor.state = .rolledBack := by
  unfold parent?
  cases hancestors : v.ancestors with
  | nil => simp
  | cons parent above =>
    simp only [Option.any_some, decide_eq_true_eq]
    exact effectiveState_eq_rolledBack_iff

end View

namespace DdlFilter

/-- The rule of demarcation: the schema change and all its ancestors committed, and the transaction
began after that. -/
def Precedes (owner : View) (txn : TxnId) : Prop :=
  (∀ member ∈ owner.chain, member.state = .committed) ∧
    ∃ time, owner.effectiveCommitTime = some time ∧ time < txn

/-- The schema change has its own commit before the transaction but no effective one, and no
ancestor rolled back. -/
structure Anticipates (owner : View) (txn : TxnId) : Prop where
  committed : owner.state = .committed
  pending : ∀ ancestor ∈ owner.ancestors, ancestor.state ≠ .rolledBack
  undated : owner.effectiveCommitTime = none
  before : ∃ time, owner.record.commitTime = some time ∧ time < txn

theorem Precedes.not_anticipates {owner : View} {txn : TxnId} (h : Precedes owner txn) :
    ¬ Anticipates owner txn := by
  intro hanticipates
  obtain ⟨time, htime, -⟩ := h.2
  cases htime.symm.trans hanticipates.undated

/-- Where committed records have a commit time, as stored records do, a change is anticipated
exactly while an ancestor is active. -/
theorem anticipates_iff_of_dated {owner : View} {txn : TxnId}
    (hdated : ∀ member ∈ owner.chain, member.state = .committed →
      member.commitTime.isSome ∨ member.globalCommitTime.isSome) :
    Anticipates owner txn ↔
      owner.state = .committed ∧ (∀ ancestor ∈ owner.ancestors, ancestor.state ≠ .rolledBack) ∧
        (∃ ancestor ∈ owner.ancestors, ancestor.state = .active) ∧
        ∃ time, owner.record.commitTime = some time ∧ time < txn := by
  constructor
  · intro h
    refine ⟨h.committed, h.pending, ?_, h.before⟩
    apply Classical.byContradiction
    intro hnone
    have hcommitted : ∀ member ∈ owner.chain, member.state = .committed := by
      intro member hmember
      cases List.mem_cons.1 hmember with
      | inl hrecord => exact hrecord ▸ h.committed
      | inr habove =>
        cases hstate : member.state with
        | active => exact absurd ⟨member, habove, hstate⟩ hnone
        | rolledBack => exact absurd hstate (h.pending member habove)
        | committed => rfl
    have hsome := View.commitTimeBelow_isSome
      fun member hmember => hdated member hmember (hcommitted member hmember)
    have hundated := h.undated
    rw [View.effectiveCommitTime, if_pos (View.effectiveState_eq_committed_iff.2 hcommitted)]
      at hundated
    rw [hundated] at hsome
    cases hsome
  · intro h
    obtain ⟨hcommitted, hpending, ⟨ancestor, hancestor, hactive⟩, hbefore⟩ := h
    refine ⟨hcommitted, hpending, ?_, hbefore⟩
    have hstate : owner.effectiveState ≠ .committed := by
      intro hstate
      have := View.state_of_effectiveState hstate ancestor (List.mem_cons_of_mem _ hancestor)
      rw [hactive] at this
      cases this
    rw [View.effectiveCommitTime, if_neg hstate]

/-- The time of demarcation is the effective commit time, or else the change's own commit time if
nothing above rolled back. -/
theorem demarcation_eq_some_iff {owner : View} {time : Timestamp} :
    demarcation owner = some time ↔
      owner.effectiveCommitTime = some time ∨
        owner.state = .committed ∧ (∀ ancestor ∈ owner.ancestors, ancestor.state ≠ .rolledBack) ∧
          owner.effectiveCommitTime = none ∧ owner.record.commitTime = some time := by
  unfold demarcation
  by_cases hstate : owner.state = .committed
  · rw [if_neg (by simp [hstate])]
    by_cases hrolledBack : owner.parent?.any (·.effectiveState = .rolledBack) = true
    · obtain ⟨ancestor, hancestor, hancestorState⟩ := View.parent?_rolledBack_iff.1 hrolledBack
      have hnone : owner.effectiveCommitTime = none := by
        rw [View.effectiveCommitTime, if_neg]
        intro hcommitted
        have := View.state_of_effectiveState hcommitted ancestor (List.mem_cons_of_mem _ hancestor)
        rw [hancestorState] at this
        cases this
      rw [if_pos hrolledBack, hnone]
      constructor
      · intro h
        cases h
      · intro h
        cases h with
        | inl htime => cases htime
        | inr hown => exact absurd hancestorState (hown.2.1 ancestor hancestor)
    · have hpending : ∀ ancestor ∈ owner.ancestors, ancestor.state ≠ .rolledBack :=
        fun ancestor hancestor hancestorState =>
          hrolledBack (View.parent?_rolledBack_iff.2 ⟨ancestor, hancestor, hancestorState⟩)
      rw [if_neg hrolledBack]
      cases owner.effectiveCommitTime with
      | some effective => simp
      | none => simpa [hstate] using fun _ => hpending
  · have hnone : owner.effectiveCommitTime = none := by
      rw [View.effectiveCommitTime, if_neg]
      exact fun hcommitted => hstate
        (View.state_of_effectiveState hcommitted owner.record List.mem_cons_self)
    simp [hstate, hnone]

theorem isVisibleBy_of_forgotten {f : DdlFilter} {txn : TxnId}
    (h : f.answers.remembered? txn = none) :
    (f.isVisibleBy txn).1 = (demarcation f.owner).any (· < txn) := by
  have hget : f.answers.get txn = (none, (f.answers.get txn).2) := Prod.ext h rfl
  unfold isVisibleBy
  rw [hget]
  cases demarcation f.owner <;> rfl

/-- For every owner and every transaction, a new filter answers true exactly if the rule of
demarcation holds or the change is anticipated: its own commit precedes the transaction but it is
not effectively committed. So it agrees with the rule exactly where it does not anticipate a commit.
-/
theorem isVisibleBy_new_iff (owner : View) (capacity : Nat) (lifetime : UInt64) (txn : TxnId) :
    (((new owner capacity lifetime).isVisibleBy txn).1 = true ↔
      Precedes owner txn ∨ Anticipates owner txn) ∧
    ((((new owner capacity lifetime).isVisibleBy txn).1 = true ↔ Precedes owner txn) ↔
      ¬ Anticipates owner txn) := by
  have hanswer : ((new owner capacity lifetime).isVisibleBy txn).1 = true ↔
      Precedes owner txn ∨ Anticipates owner txn := by
    rw [isVisibleBy_of_forgotten (ExpiringCache.remembered?_new capacity lifetime txn),
      Option.any_eq_true]
    simp only [decide_eq_true_eq]
    constructor
    · intro h
      obtain ⟨time, htime, hlt⟩ := h
      cases demarcation_eq_some_iff.1 htime with
      | inl heffective =>
        have hcommitted := View.effectiveCommitTime_isSome (Option.isSome_of_eq_some heffective)
        exact .inl ⟨View.state_of_effectiveState hcommitted, time, heffective, hlt⟩
      | inr hown => exact .inr ⟨hown.1, hown.2.1, hown.2.2.1, time, hown.2.2.2, hlt⟩
    · intro h
      cases h with
      | inl hprecedes =>
        obtain ⟨-, time, htime, hlt⟩ := hprecedes
        exact ⟨time, demarcation_eq_some_iff.2 (.inl htime), hlt⟩
      | inr hanticipates =>
        obtain ⟨hcommitted, hpending, hundated, time, htime, hlt⟩ := hanticipates
        exact ⟨time, demarcation_eq_some_iff.2 (.inr ⟨hcommitted, hpending, hundated, htime⟩), hlt⟩
  refine ⟨hanswer, ?_⟩
  rw [hanswer]
  constructor
  · intro h hanticipates
    exact (h.1 (.inr hanticipates)).not_anticipates hanticipates
  · intro h
    exact or_iff_left h

/-- A change that committed at 3 below a transaction that is still active. -/
def ahead : View :=
  ⟨{ Txn.new 2 2 0 with parent := some 1, state := .committed, commitTime := some 3 },
    [Txn.new 1 1 0], false⟩

/-- A filter answers true for a schema that is not in effect: the change is not effectively
committed and rolls back with the transaction above it. -/
theorem isVisibleBy_of_ahead :
    ((new ahead standardCapacity standardLifetime).isVisibleBy 4).1 = true ∧
      ¬ Precedes ahead 4 := by
  refine ⟨by decide, ?_⟩
  intro h
  have hactive := h.1 (Txn.new 1 1 0) (by simp [ahead, View.chain])
  cases hactive

end DdlFilter

end Mvcc

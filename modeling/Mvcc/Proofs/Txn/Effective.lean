import Mathlib.Logic.Relation
import Mvcc.Proofs.Txn.Chain

/-!
# Effective state and timestamps

The three traversals of a chain agree with one definition: a view is committed if its whole chain
is, at the first coordinated commit timestamp or else that of the root, and its effective begin is
that of the root.
-/

namespace Mvcc.View

variable {v above parent : View}

/-- One view is that of an ancestor of the other. -/
def Below (v above : View) : Prop :=
  Relation.TransGen (fun v parent : View => v.parent? = some parent) v above

theorem chain_ne_nil (v : View) : v.chain ≠ [] := List.cons_ne_nil _ _

theorem getLast_chain (v : View) : v.chain.getLast v.chain_ne_nil = v.root :=
  List.getLast_of_getLast?_eq_some v.getLast?_chain

theorem chain_of_parent? (h : v.parent? = some parent) : v.chain = v.record :: parent.chain := by
  unfold parent? at h
  split at h
  · cases h
  · rename_i record ancestors hancestors
    cases h
    rw [chain, hancestors]
    rfl

theorem Below.chain_suffix (h : v.Below above) : above.chain <:+ v.chain := by
  induction h with
  | single hparent =>
    rw [chain_of_parent? hparent]
    exact List.suffix_cons _ _
  | tail _ hparent ih =>
    rw [chain_of_parent? hparent] at ih
    exact (List.suffix_cons _ _).trans ih

theorem Below.effectiveState (h : v.Below above) (hcommitted : v.effectiveState = .committed) :
    above.effectiveState = .committed :=
  effectiveState_eq_committed_iff.2 fun member hmember =>
    state_of_effectiveState hcommitted member (h.chain_suffix.subset hmember)

theorem effectiveCommitTime_of_uncommitted (h : v.effectiveState ≠ .committed) :
    v.effectiveCommitTime = none := if_neg h

theorem effectiveCommitTime_of_committed (h : v.effectiveState = .committed) :
    v.effectiveCommitTime =
      (v.chain.findSome? (·.globalCommitTime) <|> (v.chain.getLast v.chain_ne_nil).commitTime) := by
  rw [effectiveCommitTime, if_pos h, commitTimeBelow_eq_findSome?, v.getLast_chain]
  rfl

theorem effectiveBeginTime_eq (v : View) :
    v.effectiveBeginTime = (v.chain.getLast v.chain_ne_nil).beginTime := by
  rw [v.getLast_chain]
  rfl

/-- For every view: it is rolled back if some transaction of the chain is, committed if all are, and
active otherwise; it has an effective commit time only if committed, the first coordinated one of
the chain or else the root's; its effective begin is the root's; and it is not committed before all
its ancestors are. -/
theorem effective_eq_of_chain (v : View) :
    (v.effectiveState = .rolledBack ↔ ∃ member ∈ v.chain, member.state = .rolledBack) ∧
    (v.effectiveState = .committed ↔ ∀ member ∈ v.chain, member.state = .committed) ∧
    (v.effectiveState = .active ↔ ¬ (∃ member ∈ v.chain, member.state = .rolledBack) ∧
      ¬ ∀ member ∈ v.chain, member.state = .committed) ∧
    (v.effectiveState ≠ .committed → v.effectiveCommitTime = none) ∧
    (v.effectiveState = .committed → v.effectiveCommitTime =
      (v.chain.findSome? (·.globalCommitTime) <|>
        (v.chain.getLast v.chain_ne_nil).commitTime)) ∧
    v.effectiveBeginTime = (v.chain.getLast v.chain_ne_nil).beginTime ∧
    ∀ above, v.Below above → v.effectiveState = .committed →
      above.effectiveState = .committed :=
  ⟨effectiveState_eq_rolledBack_iff, effectiveState_eq_committed_iff, effectiveState_eq_active_iff,
    effectiveCommitTime_of_uncommitted, effectiveCommitTime_of_committed, effectiveBeginTime_eq v,
    fun _ habove => habove.effectiveState⟩

end Mvcc.View

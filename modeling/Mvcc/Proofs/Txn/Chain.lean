import Mvcc.Txn.View

/-!
# Chains

The effective outcome of a view is determined by its chain: rolled back if a member is, and
committed at the time of the root if all members are.
-/

namespace Mvcc.View

def root (v : View) : Txn := v.ancestors.getLast?.getD v.record

theorem getLast?_chain (v : View) : v.chain.getLast? = some v.root := by
  rw [chain, List.getLast?_cons, root]

theorem root_mem_chain (v : View) : v.root ∈ v.chain := List.mem_of_getLast? v.getLast?_chain

/-! ## States -/

theorem stateBelow_of_rolledBack {txn : Txn} {above : List Txn}
    (h : ∃ member ∈ txn :: above, member.state = .rolledBack) :
    stateBelow txn above = .rolledBack := by
  induction above generalizing txn with
  | nil =>
    obtain ⟨member, hmember, hstate⟩ := h
    cases List.mem_singleton.1 hmember
    exact hstate
  | cons parent above ih =>
    unfold stateBelow
    by_cases htxn : txn.state = .rolledBack
    · rw [if_pos htxn]
    · obtain ⟨member, hmember, hstate⟩ := h
      rcases List.mem_cons.1 hmember with rfl | habove
      · exact absurd hstate htxn
      · rw [if_neg htxn, ih ⟨member, habove, hstate⟩]

theorem stateBelow_eq_committed {txn : Txn} {above : List Txn}
    (h : stateBelow txn above = .committed) :
    ∀ member ∈ txn :: above, member.state = .committed := by
  induction above generalizing txn with
  | nil =>
    intro member hmember
    cases List.mem_singleton.1 hmember
    exact h
  | cons parent above ih =>
    unfold stateBelow at h
    split at h
    · cases h
    · cases hbelow : stateBelow parent above with
      | committed =>
        rw [hbelow] at h
        intro member hmember
        rcases List.mem_cons.1 hmember with rfl | habove
        · exact h
        · exact ih hbelow member habove
      | active => simp [hbelow] at h
      | rolledBack => simp [hbelow] at h

theorem exists_rolledBack_of_stateBelow {txn : Txn} {above : List Txn}
    (h : stateBelow txn above = .rolledBack) :
    ∃ member ∈ txn :: above, member.state = .rolledBack := by
  induction above generalizing txn with
  | nil => exact ⟨txn, by simp, h⟩
  | cons parent above ih =>
    by_cases htxn : txn.state = .rolledBack
    · exact ⟨txn, by simp, htxn⟩
    · rw [stateBelow, if_neg htxn] at h
      cases hbelow : stateBelow parent above with
      | rolledBack =>
        obtain ⟨member, hmember, hstate⟩ := ih hbelow
        exact ⟨member, List.mem_cons_of_mem txn hmember, hstate⟩
      | active => simp [hbelow] at h
      | committed => exact absurd (by simpa [hbelow] using h) htxn

theorem stateBelow_of_committed {txn : Txn} {above : List Txn}
    (h : ∀ member ∈ txn :: above, member.state = .committed) :
    stateBelow txn above = .committed := by
  induction above generalizing txn with
  | nil => exact h txn (by simp)
  | cons parent above ih =>
    have htxn : txn.state = .committed := h txn (by simp)
    have hbelow : stateBelow parent above = .committed :=
      ih fun member hmember => h member (List.mem_cons_of_mem txn hmember)
    simp [stateBelow, htxn, hbelow]

theorem effectiveState_eq_rolledBack_iff {v : View} :
    v.effectiveState = .rolledBack ↔ ∃ member ∈ v.chain, member.state = .rolledBack :=
  ⟨exists_rolledBack_of_stateBelow, stateBelow_of_rolledBack⟩

theorem effectiveState_eq_committed_iff {v : View} :
    v.effectiveState = .committed ↔ ∀ member ∈ v.chain, member.state = .committed :=
  ⟨stateBelow_eq_committed, stateBelow_of_committed⟩

theorem effectiveState_eq_active_iff {v : View} :
    v.effectiveState = .active ↔
      ¬ (∃ member ∈ v.chain, member.state = .rolledBack) ∧
        ¬ ∀ member ∈ v.chain, member.state = .committed := by
  rw [← effectiveState_eq_rolledBack_iff, ← effectiveState_eq_committed_iff]
  cases v.effectiveState <;> simp

theorem state_of_effectiveState {v : View} (h : v.effectiveState = .committed) :
    ∀ member ∈ v.chain, member.state = .committed :=
  stateBelow_eq_committed h

theorem state_ne_of_effectiveState {v : View} (h : v.effectiveState ≠ .rolledBack) :
    ∀ member ∈ v.chain, member.state ≠ .rolledBack :=
  fun member hmember hstate => h (stateBelow_of_rolledBack ⟨member, hmember, hstate⟩)

/-! ## Times -/

/-- The nearest coordinated commit, else the commit of the root. -/
theorem commitTimeBelow_eq_findSome? (txn : Txn) (above : List Txn) :
    commitTimeBelow txn above =
      ((txn :: above).findSome? (·.globalCommitTime) <|>
        (above.getLast?.getD txn).commitTime) := by
  induction above generalizing txn with
  | nil => cases hglobal : txn.globalCommitTime <;> simp [commitTimeBelow, hglobal]
  | cons parent above ih =>
    rw [commitTimeBelow, ih, List.getLast?_cons]
    cases hglobal : txn.globalCommitTime <;> simp [hglobal]

/-- Without coordinated commits, the effective commit time is that of the root. -/
theorem effectiveCommitTime_eq {v : View} (h : v.effectiveState = .committed)
    (hlocal : ∀ member ∈ v.chain, member.globalCommitTime = none) :
    v.effectiveCommitTime = v.root.commitTime := by
  have hnone : v.chain.findSome? (·.globalCommitTime) = none := List.findSome?_eq_none_iff.2 hlocal
  rw [effectiveCommitTime, if_pos h, commitTimeBelow_eq_findSome?, ← chain, hnone]
  rfl

/-! ## Outcomes -/

theorem committedBy_iff {v : View} {time : Timestamp} :
    v.committedBy time = true ↔ ∃ commit, v.outcome = some (.committed commit) ∧ commit ≤ time := by
  unfold committedBy outcome effectiveCommitTime
  cases v.effectiveState with
  | committed => simp [Option.any_eq_true]
  | _ => simp

theorem outcome_eq_rolledBack_iff {v : View} :
    v.outcome = some .rolledBack ↔ v.effectiveState = .rolledBack := by
  unfold outcome
  cases v.effectiveState <;> simp

theorem outcome_eq_committed_iff {v : View} {time : Timestamp} :
    v.outcome = some (.committed time) ↔
      v.effectiveState = .committed ∧ v.effectiveCommitTime = some time := by
  unfold outcome
  cases v.effectiveState <;> simp

end Mvcc.View

import Mvcc.Proofs.Txn.Register

/-!
# Soundness of registers

Soundness does not depend on the clock: timestamps are ordered, and a cached outcome agrees with the
record, except for rollbacks by timeout that are not stored.
-/

namespace Mvcc.Register

variable {τ : Type} [TimestampSource τ] [AscendingSource τ] {r r' : Register τ}

def latest (r : Register τ) : Timestamp := AscendingSource.latest r.source

/-- The clock-independent invariant of the records and caches of a register. -/
structure Sound (r : Register τ) : Prop where
  known {id : TxnId} {txn : Txn} (h : r.records id = some txn) :
    txn.id = id ∧ txn.beginTime = id ∧ id ≤ r.latest
  committed {id : TxnId} {txn : Txn} (h : r.records id = some txn) :
    txn.state = .committed ↔ txn.commitTime.isSome ∨ txn.globalCommitTime.isSome
  ordered {id : TxnId} {txn : Txn} (h : r.records id = some txn) {time : Timestamp}
    (htime : txn.commitTime = some time) : id < time ∧ time ≤ r.latest
  recalled {id : TxnId} {txn : Txn} (h : r.recalled id = some txn) :
    ∃ stored, r.records id = some stored ∧ txn.origin = stored.origin ∧ txn.state.isFinal ∧
      (txn.state = .committed → txn = stored)

theorem Sound.fresh (h : r.Sound) (hsupply : 0 < AscendingSource.supply r.source) : r.Fresh := by
  intro time source hdraw
  obtain ⟨hlt, -, -⟩ := AscendingSource.drawn hsupply hdraw
  cases hrecord : r.records time with
  | none => rfl
  | some txn =>
    have hle : time ≤ AscendingSource.latest r.source := (h.known hrecord).2.2
    grind

/-! ## Answers -/

/-- An answer shares its origin with the stored record. A committed answer is that record, and an
active one comes from a record stored as active. -/
theorem Sound.record_of_answer (h : r.Sound) {id : TxnId} {txn : Txn} (hanswer : r.Answers id txn) :
    ∃ stored, r.records id = some stored ∧ txn.origin = stored.origin ∧
      (txn.state = .committed → txn = stored) ∧
      (txn.state = .active → stored.state = .active) := by
  rcases hanswer with hrecalled | hstanding
  · obtain ⟨stored, hstored, horigin, hfinal, hsame⟩ := h.recalled hrecalled
    refine ⟨stored, hstored, horigin, hsame, fun hactive => ?_⟩
    simp [TxnState.isFinal, hactive] at hfinal
  · obtain ⟨stored, hstored, rfl⟩ := standing?_eq_some_iff.1 hstanding
    refine ⟨stored, hstored, rfl, fun hcommitted => ?_, fun hactive => ?_⟩
    · exact current_of_final (by simp [current_committed_iff.1 hcommitted])
    · exact (current_active_iff.1 hactive).1

theorem Sound.record_of_committed (h : r.Sound) {id : TxnId} {txn : Txn}
    (hanswer : r.Answers id txn) (hcommitted : txn.state = .committed) :
    r.records id = some txn := by
  obtain ⟨stored, hstored, -, hsame, -⟩ := h.record_of_answer hanswer
  rw [hsame hcommitted]
  exact hstored

/-- A transaction that does not count as rolled back is stored as committed or is not silent. -/
theorem Sound.live_of_answer (h : r.Sound) {id : TxnId} {txn : Txn} (hanswer : r.Answers id txn)
    (hstate : txn.state ≠ .rolledBack) :
    ∃ stored, r.records id = some stored ∧
      (stored.state = .active → r.isSilent stored = false) := by
  rcases hanswer with hrecalled | hstanding
  · obtain ⟨stored, hstored, -, hfinal, hsame⟩ := h.recalled hrecalled
    refine ⟨stored, hstored, fun hactive => ?_⟩
    cases hfound : txn.state with
    | active => simp [TxnState.isFinal, hfound] at hfinal
    | committed => cases hfound.symm.trans (hsame hfound ▸ hactive)
    | rolledBack => exact absurd hfound hstate
  · obtain ⟨stored, hstored, rfl⟩ := standing?_eq_some_iff.1 hstanding
    refine ⟨stored, hstored, fun hactive => ?_⟩
    rw [Bool.eq_false_iff]
    intro hsilent
    rw [current_of_silent hactive hsilent] at hstate
    exact hstate rfl

/-! ## One record changes -/

theorem Sound.withSource (h : r.Sound) {source : τ}
    (hlatest : r.latest ≤ AscendingSource.latest source) : (r.withSource source).Sound where
  known hrecord := by
    obtain ⟨hid, hbegin, hle⟩ := h.known hrecord
    exact ⟨hid, hbegin, UInt64.le_trans hle hlatest⟩
  committed hrecord := h.committed hrecord
  ordered hrecord _ htime := by
    obtain ⟨hlt, hle⟩ := h.ordered hrecord htime
    exact ⟨hlt, UInt64.le_trans hle hlatest⟩
  recalled hrecalled := h.recalled hrecalled

/-- A record may be stored if it is orderly and agrees with the cached standing. -/
theorem Sound.put (h : r.Sound) {id : TxnId} {txn : Txn} (hid : txn.id = id)
    (hbegin : txn.beginTime = id) (hknown : id ≤ r.latest)
    (hcommitted : txn.state = .committed ↔ txn.commitTime.isSome ∨ txn.globalCommitTime.isSome)
    (hordered : ∀ time, txn.commitTime = some time → id < time ∧ time ≤ r.latest)
    (hrecalled : ∀ found, r.recalled id = some found → found.origin = txn.origin ∧
      found.state.isFinal ∧ (found.state = .committed → found = txn)) : (r.put id txn).Sound where
  known {other found} hfound := by
    simp only [Register.put] at hfound
    split at hfound
    · rename_i hother
      cases hfound
      rw [hother]
      exact ⟨hid, hbegin, hknown⟩
    · exact h.known hfound
  committed {other found} hfound := by
    simp only [Register.put] at hfound
    split at hfound
    · cases hfound
      exact hcommitted
    · exact h.committed hfound
  ordered {other found} hfound time htime := by
    simp only [Register.put] at hfound
    split at hfound
    · rename_i hother
      cases hfound
      rw [hother]
      exact hordered time htime
    · exact h.ordered hfound htime
  recalled {other found} hfound := by
    by_cases hother : other = id
    · subst hother
      exact ⟨txn, if_pos rfl, hrecalled found hfound⟩
    · obtain ⟨stored, hstored, hrest⟩ := h.recalled hfound
      exact ⟨stored, (if_neg hother).trans hstored, hrest⟩

/-- A record stored as active is not cached as committed, so it may change in all but its origin. -/
theorem Sound.put_active (h : r.Sound) {id : TxnId} {txn txn' : Txn}
    (hrecord : r.records id = some txn) (hactive : txn.state = .active) {source : τ}
    (hlatest : r.latest ≤ AscendingSource.latest source) (horigin : txn'.origin = txn.origin)
    (hcommitted : txn'.state = .committed ↔
      txn'.commitTime.isSome ∨ txn'.globalCommitTime.isSome)
    (hordered : ∀ time, txn'.commitTime = some time →
      id < time ∧ time ≤ AscendingSource.latest source) :
    ((r.withSource source).put id txn').Sound := by
  obtain ⟨hid, hbegin, hle⟩ := h.known hrecord
  obtain ⟨hid', hbegin', -⟩ := Txn.eq_of_origin horigin
  refine (h.withSource hlatest).put (hid'.trans hid) (hbegin'.trans hbegin)
    (UInt64.le_trans hle hlatest) hcommitted hordered fun found hfound => ?_
  obtain ⟨stored, hstored, hsameOrigin, hfinal, hsame⟩ := h.recalled hfound
  cases hrecord.symm.trans hstored
  refine ⟨hsameOrigin.trans horigin.symm, hfinal, fun hstate => ?_⟩
  rw [hsame hstate, hactive] at hstate
  cases hstate

/-! ## Soundness along steps -/

theorem Sound.not_committed (h : r.Sound) {id : TxnId} {txn : Txn}
    (hrecord : r.records id = some txn) (hactive : txn.state = .active) :
    txn.commitTime = none ∧ txn.globalCommitTime = none := by
  have hcommitted := h.committed hrecord
  rw [hactive] at hcommitted
  simpa using hcommitted

theorem Sound.step (h : r.Sound) (hstep : r.Step r') : r'.Sound := by
  cases hstep with
  | rollBack hrecord hactive =>
    obtain ⟨hcommit, hglobal⟩ := h.not_committed hrecord hactive
    exact h.put_active hrecord hactive (UInt64.le_refl _) rfl (by simp [hcommit, hglobal])
      (by simp [hcommit])
  | beat hrecord hactive hlive time =>
    obtain ⟨hcommit, hglobal⟩ := h.not_committed hrecord hactive
    exact h.put_active hrecord hactive (UInt64.le_refl _) rfl (by simp [hcommit, hglobal, hactive])
      (by simp [hcommit])
  | note hrecord hactive hlive tables =>
    obtain ⟨hcommit, hglobal⟩ := h.not_committed hrecord hactive
    exact h.put_active hrecord hactive (UInt64.le_refl _) rfl (by simp [hcommit, hglobal, hactive])
      (by simp [hcommit])
  | remember hremembers =>
    have hrecords := hremembers.records
    have hlatest : r'.latest = r.latest := by rw [latest, hremembers.1]; rfl
    refine ⟨fun hfound => ?_, fun hfound => ?_, fun hfound _ htime => ?_, fun hfound => ?_⟩
    · rw [hlatest]
      exact h.known (hrecords ▸ hfound)
    · exact h.committed (hrecords ▸ hfound)
    · rw [hlatest]
      exact h.ordered (hrecords ▸ hfound) htime
    · rw [hrecords]
      rcases hremembers.2 _ _ hfound with hold | ⟨hstanding, hfinal⟩
      · exact h.recalled hold
      · obtain ⟨stored, hstored, rfl⟩ := standing?_eq_some_iff.1 hstanding
        refine ⟨stored, hstored, rfl, hfinal, fun hcommitted => ?_⟩
        rw [current_committed_iff] at hcommitted
        exact current_of_final (by simp [hcommitted])

theorem Sound.drawn {under : Option TxnId → Prop} (h : r.Sound)
    (hsupply : 0 < AscendingSource.supply r.source) (hdrawn : r.Drawn under r') : r'.Sound := by
  cases hdrawn with
  | unused hdraw =>
    obtain ⟨hlt, hle, -⟩ := AscendingSource.drawn hsupply hdraw
    exact h.withSource (UInt64.le_trans (UInt64.le_of_lt hlt) hle)
  | @enter time source hdraw keepAlive parent hparent isolation additive =>
    obtain ⟨hlt, hle, -⟩ := AscendingSource.drawn hsupply hdraw
    have hmoved := h.withSource (UInt64.le_trans (UInt64.le_of_lt hlt) hle)
    have hnone := h.fresh hsupply time source hdraw
    refine hmoved.put rfl rfl hle (by simp [Txn.entered, Txn.new]) nofun fun found hfound => ?_
    obtain ⟨stored, hstored, -⟩ := h.recalled hfound
    cases hnone.symm.trans hstored
  | @commit time source hdraw id txn hrecord hactive hlive =>
    obtain ⟨hlt, hle, -⟩ := AscendingSource.drawn hsupply hdraw
    refine h.put_active hrecord hactive (UInt64.le_trans (UInt64.le_of_lt hlt) hle) rfl
      (by simp) ?_
    rintro _ ⟨⟩
    have hknown : id ≤ AscendingSource.latest r.source := (h.known hrecord).2.2
    exact ⟨by grind, hle⟩

theorem Sound.adopted {id : TxnId} {time : Timestamp} (h : r.Sound)
    (hadopted : r.Adopted id time r') : r'.Sound := by
  obtain ⟨hrecord, hstate⟩ := hadopted
  obtain ⟨hid, hbegin, hle⟩ := h.known hrecord
  have hforgot : Sound
      { r with recalled := fun other => if other = id then none else r.recalled other } := by
    refine ⟨h.known, h.committed, h.ordered, fun hfound => ?_⟩
    simp only at hfound
    split at hfound
    · cases hfound
    · exact h.recalled hfound
  refine hforgot.put hid hbegin hle (by simp) (fun _ htime => h.ordered hrecord htime) ?_
  intro found hfound
  simp at hfound

end Mvcc.Register

import Mvcc.Proofs.Txn.Ascent
import Mvcc.Proofs.Txn.Finality
import Mvcc.Proofs.Txn.Roots

/-!
# Commit timestamps

A committed root keeps the commit timestamp that it drew, if any. The timestamp of a coordinated
commit is a separate slot, overwritten by every further coordinated commit. A repeated commit
returns the drawn timestamp first, a view the coordinated one.
-/

namespace Mvcc

namespace Register

variable {τ : Type} {r r' : Register τ} {id other : TxnId} {time : Timestamp}

/-- When a transaction committed, as far as that was coordinated elsewhere. -/
def globalTime? (r : Register τ) (id : TxnId) : Option Timestamp :=
  (r.records id).bind Txn.globalCommitTime

/-- A committed root with the commit time it drew. -/
def CommittedRoot (r : Register τ) (id : TxnId) (own : Option Timestamp) : Prop :=
  ∃ txn, r.records id = some txn ∧ txn.state = .committed ∧ txn.parent = none ∧ txn.commitTime = own

theorem Adopted.globalTime? (h : r.Adopted id time r') (other : TxnId) :
    r'.globalTime? other = if other = id then some time else r.globalTime? other := by
  cases h with
  | intro hrecord hstate =>
    unfold Register.globalTime? put
    by_cases hother : other = id <;> simp [hother]

theorem Adopted.committedRoot {own : Option Timestamp} (h : r.Adopted other time r')
    (hroot : r.CommittedRoot id own) : r'.CommittedRoot id own := by
  obtain ⟨txn, hrecord, hstate, hparent, hown⟩ := hroot
  cases h with
  | @intro noted hnoted _ =>
    by_cases hid : id = other
    · subst hid
      cases hrecord.symm.trans hnoted
      exact ⟨_, if_pos rfl, rfl, hparent, hown⟩
    · exact ⟨txn, (if_neg hid).trans hrecord, hstate, hparent, hown⟩

variable [TimestampSource τ] [AscendingSource τ] {under : Option TxnId → Prop}

theorem Advances.globalTime? (h : r.Advances under r') (id : TxnId) :
    r'.globalTime? id = r.globalTime? id := by
  unfold Register.globalTime?
  cases hrecord : r.records id with
  | some txn =>
    obtain ⟨txn', hrecord', -, hglobal, -⟩ := h.kept hrecord
    rw [hrecord']
    exact hglobal
  | none =>
    cases hrecord' : r'.records id with
    | none => rfl
    | some txn' => exact (h.born hrecord hrecord').2.2

theorem Advances.committedRoot {own : Option Timestamp} (h : r.Advances under r')
    (hroot : r.CommittedRoot id own) : r'.CommittedRoot id own := by
  obtain ⟨txn, hrecord, hstate, hrest⟩ := hroot
  obtain ⟨txn', hrecord', -, -, hfinal, -⟩ := h.kept hrecord
  have hsame : txn' = txn := hfinal (by simp [hstate])
  exact ⟨txn, hsame ▸ hrecord', hstate, hrest⟩

theorem Sound.exists_time_of_committed (h : r.Sound) {txn : Txn}
    (hrecord : r.records id = some txn) (hstate : txn.state = .committed) :
    ∃ time, (txn.commitTime <|> txn.globalCommitTime) = some time := by
  have hsome := (h.committed hrecord).1 hstate
  cases hown : txn.commitTime with
  | some time => exact ⟨time, rfl⟩
  | none =>
    rw [hown] at hsome
    exact Option.isSome_iff_exists.1 (hsome.resolve_left (by simp))

end Register

namespace Ledger

open TxnM

variable {τ : Type} {s : Ledger τ} {id : TxnId}

/-! ## Coordinated commits -/

/-- The time at which an operation notes that a transaction committed elsewhere. -/
def notes? (s : Ledger τ) (id : TxnId) : Operation → Option Timestamp
  | .recordGlobalCommit other time =>
    if other = id then
      match recordGlobalCommit other time s with
      | .ok .. => some time
      | .error .. => none
    else none
  | _ => none

def noted? [TimestampSource τ] (id : TxnId) : Ledger τ → List Operation → Option Timestamp
  | _, [] => none
  | s, op :: ops => (noted? id (s.after op) ops).or (s.notes? id op)

/-- What is remembered of a transaction is that it rolled back. -/
def RecallsRollback (s : Ledger τ) (id : TxnId) : Prop :=
  ∃ txn, s.completed.remembered? id = some txn ∧ txn.state = .rolledBack

section Run

variable [TimestampSource τ] [AscendingSource τ] {op : Operation} {ops : List Operation}

/-- An operation that records a global commit of the transaction sets its global commit time, and
every other one keeps it; a commit time is never changed. -/
theorem globalTime?_after (h : Ready (op :: ops) s) (id : TxnId) :
    (s.after op).register.globalTime? id = (s.notes? id op).or (s.register.globalTime? id) ∧
      ∀ own, s.register.CommittedRoot id own → (s.after op).register.CommittedRoot id own := by
  cases hlocal : op.isLocal with
  | true =>
    have hadvances := (h.effect.advances h.sound h.operation_supplied hlocal).2
    have hnothing : s.notes? id op = none := by
      cases op with
      | recordGlobalCommit => cases hlocal
      | _ => rfl
    rw [hnothing]
    exact ⟨hadvances.globalTime? id, fun _ => hadvances.committedRoot⟩
  | false =>
    cases op with
    | recordGlobalCommit other time =>
      have hends := @recordGlobalCommit_ends _ _ other h.legible time
      cases hresult : recordGlobalCommit other time s with
      | error e s' =>
        have hafter : s.after (.recordGlobalCommit other time) = s' := by
          simp only [Ledger.after, Operation.steps, hresult]
        have hsame := (hends.of_error hresult).2
        rw [hafter, hsame]
        refine ⟨?_, fun _ hroot => hroot⟩
        simp [notes?, hresult]
      | ok _ s' =>
        have hafter : s.after (.recordGlobalCommit other time) = s' := by
          simp only [Ledger.after, Operation.steps, hresult]
        have hadopted := (hends.of_ok hresult).2
        rw [hafter, hadopted.globalTime? id]
        refine ⟨?_, fun _ => hadopted.committedRoot⟩
        by_cases hid : id = other
        · simp [notes?, hresult, hid]
        · simp [notes?, hid, Ne.symm hid]
    | _ => cases hlocal

theorem globalTime?_run (h : Ready ops s) (id : TxnId) :
    (s.run ops).register.globalTime? id = (noted? id s ops).or (s.register.globalTime? id) ∧
      ∀ own, s.register.CommittedRoot id own → (s.run ops).register.CommittedRoot id own := by
  induction ops generalizing s with
  | nil => exact ⟨rfl, fun _ hroot => hroot⟩
  | cons op ops ih =>
    obtain ⟨hop, hkept⟩ := globalTime?_after h id
    obtain ⟨hrest, hkept'⟩ := ih h.after
    refine ⟨?_, fun own hroot => hkept' own (hkept own hroot)⟩
    rw [run_cons, hrest, hop, noted?, Option.or_assoc]

/-- The global commit time of a record is the last one recorded in the run. -/
theorem globalCommitTime_run_new {name : String} {source : τ} {now : UInt64}
    {settings : TxnSettings} (h : Ready ops (new name source now settings)) {txn : Txn}
    (hrecord : (run (new name source now settings) ops).register.records id = some txn) :
    txn.globalCommitTime = noted? id (new name source now settings) ops := by
  have hrun := (globalTime?_run h id).1
  rw [Register.globalTime?, Register.globalTime?, hrecord, records_new] at hrun
  exact hrun.trans (Option.or_none ..)

end Run

/-! ## Answers for committed transactions -/

/-- Committing again gives the time that was written. -/
theorem commit_of_committedAt [TimestampSource τ] (hs : s.Legible) {time : Timestamp}
    (h : s.register.CommittedAt id time) :
    Ends (commit id) s (fun found _ => found = time) fun _ _ => s.register.serving = false := by
  obtain ⟨txn, hrecord, hstate, htime⟩ := h
  rw [commit, checkCommit, ends_bind, ends_bind]
  refine (loadExisting_ends hs).mono ?_ ?_
  · rintro found s' ⟨rfl, hfound⟩
    cases hrecord.symm.trans hfound
    simp [hstate, htime]
  · rintro e s' ⟨rfl, hserving | hnone⟩
    · exact hserving
    · cases hnone.symm.trans hrecord

/-- The look-up of a committed transaction gives its record, or a cached rollback. -/
theorem find_of_committed [TimestampSource τ] [AscendingSource τ] (hs : s.Legible)
    (hsound : s.register.Sound) (hserving : s.register.serving = true) {txn : Txn}
    (hrecord : s.register.records id = some txn) (hstate : txn.state = .committed) :
    Ends (find id) s (fun found _ => ∃ answer, found = some answer ∧ answer.parent = txn.parent ∧
        (s.RecallsRollback id → answer.state = .rolledBack) ∧
        (¬ s.RecallsRollback id → answer = txn)) fun _ _ => False := by
  by_cases hrecalls : s.RecallsRollback id
  · obtain ⟨recalled, hrecalled, hrolledBack⟩ := hrecalls
    obtain ⟨stored, hstored, horigin, -⟩ := hsound.recalled hrecalled
    cases hrecord.symm.trans hstored
    have hparent : recalled.parent = txn.parent := (Txn.eq_of_origin horigin).2.2
    rw [find, ends_bind]
    refine (recollect_ends hs).mono ?_ fun _ _ h => h
    rintro _ s₁ ⟨-, -, -, rfl⟩
    have hfound : s.register.recalled id = some recalled := hrecalled
    simp only [hfound, count, ends_bind, ends_modify, ends_pure]
    exact ⟨recalled, rfl, hparent, fun _ => hrolledBack, fun hnot =>
      absurd ⟨recalled, hrecalled, hrolledBack⟩ hnot⟩
  · refine (find_ends hs).mono ?_ fun _ _ h => by simp [hserving] at h
    rintro found s₁ ⟨-, hanswer⟩
    cases found with
    | none => cases hanswer.2.symm.trans hrecord
    | some answer =>
      have hcommitted : answer.state = .committed := by
        rcases hanswer with hrecalled | hstanding
        · obtain ⟨-, -, -, hfinal, -⟩ := hsound.recalled hrecalled
          cases hanswered : answer.state with
          | active => simp [TxnState.isFinal, hanswered] at hfinal
          | committed => rfl
          | rolledBack => exact absurd ⟨answer, hrecalled, hanswered⟩ hrecalls
        · rw [Register.standing?_of_record hrecord] at hstanding
          cases hstanding
          exact Register.current_committed_iff.2 hstate
      have hsame := hsound.record_of_committed hanswer hcommitted
      cases hrecord.symm.trans hsame
      exact ⟨txn, rfl, rfl, fun h => absurd h hrecalls, fun _ => rfl⟩

theorem resolve_of_root {good : Txn → Prop}
    (hfind : Ends (find id) s
      (fun found _ => ∃ txn, found = some txn ∧ txn.parent = none ∧ good txn) fun _ _ => False) :
    Ends (View.resolve id) s (fun view _ => ∃ txn, view = txn.alone ∧ good txn)
      fun _ _ => False := by
  obtain ⟨budget, hbudget⟩ : ∃ budget, longestChain = budget + 1 := ⟨_, rfl⟩
  rw [View.resolve, ends_bind, hbudget, View.climb, if_neg List.not_mem_nil, ends_bind]
  refine hfind.mono ?_ fun _ _ h => h
  rintro _ s₁ ⟨txn, rfl, hparent, hgood⟩
  simp only [hparent, ends_pure]
  exact ⟨txn, rfl, hgood⟩

/-! ## Committing twice -/

section Twice

variable [TimestampSource τ] [AscendingSource τ]

/-- After any run, a committed root still has the commit time it drew, and the last recorded global
commit time. -/
theorem exists_committed_run {ops : List Operation} (h : Ready ops s) {txn : Txn}
    (hrecord : s.register.records id = some txn) (hstate : txn.state = .committed)
    (hroot : txn.parent = none) :
    ∃ last, (s.run ops).register.records id = some last ∧ last.state = .committed ∧
      last.parent = none ∧ last.commitTime = txn.commitTime ∧
      last.globalCommitTime = (noted? id s ops).or txn.globalCommitTime := by
  obtain ⟨hglobal, hkept⟩ := globalTime?_run h id
  obtain ⟨last, hlast, hlastState, hparent, hown⟩ :=
    hkept txn.commitTime ⟨txn, hrecord, hstate, hroot, rfl⟩
  refine ⟨last, hlast, hlastState, hparent, hown, ?_⟩
  rw [Register.globalTime?, Register.globalTime?, hlast, hrecord] at hglobal
  exact hglobal

/-- The view of a committed root shows the global commit time if there is one, else the time it
drew; none if a rollback is cached. -/
theorem resolve_of_committed (hs : s.Legible) (hsound : s.register.Sound)
    (hserving : s.register.serving = true) {txn : Txn} (hrecord : s.register.records id = some txn)
    (hstate : txn.state = .committed) (hroot : txn.parent = none) :
    Ends (View.resolve id) s (fun view _ => ∀ time, view.effectiveCommitTime = some time ↔
      (txn.globalCommitTime <|> txn.commitTime) = some time ∧ ¬ s.RecallsRollback id)
      fun _ _ => False := by
  have hfind := find_of_committed hs hsound hserving hrecord hstate
  rw [hroot] at hfind
  refine (resolve_of_root hfind).mono ?_ fun _ _ h => h
  rintro _ s₁ ⟨answer, rfl, hrecalls, hsame⟩ time
  by_cases hrecall : s.RecallsRollback id
  · have hnever : answer.alone.effectiveCommitTime = none := by
      simp [View.effectiveCommitTime, View.effectiveState, View.stateBelow, Txn.alone,
        hrecalls hrecall]
    simp [hnever, hrecall]
  · have hshown : answer.alone.effectiveCommitTime =
        (txn.globalCommitTime <|> txn.commitTime) := by
      rw [hsame hrecall]
      simp [View.effectiveCommitTime, View.effectiveState, View.stateBelow, View.commitTimeBelow,
        Txn.alone, hstate]
    simp only [hshown, hrecall, not_false_eq_true, and_true]

omit [TimestampSource τ] [AscendingSource τ] in
/-- While the clock does not go back, no rollback of a committed transaction is cached. -/
theorem not_recallsRollback {txn : Txn} (hfaithful : s.register.Faithful)
    (hrecord : s.register.records id = some txn) (hstate : txn.state = .committed) :
    ¬ s.RecallsRollback id := by
  rintro ⟨recalled, hrecalled, hrolledBack⟩
  have hstanding := (hfaithful id recalled hrecalled).1
  rw [Register.standing?_of_record hrecord,
    Register.current_of_final (by simp [hstate])] at hstanding
  cases hstanding
  cases hstate.symm.trans hrolledBack

end Twice

/-- In every run, with any clock, as long as the source does not wrap: committing a committed root
again succeeds while the storage is available. It gives the same time exactly if the root drew that
time itself or no other global commit time was recorded since. The root can be viewed from then on,
and the view shows the same time exactly if no other time was recorded last, before or after, and no
rollback of it is cached, which requires a clock that goes back. -/
theorem commit_again_eq_iff [TimestampSource τ] [AscendingSource τ] (name : String) (source : τ)
    (now : UInt64) (settings : TxnSettings) (before later : List Operation) (id : TxnId)
    (time : Timestamp) (s : Ledger τ) (txn : Txn)
    (hample : Ample (new name source now settings) (before ++ .commit id :: later))
    (hcommit : commit id (run (new name source now settings) before) = .ok time s)
    (hrecord : s.partition.record? id = some txn) (hroot : txn.parent = none) :
    ((s.run later).partition.unavailable = false →
      ∃ again s', commit id (s.run later) = .ok again s') ∧
    (∀ again s', commit id (s.run later) = .ok again s' →
      (again = time ↔ txn.commitTime.isSome ∨
        ∀ other, noted? id s later = some other → other = time)) ∧
    ((s.run later).partition.unavailable = false →
      ∃ view s', View.resolve id (s.run later) = .ok view s' ∧
        (view.effectiveCommitTime = some time ↔
          (∀ other, noted? id (new name source now settings) (before ++ .commit id :: later) =
            some other → other = time) ∧ ¬ (s.run later).RecallsRollback id)) ∧
    (Forward now (before ++ .commit id :: later) → ¬ (s.run later).RecallsRollback id) := by
  have hready : Ready (before ++ .commit id :: later) (new name source now settings) :=
    ready_new hample
  have hbefore := hready.run
  have hafter : (run (new name source now settings) before).after (.commit id) = s :=
    after_of_ok rfl hcommit
  have hs : Ready later s := hafter ▸ hbefore.after
  have hwhole : run (new name source now settings) (before ++ .commit id :: later) =
      s.run later := by
    rw [run_append, run_cons, hafter]
  have hrecord' : s.register.records id = some txn := hrecord
  obtain ⟨stored, hstored, hstate, htime⟩ := ((commit_ends hbefore.legible).of_ok hcommit).2
  cases hstored.symm.trans hrecord'
  obtain ⟨last, hlast, hlastState, hlastRoot, hown, hglobal⟩ :=
    exists_committed_run hs hrecord' hstate hroot
  have hend := hs.run_whole
  have hnoted : last.globalCommitTime =
      noted? id (new name source now settings) (before ++ .commit id :: later) :=
    globalCommitTime_run_new hready (hwhole ▸ hlast)
  obtain ⟨again, hagain⟩ := hend.sound.exists_time_of_committed hlast hlastState
  have hcommits : Ends (commit id) (s.run later) (fun found _ => found = again)
      fun _ _ => (s.run later).register.serving = false :=
    commit_of_committedAt hend.legible ⟨last, hlast, hlastState, hagain⟩
  refine ⟨?_, ?_, ?_, ?_⟩
  · intro havailable
    refine (hcommits.mono (fun _ _ h => h) fun _ _ h => ?_).exists_ok.imp fun _ h => h.imp
      fun _ h => h.1
    cases (serving_iff.2 havailable).symm.trans h
  · intro found s' hfound
    rw [hcommits.of_ok hfound]
    rw [hown, hglobal] at hagain
    cases howned : txn.commitTime with
    | some own =>
      rw [howned] at hagain htime
      have hsame : again = time := Option.some.inj (hagain.symm.trans htime)
      exact iff_of_true hsame (.inl rfl)
    | none =>
      rw [howned] at hagain htime
      cases hlater : noted? id s later with
      | some other =>
        rw [hlater] at hagain
        cases hagain
        simp
      | none =>
        rw [hlater] at hagain
        have hsame : again = time := Option.some.inj (hagain.symm.trans htime)
        exact iff_of_true hsame (.inr fun _ h => by cases h)
  · intro havailable
    have hresolve := resolve_of_committed hend.legible hend.sound (serving_iff.2 havailable)
      hlast hlastState hlastRoot
    obtain ⟨view, s', hview, hshown⟩ := hresolve.exists_ok
    refine ⟨view, s', hview, ?_⟩
    rw [hshown time, ← hnoted, hown]
    refine and_congr_left fun _ => ?_
    cases hlastGlobal : last.globalCommitTime with
    | some other => simp
    | none =>
      -- Without a note the time was drawn by the commit of the root itself.
      rw [hlastGlobal] at hglobal
      have hnever : txn.globalCommitTime = none := (Option.or_eq_none_iff.1 hglobal.symm).2
      have hdrawn : txn.commitTime = some time := by simpa [hnever] using htime
      simp [hdrawn]
  · intro hforward
    have hfaithful := faithful_run_whole hready faithful_new hforward
    rw [hwhole] at hfaithful
    exact not_recallsRollback hfaithful hlast hlastState

/-- A root is committed by a global commit, which is then recorded again with the same time. -/
theorem commit_again_eq_noted :
    ∃ s txn, commit 1 (run (fromZero .standard) [.create none none none,
        .recordGlobalCommit 1 500]) = .ok 500 s ∧ s.partition.record? 1 = some txn ∧
      txn.parent = none ∧
      ((s.run [.clock 2000000, .recordGlobalCommit 1 500]).partition.unavailable = false →
        ∃ again s', commit 1 (s.run [.clock 2000000, .recordGlobalCommit 1 500]) = .ok again s') ∧
      ∀ again s', commit 1 (s.run [.clock 2000000, .recordGlobalCommit 1 500]) = .ok again s' →
        (again = 500 ↔ txn.commitTime.isSome ∨ ∀ other,
          noted? 1 s [.clock 2000000, .recordGlobalCommit 1 500] = some other → other = 500) := by
  refine ⟨_, _, rfl, rfl, rfl, ?_⟩
  have hagain := commit_again_eq_iff "stratum_txn" (fromZero .standard).source 1000000 .standard
    [.create none none none, .recordGlobalCommit 1 500]
    [.clock 2000000, .recordGlobalCommit 1 500] 1 500 _ _ (.inl (by decide)) rfl rfl rfl
  exact ⟨hagain.1, hagain.2.1⟩

/-- A root is committed by a global commit at 500, which commit answers. After another one at 700
both commit and view give 700. -/
theorem commit_again_of_noted_again :
    ∃ s again s' view s'', commit 1 (run (fromZero .standard) [.create none none none,
        .recordGlobalCommit 1 500]) = .ok 500 s ∧
      commit 1 (s.run [.recordGlobalCommit 1 700]) = .ok again s' ∧ again = 700 ∧
      View.resolve 1 (s.run [.recordGlobalCommit 1 700]) = .ok view s'' ∧
      view.effectiveCommitTime = some 700 :=
  ⟨_, _, _, _, _, rfl, rfl, rfl, rfl, rfl⟩

end Ledger

end Mvcc

import Mvcc.Proofs.Txn.Run

/-!
# Finality of outcomes

A finished outcome, once returned by a look-up, is returned by every later one, while the clock does
not go back. The one exception: a timeout is reported without being stored, and a coordinated commit
checks only the stored state, so it turns a reported rollback into a commit.
-/

namespace Mvcc

namespace Register

variable {τ : Type} {r r' : Register τ} {id : TxnId} {time : Timestamp}

theorem Adopted.exists_record (h : r.Adopted id time r') :
    ∃ txn, r.records id = some txn ∧ txn.state ≠ .rolledBack := by
  cases h with
  | intro hrecord hstate => exact ⟨_, hrecord, hstate⟩

theorem Adopted.standing? (h : r.Adopted id time r') (other : TxnId) :
    r'.standing? other = if other = id
      then (r.records id).map fun txn => { txn with
        globalCommitTime := some time
        state := .committed }
      else r.standing? other := by
  cases h with
  | @intro txn hrecord hstate =>
    have hput := standing?_put r id other
      { txn with globalCommitTime := some time, state := .committed }
    rw [hrecord]
    refine Eq.trans ?_ (hput.trans ?_)
    · rfl
    · rw [current_of_final (by simp)]
      rfl

theorem Adopted.faithful (h : r.Adopted id time r') (hfaithful : r.Faithful) : r'.Faithful := by
  intro other txn htxn
  have hstanding := h.standing? other
  cases h with
  | intro hrecord hstate =>
    simp only at htxn
    split at htxn
    · cases htxn
    · rename_i hother
      rw [hstanding, if_neg hother]
      exact hfaithful other txn htxn

end Register

namespace Ledger

variable {τ : Type}

/-- The operation records a global commit of a transaction that is stored as active but counts as
rolled back for its silence. -/
def Revives (s : Ledger τ) (id : TxnId) (op : Operation) : Prop :=
  ∃ time s' txn, op = .recordGlobalCommit id time ∧ recordGlobalCommit id time s = .ok () s' ∧
    s.partition.record? id = some txn ∧ txn.state = .active

theorem not_revives_of_committed {s : Ledger τ} {id : TxnId} {op : Operation} {txn : Txn}
    (hstanding : s.register.standing? id = some txn)
    (hcommitted : txn.state = .committed) : ¬ s.Revives id op := by
  rintro ⟨time, s', stored, -, -, hstored, hactive⟩
  have hrecord : s.register.records id = some stored := hstored
  rw [Register.standing?_of_record hrecord] at hstanding
  cases hstanding
  rw [Register.current_committed_iff, hactive] at hcommitted
  cases hcommitted

/-- While the storage is available a look-up succeeds with the standing of the transaction. -/
theorem find_of_standing {s : Ledger τ} {id : TxnId} {txn : Txn} (hs : s.Legible)
    (hfaithful : s.register.Faithful) (hstanding : s.register.standing? id = some txn) :
    (s.partition.unavailable = false → ∃ found s', find id s = .ok found s') ∧
      ∀ found s', find id s = .ok found s' → found = some txn := by
  have hends := @find_ends _ s id hs
  constructor
  · intro havailable
    cases hfind : find id s with
    | ok found s' => exact ⟨found, s', rfl⟩
    | error e s' =>
      have hserving := (hends.of_error hfind).2
      simp [register, havailable] at hserving
  · intro found s' hfind
    obtain ⟨-, hanswer⟩ := hends.of_ok hfind
    cases found with
    | some found => rw [hfaithful.answers_iff.1 hanswer] at hstanding; exact hstanding
    | none =>
      rw [Register.standing?, hanswer.2] at hstanding
      cases hstanding

/-- A global commit makes a finished transaction committed; one that is not stored as active was
committed before. -/
theorem final_of_adopted {s s' : Ledger τ} {id other : TxnId} {time : Timestamp} {txn : Txn}
    (hresult : recordGlobalCommit other time s = .ok () s')
    (hadopted : s.register.Adopted other time s'.register)
    (hstanding : s.register.standing? id = some txn) (hfinal : txn.state.isFinal) :
    ∃ txn', s'.register.standing? id = some txn' ∧ txn'.state.isFinal ∧
      (s.Revives id (.recordGlobalCommit other time) → txn'.state = .committed) ∧
      (¬ s.Revives id (.recordGlobalCommit other time) → txn'.state = txn.state) := by
  rw [hadopted.standing?]
  by_cases hid : id = other
  · subst hid
    obtain ⟨stored, hstored, rfl⟩ := Register.standing?_eq_some_iff.1 hstanding
    refine ⟨_, by rw [if_pos rfl, hstored]; rfl, rfl, fun _ => rfl, fun hnot => ?_⟩
    obtain ⟨_, hrecord, hstate⟩ := hadopted.exists_record
    cases hrecord.symm.trans hstored
    cases hwritten : stored.state with
    | active => exact absurd ⟨time, s', stored, rfl, hresult, hstored, hwritten⟩ hnot
    | committed => exact (Register.current_committed_iff.2 hwritten).symm
    | rolledBack => exact absurd hwritten hstate
  · refine ⟨txn, by rw [if_neg hid, hstanding], hfinal, ?_, fun _ => rfl⟩
    rintro ⟨_, _, _, ⟨⟩, -⟩
    exact absurd rfl hid

variable [TimestampSource τ]

def Revived (s : Ledger τ) (id : TxnId) (ops : List Operation) : Prop :=
  ∃ before op later, ops = before ++ op :: later ∧ (s.run before).Revives id op

theorem revived_cons_iff {s : Ledger τ} {id : TxnId} {op : Operation} {ops : List Operation} :
    s.Revived id (op :: ops) ↔ s.Revives id op ∨ (s.after op).Revived id ops := by
  constructor
  · rintro ⟨before, revival, later, hops, hrevives⟩
    cases before with
    | nil =>
      cases hops
      exact .inl hrevives
    | cons first before =>
      cases hops
      exact .inr ⟨before, revival, later, rfl, hrevives⟩
  · rintro (hrevives | ⟨before, revival, later, rfl, hrevives⟩)
    · exact ⟨[], op, ops, rfl, hrevives⟩
    · exact ⟨op :: before, revival, later, rfl, hrevives⟩

variable [AscendingSource τ] {s : Ledger τ} {id : TxnId} {txn : Txn} {op : Operation}
  {ops : List Operation}

theorem Ready.now_run {later : List Operation} (h : Ready (ops ++ later) s) :
    (s.run ops).now = ops.foldl Operation.clockAfter s.now := by
  induction ops generalizing s with
  | nil => rfl
  | cons op ops ih =>
    have hnow : (s.after op).now = op.clockAfter s.now := Operation.Effect.now h.effect
    rw [run_cons, List.foldl_cons, ih h.after, hnow]

/-- Caches stay faithful in every run. -/
theorem faithful_run {later : List Operation} (h : Ready (ops ++ later) s)
    (hfaithful : s.register.Faithful) (hforward : Forward s.now ops) :
    (s.run ops).register.Faithful := by
  induction ops generalizing s with
  | nil => exact hfaithful
  | cons op ops ih =>
    obtain ⟨hle, hlater⟩ := hforward
    have hnow : (s.after op).now = op.clockAfter s.now := Operation.Effect.now h.effect
    refine ih h.after ?_ (hnow ▸ hlater)
    cases hlocal : op.isLocal with
    | true => exact (h.effect.proceeds h.sound h.operation_supplied hlocal hle).faithful hfaithful
    | false =>
      have heffect := h.effect
      cases op with
      | recordGlobalCommit other time =>
        rcases heffect with hsame | hadopted
        · exact hsame ▸ hfaithful
        · exact hadopted.faithful hfaithful
      | _ => cases hlocal

theorem faithful_run_whole (h : Ready ops s) (hfaithful : s.register.Faithful)
    (hforward : Forward s.now ops) : (s.run ops).register.Faithful := by
  rw [← List.append_nil ops] at h
  exact faithful_run h hfaithful hforward

theorem final_after (h : Ready (op :: ops) s) (hfaithful : s.register.Faithful)
    (hforward : s.now ≤ op.clockAfter s.now) (hstanding : s.register.standing? id = some txn)
    (hfinal : txn.state.isFinal) :
    (s.after op).register.Faithful ∧ ∃ txn', (s.after op).register.standing? id = some txn' ∧
      txn'.state.isFinal ∧ (s.Revives id op → txn'.state = .committed) ∧
      (¬ s.Revives id op → txn'.state = txn.state) := by
  cases hlocal : op.isLocal with
  | true =>
    have hproceeds := h.effect.proceeds h.sound h.operation_supplied hlocal hforward
    refine ⟨hproceeds.faithful hfaithful, txn, hproceeds.settles id txn hstanding hfinal, hfinal,
      ?_, fun _ => rfl⟩
    rintro ⟨time, s', stored, rfl, -⟩
    cases hlocal
  | false =>
    cases op with
    | recordGlobalCommit other time =>
      have hends := @recordGlobalCommit_ends _ s other h.legible time
      cases hresult : recordGlobalCommit other time s with
      | error e s' =>
        have hafter : s.after (.recordGlobalCommit other time) = s' := by
          simp only [Ledger.after, Operation.steps, hresult]
        obtain ⟨-, hregister⟩ := hends.of_error hresult
        rw [hafter, hregister]
        refine ⟨hfaithful, txn, hstanding, hfinal, ?_, fun _ => rfl⟩
        rintro ⟨_, s'', stored, ⟨⟩, hok, -⟩
        cases hok.symm.trans hresult
      | ok _ s' =>
        have hafter : s.after (.recordGlobalCommit other time) = s' := by
          simp only [Ledger.after, Operation.steps, hresult]
        obtain ⟨-, hadopted⟩ := hends.of_ok hresult
        rw [hafter]
        exact ⟨hadopted.faithful hfaithful, final_of_adopted hresult hadopted hstanding hfinal⟩
    | _ => cases hlocal

/-- A run preserves the state of a finished transaction, unless it revives it. -/
theorem final_run (h : Ready ops s) (hfaithful : s.register.Faithful)
    (hforward : Forward s.now ops) (hstanding : s.register.standing? id = some txn)
    (hfinal : txn.state.isFinal) :
    (s.run ops).register.Faithful ∧ ∃ txn', (s.run ops).register.standing? id = some txn' ∧
      (s.Revived id ops → txn'.state = .committed ∧ txn.state = .rolledBack) ∧
      (¬ s.Revived id ops → txn'.state = txn.state) := by
  induction ops generalizing s txn with
  | nil =>
    refine ⟨hfaithful, txn, hstanding, ?_, fun _ => rfl⟩
    rintro ⟨before, op, later, hops, -⟩
    simp at hops
  | cons op ops ih =>
    obtain ⟨hle, hlater⟩ := hforward
    obtain ⟨hfaithful', txn', hstanding', hfinal', hrevives, hkeeps⟩ :=
      final_after h hfaithful hle hstanding hfinal
    have hnow : (s.after op).now = op.clockAfter s.now := h.effect.now
    obtain ⟨hfaithful'', txn'', hstanding'', hrevived, hkept⟩ :=
      ih h.after hfaithful' (hnow ▸ hlater) hstanding' hfinal'
    refine ⟨hfaithful'', txn'', hstanding'', ?_⟩
    rw [revived_cons_iff]
    by_cases hop : s.Revives id op
    · have hcommitted := hrevives hop
      have hrolledBack : txn.state = .rolledBack := by
        cases hstate : txn.state with
        | active => simp [TxnState.isFinal, hstate] at hfinal
        | committed => exact absurd hop (not_revives_of_committed hstanding hstate)
        | rolledBack => rfl
      refine ⟨fun _ => ⟨?_, hrolledBack⟩, fun hnot => absurd (.inl hop) hnot⟩
      by_cases hlater : (s.after op).Revived id ops
      · exact (hrevived hlater).1
      · exact (hkept hlater).trans hcommitted
    · have hstate := hkeeps hop
      refine ⟨?_, fun hnot => (hkept fun hlater => hnot (.inr hlater)).trans hstate⟩
      rintro (hop' | hlater)
      · exact absurd hop' hop
      · exact ⟨(hrevived hlater).1, hstate ▸ (hrevived hlater).2⟩

/-- In every run whose clock does not go back, as long as the source does not wrap, a look-up that
finds a transaction finished fixes all later look-ups: while the storage is available they succeed,
with the same state exactly if no operation revived the transaction. -/
theorem find_state_eq_iff (name : String) (source : τ) (now : UInt64) (settings : TxnSettings)
    (before later : List Operation) (id : TxnId) (txn : Txn) (s : Ledger τ)
    (hample : Ample (new name source now settings) (before ++ .find id :: later))
    (hforward : Forward now (before ++ .find id :: later))
    (hfind : find id (run (new name source now settings) before) = .ok (some txn) s)
    (hfinal : txn.state.isFinal) :
    ((s.run later).partition.unavailable = false →
      ∃ found s', find id (s.run later) = .ok found s') ∧
    ∀ found s', find id (s.run later) = .ok found s' → ∃ txn', found = some txn' ∧
      (txn'.state = txn.state ↔ ¬ s.Revived id later) := by
  have hready : Ready (before ++ .find id :: later) (new name source now settings) :=
    ready_new hample
  obtain ⟨hbefore, -, hlater⟩ := forward_append hforward
  have hfaithful := faithful_run hready faithful_new hbefore
  have hfound := hready.run
  have hafter : (run (new name source now settings) before).after (.find id) = s :=
    after_of_ok rfl hfind
  have hs : Ready later s := hafter ▸ hfound.after
  obtain ⟨hlooked, hanswer⟩ := (find_ends hfound.legible).of_ok hfind
  have hstanding : s.register.standing? id = some txn := by
    rw [hlooked.2.standing? id]
    exact hfaithful.answers_iff.1 hanswer
  have hproceeds := Register.Steps.proceeds (fun _ => True) hfound.sound hlooked.2.steps
  have hnow : s.now = (run (new name source now settings) before).now := hlooked.2.steps.now
  obtain ⟨hfaithful', txn', hstanding', hrevived, hkept⟩ :=
    final_run hs (hproceeds.faithful hfaithful) (by rw [hnow, hready.now_run]; exact hlater)
      hstanding hfinal
  have hend : Ready (later ++ []) s := by rwa [List.append_nil]
  have hlegible : (s.run later).Legible := hend.run.legible
  obtain ⟨hanswers, hanswered⟩ := find_of_standing hlegible hfaithful' hstanding'
  refine ⟨hanswers, fun found s' hfind' => ⟨txn', hanswered found s' hfind', ?_⟩⟩
  constructor
  · intro hstate hrevival
    obtain ⟨hcommitted, hrolledBack⟩ := hrevived hrevival
    rw [hcommitted, hrolledBack] at hstate
    cases hstate
  · exact hkept

def impatient : TxnSettings := ⟨100, 1000, 0, 65536, 30000⟩

/-- Storing a rollback after the timeout was reported changes no answer. -/
theorem find_state_after_rollback :
    ∃ txn s, find 1 (run (fromZero impatient) [.create none none none, .clock 1001001]) =
        .ok (some txn) s ∧ txn.state = .rolledBack ∧
      ∀ found s', find 1 (s.run [.rollback 1]) = .ok found s' → ∃ txn', found = some txn' ∧
        (txn'.state = txn.state ↔ ¬ s.Revived 1 [.rollback 1]) :=
  ⟨_, _, rfl, rfl, (find_state_eq_iff "stratum_txn" (fromZero impatient).source 1000000 impatient
    [.create none none none, .clock 1001001] [.rollback 1] 1 _ _ (.inl (by decide))
    ⟨by decide, by decide, by decide, by decide, trivial⟩ rfl rfl).2⟩

/-- A transaction reported as rolled back for its silence is reported as committed after a global
commit. -/
theorem find_state_of_revived :
    ∃ txn s txn' s', Forward 1000000 [.create none none none, .clock 1001001,
        .recordGlobalCommit 1 500] ∧
      find 1 (run (fromZero impatient) [.create none none none, .clock 1001001]) =
        .ok (some txn) s ∧ txn.state = .rolledBack ∧
      find 1 (s.run [.recordGlobalCommit 1 500]) = .ok (some txn') s' ∧ txn'.state = .committed :=
  ⟨_, _, _, _, ⟨by decide, by decide, by decide, trivial⟩, rfl, rfl, rfl, rfl⟩

end Ledger

end Mvcc

import Mvcc.Proofs.Txn.Footprint
import Mvcc.Proofs.Txn.Tending

/-!
# Effects of a scheduler

A scheduler keeps tracked transactions alive and rolls back those cancelled or shut down, and has no
other effect on its ledger. The keep-alive timestamp of an untracked transaction does not change,
and a task without an entry does nothing.
-/

namespace Mvcc

/-! ## Slots and records -/

theorem Partition.Alters.slot?_eq {p p' : Partition} {id other : TxnId} {slots : List Bytes}
    {slot : Bytes} (h : p.Alters p' id slots) (hout : other ≠ id ∨ slot ∉ slots) :
    p'.slot? other slot = p.slot? other slot := by
  by_cases hsame : other = id
  · subst hsame
    exact h.others (hout.resolve_left fun hne => hne rfl)
  · have hrow : Slot.rowKey other ≠ Slot.rowKey id := fun hkey =>
      hsame (BigEndian.ofWord_inj.1 hkey)
    simp only [slot?, cell?, columns, h.rows hrow]

namespace Ledger

open TxnM

variable {τ : Type} {s : Ledger τ} {id other : TxnId}

theorem putSlot_leaves (s : Ledger τ) (id : TxnId) (value : Bytes) {slot : Bytes}
    {slots : List Bytes} (h : slot ∈ slots) :
    Leaves (putSlot id slot value) s fun s' => s.partition.Alters s'.partition id slots := by
  refine (putSlot_partition slot value).mono (fun _ s' hwritten => ?_) fun _ _ hsame => .of_eq hsame
  show s.partition.Alters s'.partition id slots
  rw [hwritten]
  exact Partition.alters_withCell h value

theorem rollback_leaves (s : Ledger τ) (id : TxnId) :
    Leaves (rollback id) s fun s' => s.partition.Alters s'.partition id [Slot.state] := by
  rw [rollback, Leaves, ends_bind]
  refine loadExisting_partition.mono (fun txn s₁ h₁ => ?_) fun _ _ hsame => .of_eq hsame
  rw [← h₁]
  cases txn.state with
  | rolledBack | committed => exact .of_eq rfl
  | active =>
    simp only [ends_bind, count, ends_modify]
    exact putSlot_leaves s₁ id _ List.mem_cons_self

theorem writeTimeout_leaves (s : Ledger τ) (id : TxnId) {slots : List Bytes}
    (h : Slot.state ∈ slots) :
    Leaves (writeTimeout id) s fun s' => s.partition.Alters s'.partition id slots := by
  simp only [writeTimeout, Leaves, ends_bind, count, ends_modify, ends_tryCatch, ends_pure]
  exact putSlot_leaves { s with tally := _ } id _ h

theorem keepAlive_leaves (s : Ledger τ) (id : TxnId) :
    Leaves (keepAlive id) s fun s' =>
      s.partition.Alters s'.partition id [Slot.keepAlive, Slot.state] := by
  rw [keepAlive, Leaves, ends_bind]
  refine loadExisting_partition.mono (fun txn s₁ h₁ => ?_) fun _ _ hsame => .of_eq hsame
  rw [← h₁]
  split
  · exact .of_eq rfl
  · simp only [ends_bind, ends_get]
    split
    · simp only [ends_bind, ends_pure]
      exact writeTimeout_leaves s₁ id (by simp)
    · simp only [ends_bind, ends_get, ends_pure]
      exact putSlot_leaves s₁ id _ List.mem_cons_self

variable [TimestampSource τ]

theorem slot?_after_rollback (s : Ledger τ) (id other : TxnId) :
    (s.after (.rollback id)).partition.slot? other Slot.keepAlive =
      s.partition.slot? other Slot.keepAlive := by
  have hends : Leaves (Operation.rollback id).steps s fun s' =>
      s.partition.Alters s'.partition id [Slot.state] := rollback_leaves s id
  exact (after_of_ends hends).slot?_eq (.inr (by decide))

theorem slot?_after_keepAlive (h : other ≠ id) (slot : Bytes) :
    (s.after (.keepAlive id)).partition.slot? other slot = s.partition.slot? other slot := by
  have hends : Leaves (Operation.keepAlive id).steps s fun s' =>
      s.partition.Alters s'.partition id [Slot.keepAlive, Slot.state] :=
    ends_map.2 (keepAlive_leaves s id)
  exact (after_of_ends hends).slot?_eq (.inl h)

theorem record?_after_rollback (h : s.Writable) {txn : Txn}
    (hrecord : s.partition.record? id = some txn) (hactive : txn.state = .active) :
    (s.after (.rollback id)).partition.record? id = some { txn with state := .rolledBack } := by
  refine after_of_ends
    (p := fun s' => s'.partition.record? id = some { txn with state := .rolledBack }) ?_
  have hload : load id s = .ok (some txn) s := by rw [load_eq, stored_of_record h.available hrecord]
  have hdecode := Slot.decode_insert_state (Partition.record?_eq_some_iff.1 hrecord) .rolledBack
  rw [settled_of_active hrecord hactive] at hdecode
  simp only [Operation.steps, rollback, loadExisting, Leaves, ends_bind]
  rw [Ends, hload]
  simp only [ends_pure, hactive, ends_bind, count, ends_modify]
  refine (putSlot_exact h _ _).mono (fun _ s' hwritten => ?_) fun _ _ h => h.elim
  show s'.partition.record? id = _
  rw [hwritten.2]
  exact Partition.record?_withCell hdecode

end Ledger

namespace Scheduler

variable {τ : Type} [TimestampSource τ] {s : Scheduler τ} {id : TxnId} {number : Nat} {act : Act}

/-! ## The ledger -/

/-- The effect of an act, other than an operation of others, on the ledger. -/
theorem Orderly.ledger_step (h : s.Orderly) (hact : ∀ op, act ≠ .operation op) :
    (∃ other, s.isTracked other = true ∧ (s.step act).ledger = s.ledger.after (.keepAlive other)) ∨
      ∃ ids : List TxnId, (s.step act).ledger = s.ledger.run (ids.map .rollback) := by
  have hsame : (s.step act).ledger = s.ledger →
      ∃ ids : List TxnId, (s.step act).ledger = s.ledger.run (ids.map .rollback) := fun h => ⟨[], h⟩
  cases act with
  | operation op => exact absurd rfl (hact op)
  | schedule id => exact .inr (hsame (s.calm_schedule id).ledger)
  | cancel id reason => exact .inr ⟨[id], (s.calm_cancel id reason).ledger⟩
  | finish id => exact .inr (hsame (s.calm_finish id).ledger)
  | shutdown order =>
    by_cases hall : order.Perm s.entries
    · refine .inr ⟨order.map (·.txn), ?_⟩
      rw [step_shutdown hall, shutdown_eq, List.map_map]
      rfl
    · exact .inr (hsame (congrArg Scheduler.ledger (step_shutdown_of_not_perm hall)))
  | ask number =>
    rcases s.ask_cases number with hask | ⟨_, _, _, hask⟩ | ⟨id, due, htask, -, hask⟩
    · exact .inr (hsame (congrArg Scheduler.ledger hask :))
    · exact .inr (hsame (congrArg Scheduler.ledger hask :))
    · refine .inl ⟨id, isTracked_iff_mem.2 ⟨number, h.mem_of_task htask⟩, ?_⟩
      rw [Scheduler.step, hask]
      exact attempt_ledger _ _
  | conclude number => exact .inr (hsame (s.calm_conclude number).ledger)
  | reap number => exact .inr (hsame (s.calm_reap number).ledger)
  | tick =>
    rcases s.tick_cases with htick | ⟨_, htick⟩ <;>
      exact .inr (hsame (congrArg Scheduler.ledger htick :))

theorem slot?_run_rollback (ledger : Ledger τ) (ids : List TxnId) (id : TxnId) :
    (ledger.run (ids.map .rollback)).partition.slot? id Slot.keepAlive =
      ledger.partition.slot? id Slot.keepAlive := by
  induction ids generalizing ledger with
  | nil => rfl
  | cons other ids ih =>
    rw [List.map_cons, Ledger.run_cons, ih]
    exact ledger.slot?_after_rollback other id

/-- The scheduler does not change the keep-alive slot of an untracked transaction. -/
theorem Orderly.slot?_step (h : s.Orderly) (huntracked : s.isTracked id = false)
    (hact : ∀ op, act ≠ .operation op) :
    (s.step act).ledger.partition.slot? id Slot.keepAlive =
      s.ledger.partition.slot? id Slot.keepAlive := by
  rcases h.ledger_step hact with ⟨other, htracked, hledger⟩ | ⟨ids, hledger⟩
  · have hne : id ≠ other := by
      rintro rfl
      cases huntracked.symm.trans htracked
    rw [hledger, Ledger.slot?_after_keepAlive hne]
  · rw [hledger, slot?_run_rollback]

/-- A task without an entry changes only tasks and the failure count. -/
theorem Orderly.step_of_stale (h : s.Orderly) {task : BeatTask}
    (htask : s.tasks number = some task) (hgone : ⟨task.txn, number⟩ ∉ s.entries)
    (hact : act = .ask number ∨ act = .conclude number ∨ act = .reap number) :
    ∃ tasks failures, s.step act = { s with tasks, failures } := by
  rcases hact with rfl | rfl | rfl
  · rcases s.ask_cases number with hask | ⟨_, _, _, hask⟩ | ⟨id, due, htask', -, -⟩
    · exact ⟨s.tasks, s.failures, hask⟩
    · exact ⟨_, _, hask⟩
    · cases htask.symm.trans htask'
      exact absurd (h.mem_of_task htask) hgone
  · rcases s.conclude_cases number with
      ⟨-, hsame⟩ | ⟨_, _, _, _, htask', ⟨-, hover⟩ | ⟨-, _, hgoing⟩⟩
    · exact ⟨s.tasks, s.failures, hsame⟩
    · cases htask.symm.trans htask'
      rw [h.untrack_eq, if_neg hgone] at hover
      exact ⟨_, _, hover⟩
    · exact ⟨_, _, hgoing⟩
  · rcases s.reap_cases number with hreap | ⟨_, _, _, hreap⟩
    · exact ⟨s.tasks, s.failures, hreap⟩
    · exact ⟨_, _, hreap⟩

/-! ## Shutting down -/

theorem record?_after_rollback_of_ne {ledger : Ledger τ} {other : TxnId} (h : id ≠ other) :
    (ledger.after (.rollback other)).partition.record? id = ledger.partition.record? id :=
  (Ledger.within_after (rfl : (Ledger.Operation.rollback other).isSteady = true)).record h

theorem record?_run_rollback_of_not_mem {ids : List TxnId} (h : id ∉ ids) (ledger : Ledger τ) :
    (ledger.run (ids.map .rollback)).partition.record? id = ledger.partition.record? id := by
  induction ids generalizing ledger with
  | nil => rfl
  | cons other ids ih =>
    rw [List.map_cons, Ledger.run_cons, ih (List.not_mem_of_not_mem_cons h),
      record?_after_rollback_of_ne (List.ne_of_not_mem_cons h)]

theorem record?_run_rollback {ids : List TxnId} (hids : ids.Nodup) (hmem : id ∈ ids) {txn : Txn}
    (hactive : txn.state = .active) {ledger : Ledger τ} (hwritable : ledger.Writable)
    (hrecord : ledger.partition.record? id = some txn) :
    (ledger.run (ids.map .rollback)).partition.record? id =
      some { txn with state := .rolledBack } := by
  induction ids generalizing ledger with
  | nil => cases hmem
  | cons other ids ih =>
    rw [List.map_cons, Ledger.run_cons]
    obtain ⟨hother, hids⟩ := List.nodup_cons.1 hids
    by_cases hsame : id = other
    · subst hsame
      rw [record?_run_rollback_of_not_mem hother]
      exact Ledger.record?_after_rollback hwritable hrecord hactive
    · refine ih hids ((List.mem_cons.1 hmem).resolve_left hsame) ?_ ?_
      · exact Ledger.writable_after rfl hwritable
      · rw [record?_after_rollback_of_ne hsame, hrecord]

/-- On a writable ledger, a shutdown in any order rolls back every tracked active transaction. -/
theorem Orderly.record?_shutdown (h : s.Orderly) {order : List Tracked}
    (hall : order.Perm s.entries) (hwritable : s.ledger.Writable) (htracked : s.isTracked id = true)
    {txn : Txn} (hrecord : s.ledger.partition.record? id = some txn)
    (hactive : txn.state = .active) :
    (s.shutdown order).ledger.partition.record? id = some { txn with state := .rolledBack } := by
  obtain ⟨number, hmem⟩ := isTracked_iff_mem.1 htracked
  have hdistinct : (order.map (·.txn)).Nodup := (hall.map _).nodup_iff.2 h.distinct
  have hid : id ∈ order.map (·.txn) := List.mem_map.2 ⟨_, hall.mem_iff.2 hmem, rfl⟩
  have hledger : (s.shutdown order).ledger =
      s.ledger.run ((order.map (·.txn)).map .rollback) := by
    rw [shutdown_eq, List.map_map]
    rfl
  rw [hledger]
  exact record?_run_rollback hdistinct hid hactive hwritable hrecord

/-! ## Every run -/

/-- In every run of a scheduler over any ledger, with operations of others and tasks interleaved:
entries are in bijection with running tasks; a transaction is tracked exactly if a heartbeat of it
is kept; a kept heartbeat has made one attempt at each of its moments, and there were no others;
only the task of an entry makes an attempt; scheduling a tracked transaction changes nothing; the
scheduler does not change the keep-alive slot of an untracked transaction; a task without an entry
changes only tasks and the failure count; and on a writable ledger a shutdown in any order rolls
back every tracked active transaction. Every history of a tended ledger is such a run. -/
theorem tracking_after_new (ledger : Ledger τ) :
    (∀ (acts : Nat → Act) (count : Nat) (id : TxnId),
      let s := (new ledger).after acts count
      let interval := ledger.settings.keepAliveInterval.toNat
      s.Orderly ∧
      (s.isTracked id = true ↔ ∃ first, (new ledger).Kept acts id first count) ∧
      (∀ first, (new ledger).Kept acts id first count → ∃ beats,
        let before := (new ledger).after acts first
        moments id s.attempts = moments id before.attempts ++
          (List.range beats).map (fun beat => before.timer + (beat + 1) * interval) ∧
        (interval = 0 ∧ beats = 0 ∨ before.timer + beats * interval ≤ s.timer ∧
          s.timer ≤ before.timer + (beats + 1) * interval)) ∧
      (∀ act, (s.step act).attempts = s.attempts ∨ ∃ other number due, act = .ask number ∧
        ⟨other, number⟩ ∈ s.entries ∧
        (s.step act).attempts = s.attempts ++ [⟨number, other, s.timer⟩] ∧
        (s.step act).ledger = s.ledger.after (.keepAlive other) ∧
        (s.step act).tasks number = some ⟨other, due, false, some (attempt s.ledger other).1⟩) ∧
      (s.isTracked id = true → (s.schedule id).2 = s) ∧
      (s.isTracked id = false → ∀ act, (∀ op, act ≠ .operation op) →
        (s.step act).ledger.partition.slot? id Slot.keepAlive =
          s.ledger.partition.slot? id Slot.keepAlive) ∧
      (∀ number task, s.tasks number = some task → ⟨task.txn, number⟩ ∉ s.entries →
        ∀ act, act = .ask number ∨ act = .conclude number ∨ act = .reap number →
          ∃ tasks failures, s.step act = { s with tasks, failures }) ∧
      (∀ order, order.Perm s.entries → s.ledger.Writable → s.isTracked id = true →
        ∀ txn, s.ledger.partition.record? id = some txn → txn.state = .active →
          (s.step (.shutdown order)).isTracked id = false ∧
          (s.step (.shutdown order)).ledger.partition.record? id =
            some { txn with state := .rolledBack })) ∧
    ∀ turns : List TendedLedger.Turn, ∃ acts count, ((new ledger).after acts count).tended =
      turns.foldl .take ⟨ledger, .new ledger.settings.keepAliveInterval⟩ := by
  refine ⟨fun acts count id => ?_, exists_after_tended ledger⟩
  have h := (orderly_new ledger).after acts count
  refine ⟨h, isTracked_after_new ledger acts id count, ?_, h.attempts_step, ?_, ?_, ?_, ?_⟩
  · intro first hkept
    obtain ⟨beats, hontime, hmoments⟩ := hkept.beats (orderly_new ledger)
    have hbounds := hontime.bounds
    rw [interval_after] at hbounds
    exact ⟨beats, hmoments, hbounds⟩
  · exact schedule_of_isTracked
  · exact fun huntracked act hact => h.slot?_step huntracked hact
  · exact fun number task htask hgone act hact => h.step_of_stale htask hgone hact
  · intro order hall hwritable htracked txn hrecord hactive
    rw [step_shutdown hall]
    refine ⟨?_, h.record?_shutdown hall hwritable htracked hrecord hactive⟩
    rw [shutdown_eq]
    rfl

/-- A keep-alive interval of two milliseconds. -/
def brisk : TxnSettings := { TxnSettings.standard with keepAliveInterval := 2 }

/-- A transaction begins and is scheduled, and its heartbeat fires once. -/
@[irreducible] def keptOnce (act : Nat) : Act :=
  [.operation (.create none none none), .schedule 1, .tick, .tick, .ask 0, .conclude 0].getD act
    .tick

theorem tracking_keptOnce :
    let s := (new (Ledger.fromZero brisk)).after keptOnce 6
    (∃ first, (new (Ledger.fromZero brisk)).Kept keptOnce 1 first 6) ∧
      moments 1 s.attempts = [2] ∧
      ((s.step (.shutdown s.entries)).ledger.partition.record? 1).map Txn.state =
        some .rolledBack := by
  intro s
  have htracked : s.isTracked 1 = true := by decide +kernel
  have hstate : (s.ledger.partition.record? 1).map Txn.state = some .active := by decide +kernel
  obtain ⟨txn, hrecord, hactive⟩ := Option.map_eq_some_iff.1 hstate
  have hwritable : s.ledger.Writable := ⟨by decide +kernel, by decide +kernel⟩
  obtain ⟨-, hkept, -, -, -, -, -, hshutdown⟩ :=
    (tracking_after_new (Ledger.fromZero brisk)).1 keptOnce 6 1
  refine ⟨hkept.1 htracked, by decide +kernel, ?_⟩
  rw [(hshutdown s.entries (.refl _) hwritable htracked txn hrecord hactive).2]
  rfl

end Scheduler

end Mvcc

import Mvcc.Proofs.Txn.Scheduling

/-!
# Keep-alive attempts

A transaction is tracked from its scheduling until its entry is removed. While it is tracked, each
firing of its heartbeat causes exactly one attempt, and there are no others.
-/

namespace Mvcc.Scheduler

variable {τ : Type} {s s' : Scheduler τ} {id : TxnId} {number : Nat} {act : Act}

/-! ## Starts and stops -/

/-- The act starts a heartbeat for the transaction, which has none. -/
def Starts (id : TxnId) (s : Scheduler τ) : Act → Prop
  | .schedule other => other = id ∧ s.isTracked id = false
  | _ => False

theorem Starts.schedule (h : Starts id s act) : act = .schedule id ∧ s.isTracked id = false := by
  cases act with
  | schedule other =>
    obtain ⟨rfl, huntracked⟩ := h
    exact ⟨rfl, huntracked⟩
  | _ => cases h

/-- The act ends the heartbeat of the transaction: it is stopped, or its task has found the
transaction finished. -/
def Stops (id : TxnId) (s : Scheduler τ) : Act → Prop
  | .cancel other _ | .finish other => other = id
  | .shutdown order => order.Perm s.entries
  | .conclude number => ∃ due, s.tasks number = some ⟨id, due, false, some (.ok false)⟩
  | _ => False

/-! ## Entries -/

theorem not_isTracked_iff : s.isTracked id = false ↔ s.find? id = none := by
  rw [isTracked, Option.isSome_eq_false_iff, Option.isNone_iff_eq_none]

theorem schedule_of_isTracked (h : s.isTracked id = true) : (s.schedule id).2 = s := by
  obtain ⟨entry, hentry⟩ := Option.isSome_iff_exists.1 h
  unfold schedule
  rw [hentry]

theorem Orderly.lt_spawned (h : s.Orderly) (hmem : ⟨id, number⟩ ∈ s.entries) :
    number < s.spawned := by
  obtain ⟨task, htask, -⟩ := (h.owned _ _).1 hmem
  exact h.numbered number (by rw [htask]; rfl)

theorem Orderly.mem_of_task (h : s.Orderly) {due : Option Nat}
    {answer : Option (Except TxnError Bool)}
    (htask : s.tasks number = some ⟨id, due, false, answer⟩) : ⟨id, number⟩ ∈ s.entries :=
  (h.owned id number).2 ⟨_, htask, rfl, rfl⟩

theorem mem_schedule {other : TxnId} : ⟨id, number⟩ ∈ (s.schedule other).2.entries ↔
    Starts id s (.schedule other) ∧ number = s.spawned ∨ ⟨id, number⟩ ∈ s.entries := by
  unfold schedule Starts
  cases hentry : s.find? other with
  | some entry =>
    have htracked : ¬ (other = id ∧ s.isTracked id = false) := by
      rintro ⟨rfl, hnone⟩
      cases hentry.symm.trans (not_isTracked_iff.1 hnone)
    simp [htracked]
  | none =>
    rw [List.mem_append, List.mem_singleton]
    constructor
    · rintro (hmem | hnew)
      · exact .inr hmem
      · cases hnew
        exact .inl ⟨⟨rfl, not_isTracked_iff.2 hentry⟩, rfl⟩
    · rintro (⟨⟨rfl, -⟩, rfl⟩ | hmem)
      · exact .inr rfl
      · exact .inl hmem

theorem entries_finish (s : Scheduler τ) (id : TxnId) :
    (s.finish id).entries = s.entries.filter (·.txn ≠ id) := by
  unfold finish
  cases hentry : s.find? id with
  | some entry => rfl
  | none =>
    have hnone : ∀ entry ∈ s.entries, entry.txn ≠ id := by simpa using List.find?_eq_none.1 hentry
    exact (List.filter_eq_self.2 fun entry hmem => decide_eq_true (hnone entry hmem)).symm

theorem mem_filter_txn {other : TxnId} : ⟨id, number⟩ ∈ s.entries.filter (·.txn ≠ other) ↔
    ⟨id, number⟩ ∈ s.entries ∧ ¬ other = id := by
  rw [List.mem_filter, decide_eq_true_iff, ne_eq, eq_comm]

theorem Orderly.mem_conclude (h : s.Orderly) {other : Nat} :
    ⟨id, number⟩ ∈ (s.conclude other).entries ↔
      ⟨id, number⟩ ∈ s.entries ∧ ¬ Stops id s (.conclude other) := by
  rcases s.conclude_cases other with
    ⟨hnone, hsame⟩ | ⟨txn, due, halted, answer, htask, ⟨rfl, hover⟩ | ⟨hgoes, failures, hgoing⟩⟩
  · rw [hsame]
    refine (and_iff_left ?_).symm
    rintro ⟨due, htask⟩
    cases hnone _ htask
  · have hstops : Stops id s (.conclude other) ↔ txn = id ∧ halted = false := by
      simp [Stops, htask, and_comm]
    rw [hover, hstops, h.untrack_eq]
    split
    · rename_i hmem
      obtain ⟨task, hown, -, hlive⟩ := (h.owned _ _).1 hmem
      cases htask.symm.trans hown
      have hentry : ⟨id, number⟩ ∈ s.entries.filter (·.txn ≠ txn) ↔ _ := mem_filter_txn
      exact hentry.trans (and_congr_right' (not_congr (iff_self_and.2 fun _ => hlive)))
    · rename_i hgone
      have hhalted : halted = true := h.halted_of_not_mem htask hgone
      have hspared : ¬ (txn = id ∧ halted = false) := by simp [hhalted]
      exact (and_iff_left hspared).symm
  · rw [hgoing]
    refine (and_iff_left ?_).symm
    rintro ⟨due', htask'⟩
    cases htask.symm.trans htask'
    exact hgoes rfl

theorem entries_ask (s : Scheduler τ) (number : Nat) : (s.ask number).entries = s.entries := by
  rcases s.ask_cases number with hask | ⟨_, _, _, hask⟩ | ⟨_, _, _, _, hask⟩ <;>
    exact (congrArg Scheduler.entries hask :)

theorem entries_reap (s : Scheduler τ) (number : Nat) : (s.reap number).entries = s.entries := by
  rcases s.reap_cases number with hreap | ⟨_, _, _, hreap⟩ <;>
    exact (congrArg Scheduler.entries hreap :)

/-! ## Frames -/

/-- No attempt is made, and timer, interval and ledger are unchanged. -/
structure Calm (s s' : Scheduler τ) : Prop where
  interval : s'.interval = s.interval
  timer : s'.timer = s.timer
  attempts : s'.attempts = s.attempts
  ledger : s'.ledger = s.ledger

theorem calm_schedule (s : Scheduler τ) (id : TxnId) : s.Calm (s.schedule id).2 := by
  unfold schedule
  split <;> exact ⟨rfl, rfl, rfl, rfl⟩

theorem calm_finish (s : Scheduler τ) (id : TxnId) : s.Calm (s.finish id) := by
  unfold finish
  split <;> exact ⟨rfl, rfl, rfl, rfl⟩

theorem calm_untrack (s : Scheduler τ) (id : TxnId) (number : Nat) :
    s.Calm (s.untrack id number) := by
  unfold untrack
  split
  · split <;> exact ⟨rfl, rfl, rfl, rfl⟩
  · exact ⟨rfl, rfl, rfl, rfl⟩

theorem calm_conclude (s : Scheduler τ) (number : Nat) : s.Calm (s.conclude number) := by
  rcases s.conclude_cases number with
    ⟨-, hsame⟩ | ⟨id, due, halted, answer, -, ⟨-, hover⟩ | ⟨-, failures, hgoing⟩⟩
  · rw [hsame]
    exact ⟨rfl, rfl, rfl, rfl⟩
  · have hcalm := s.calm_untrack id number
    rw [hover]
    exact ⟨hcalm.interval, hcalm.timer, hcalm.attempts, hcalm.ledger⟩
  · rw [hgoing]
    exact ⟨rfl, rfl, rfl, rfl⟩

theorem calm_reap (s : Scheduler τ) (number : Nat) : s.Calm (s.reap number) := by
  rcases s.reap_cases number with hreap | ⟨_, _, _, hreap⟩ <;>
    (rw [hreap]; exact ⟨rfl, rfl, rfl, rfl⟩)

theorem Orderly.tasks_finish (h : s.Orderly) (hmem : ⟨id, number⟩ ∈ s.entries) {other : TxnId}
    (hne : ¬ other = id) : (s.finish other).tasks number = s.tasks number := by
  unfold Scheduler.finish
  cases hentry : s.find? other with
  | none => rfl
  | some entry =>
    refine tasks_put_of_ne _ _ ?_
    rintro rfl
    have htxn := ((h.owned _ _).1 (mem_of_find? hentry)).txn_unique ((h.owned _ _).1 hmem)
    exact hne ((txn_of_find? hentry).symm.trans htxn)

theorem tasks_untrack (s : Scheduler τ) (id : TxnId) (number : Nat) :
    (s.untrack id number).tasks = s.tasks := by
  unfold untrack
  split
  · split <;> rfl
  · rfl

theorem tasks_ask_of_ne (s : Scheduler τ) {other : Nat} (h : number ≠ other) :
    (s.ask other).tasks number = s.tasks number := by
  rcases s.ask_cases other with hask | ⟨_, _, _, hask⟩ | ⟨_, _, _, _, hask⟩
  · rw [hask]
  · rw [hask, tasks_put_of_ne _ _ h]
  · rw [hask]
    exact tasks_put_of_ne _ _ h

theorem tasks_conclude_of_ne (s : Scheduler τ) {other : Nat} (h : number ≠ other) :
    (s.conclude other).tasks number = s.tasks number := by
  rcases s.conclude_cases other with ⟨-, hsame⟩ | ⟨_, _, _, _, -, ⟨-, hover⟩ | ⟨-, _, hgoing⟩⟩
  · rw [hsame]
  · rw [hover, tasks_put_of_ne _ _ h, tasks_untrack]
  · rw [hgoing]
    exact tasks_put_of_ne _ _ h

/-! ## Moments -/

def moments (id : TxnId) (attempts : List Attempt) : List Nat :=
  (attempts.filter (·.txn = id)).map (·.time)

theorem moments_append_self (attempts : List Attempt) (time : Nat) :
    moments id (attempts ++ [⟨number, id, time⟩]) = moments id attempts ++ [time] := by
  simp [moments]

theorem moments_append_of_ne {other : TxnId} (h : other ≠ id) (attempts : List Attempt)
    (time : Nat) : moments id (attempts ++ [⟨number, other, time⟩]) = moments id attempts := by
  simp [moments, h]

/-- The task of a transaction, spawned at `start`, has made `count` attempts, each on time. -/
inductive OnTime (s : Scheduler τ) (id : TxnId) (number start : Nat) : Nat → Prop where
  | never (hinterval : s.interval = 0) (htask : s.tasks number = some ⟨id, none, false, none⟩) :
    OnTime s id number start 0
  | waiting {count : Nat} (hinterval : 0 < s.interval)
    (htask : s.tasks number = some ⟨id, some (start + (count + 1) * s.interval), false, none⟩)
    (hlast : start + count * s.interval ≤ s.timer)
    (hnext : s.timer ≤ start + (count + 1) * s.interval) : OnTime s id number start count
  /-- It has an answer at the current time and has not acted on it. -/
  | answered {count : Nat} {answer : Except TxnError Bool} (hinterval : 0 < s.interval)
    (htask : s.tasks number =
      some ⟨id, some (start + (count + 1) * s.interval), false, some answer⟩)
    (hnow : s.timer = start + (count + 1) * s.interval) : OnTime s id number start (count + 1)

variable {start count : Nat}

theorem OnTime.congr (h : s.OnTime id number start count) (hinterval : s'.interval = s.interval)
    (htimer : s'.timer = s.timer) (htasks : s'.tasks number = s.tasks number) :
    s'.OnTime id number start count := by
  cases h with
  | never hzero htask => exact .never (hinterval ▸ hzero) (htasks.trans htask)
  | waiting hpos htask hlast hnext =>
    exact .waiting (hinterval ▸ hpos) (by rw [htasks, htask, hinterval])
      (by rwa [hinterval, htimer]) (by rwa [hinterval, htimer])
  | answered hpos htask hnow =>
    exact .answered (hinterval ▸ hpos) (by rw [htasks, htask, hinterval])
      (by rwa [hinterval, htimer])

theorem OnTime.exists_task (h : s.OnTime id number start count) :
    ∃ due answer, s.tasks number = some ⟨id, due, false, answer⟩ := by
  cases h with
  | never _ htask => exact ⟨_, _, htask⟩
  | waiting _ htask => exact ⟨_, _, htask⟩
  | answered _ htask => exact ⟨_, _, htask⟩

theorem OnTime.bounds (h : s.OnTime id number start count) : s.interval = 0 ∧ count = 0 ∨
    start + count * s.interval ≤ s.timer ∧ s.timer ≤ start + (count + 1) * s.interval := by
  cases h with
  | never hzero => exact .inl ⟨hzero, rfl⟩
  | waiting _ _ hlast hnext => exact .inr ⟨hlast, hnext⟩
  | @answered count _ _ _ hnow =>
    refine .inr ⟨Nat.le_of_eq hnow.symm, ?_⟩
    rw [hnow, Nat.succ_mul (count + 1)]
    omega

/-- The task that is spawned for a transaction without one is on time from its first moment. -/
theorem onTime_schedule (h : s.isTracked id = false) :
    (s.schedule id).2.OnTime id s.spawned s.timer 0 := by
  unfold schedule
  rw [not_isTracked_iff.1 h]
  rcases Nat.eq_zero_or_pos s.interval with hzero | hpos
  · exact .never hzero (by simp [put, dueAfter, hzero])
  · refine .waiting hpos ?_ ?_ ?_
    · simp [put, dueAfter, Nat.ne_of_gt hpos]
    · simp [put]
    · simp [put]

theorem OnTime.ask (h : s.OnTime id number start count) :
    (s.ask number).OnTime id number start count ∧ (s.ask number).attempts = s.attempts ∨
      (s.ask number).OnTime id number start (count + 1) ∧ (s.ask number).attempts =
        s.attempts ++ [⟨number, id, start + (count + 1) * s.interval⟩] := by
  cases h with
  | never hzero htask =>
    have hsame : s.ask number = s := by simp [Scheduler.ask, htask]
    rw [hsame]
    exact .inl ⟨.never hzero htask, rfl⟩
  | waiting hpos htask hlast hnext =>
    rcases Nat.lt_or_eq_of_le hnext with hearly | hnow
    · have hsame : s.ask number = s := by simp [Scheduler.ask, htask, hearly]
      rw [hsame]
      exact .inl ⟨.waiting hpos htask hlast hnext, rfl⟩
    · have hask : s.ask number = { (s.within (attempt s.ledger id).2).put number
          (some ⟨id, some (start + (count + 1) * s.interval), false,
            some (attempt s.ledger id).1⟩) with
          attempts := s.attempts ++ [⟨number, id, s.timer⟩] } := by
        simp [Scheduler.ask, htask, hnow]
      rw [hask]
      exact .inr ⟨.answered hpos (if_pos rfl) hnow, by rw [hnow]⟩
  | answered hpos htask hnow =>
    have hsame : s.ask number = s := by simp [Scheduler.ask, htask]
    rw [hsame]
    exact .inl ⟨.answered hpos htask hnow, rfl⟩

theorem OnTime.conclude (h : s.OnTime id number start count)
    (hspared : ¬ Stops id s (.conclude number)) :
    (s.conclude number).OnTime id number start count := by
  rcases s.conclude_cases number with
    ⟨-, hsame⟩ | ⟨txn, due, halted, answer, htask, ⟨rfl, -⟩ | ⟨-, failures, hgoing⟩⟩
  · rw [hsame]
    exact h
  · obtain ⟨due', answer', htask'⟩ := h.exists_task
    cases htask.symm.trans htask'
    exact absurd ⟨due, htask⟩ hspared
  · cases h with
    | never _ htask' | waiting _ htask' => cases htask.symm.trans htask'
    | @answered count _ hpos htask' hnow =>
      cases htask.symm.trans htask'
      rw [hgoing]
      have hdue : start + (count + 1) * s.interval + s.interval =
          start + (count + 1 + 1) * s.interval := by
        rw [Nat.succ_mul (count + 1), Nat.add_assoc]
      refine .waiting hpos ((if_pos rfl).trans ?_) (Nat.le_of_eq hnow.symm) ?_
      · rw [Option.map_some, hdue]
        rfl
      · show s.timer ≤ start + (count + 1 + 1) * s.interval
        omega

theorem due_ne_of_isIdle (h : s.isIdle = true) (hspawned : number < s.spawned) {due : Option Nat}
    {answer : Option (Except TxnError Bool)}
    (htask : s.tasks number = some ⟨id, due, false, answer⟩) : due ≠ some s.timer := by
  have hall := List.all_eq_true.1 h number (List.mem_range.2 hspawned)
  simpa [htask] using hall

/-- The timer does not pass the next moment of the task. -/
theorem OnTime.tick (h : s.OnTime id number start count) (hspawned : number < s.spawned) :
    s.tick.OnTime id number start count := by
  rcases s.tick_cases with hsame | ⟨hidle, htick⟩
  · rw [hsame]
    exact h
  · rw [htick]
    cases h with
    | never hzero htask => exact .never hzero htask
    | waiting hpos htask hlast hnext =>
      have hne := due_ne_of_isIdle hidle hspawned htask
      refine .waiting hpos htask (Nat.le_succ_of_le hlast) (Nat.lt_of_le_of_ne hnext ?_)
      exact fun hnow => hne (congrArg some hnow.symm)
    | answered hpos htask hnow =>
      exact absurd (congrArg some hnow.symm) (due_ne_of_isIdle hidle hspawned htask)

/-! ## Acts -/

section

variable [TimestampSource τ]

theorem entries_cancel (s : Scheduler τ) (id : TxnId) (reason : String) :
    (s.cancel id reason).entries = s.entries.filter (·.txn ≠ id) := by
  rw [cancel, rollBack_eq, ← entries_finish]
  rfl

/-- The entries after an act. -/
theorem Orderly.mem_step (h : s.Orderly) (act : Act) : ⟨id, number⟩ ∈ (s.step act).entries ↔
    Starts id s act ∧ number = s.spawned ∨ ⟨id, number⟩ ∈ s.entries ∧ ¬ Stops id s act := by
  cases act with
  | operation op => simp [Scheduler.step, within, Starts, Stops]
  | schedule other => exact mem_schedule.trans (by simp [Stops])
  | cancel other reason =>
    rw [Scheduler.step, entries_cancel, mem_filter_txn]
    simp [Starts, Stops]
  | finish other =>
    rw [Scheduler.step, entries_finish, mem_filter_txn]
    simp [Starts, Stops]
  | shutdown order =>
    by_cases hall : order.Perm s.entries
    · rw [step_shutdown hall, shutdown_eq]
      simp [Starts, Stops, hall]
    · rw [step_shutdown_of_not_perm hall]
      simp [Starts, Stops, hall]
  | ask other =>
    rw [Scheduler.step, entries_ask]
    simp [Starts, Stops]
  | conclude other => exact h.mem_conclude.trans (by simp [Starts])
  | reap other =>
    rw [Scheduler.step, entries_reap]
    simp [Starts, Stops]
  | tick =>
    rcases s.tick_cases with hsame | ⟨-, htick⟩
    · simp [Scheduler.step, hsame, Starts, Stops]
    · simp [Scheduler.step, htick, Starts, Stops]

theorem Orderly.isTracked_step (h : s.Orderly) (act : Act) : (s.step act).isTracked id = true ↔
    Starts id s act ∨ s.isTracked id = true ∧ ¬ Stops id s act := by
  simp only [isTracked_iff_mem, h.mem_step, exists_or, exists_and_left, exists_and_right,
    exists_eq, and_true]

theorem calm_cancel (s : Scheduler τ) (id : TxnId) (reason : String) :
    (s.within (s.ledger.after (.rollback id))).Calm (s.cancel id reason) := by
  have hcalm := s.calm_finish id
  rw [cancel, rollBack_eq]
  exact ⟨hcalm.interval, hcalm.timer, hcalm.attempts,
    congrArg (Ledger.after · (.rollback id)) hcalm.ledger⟩

/-- Every act but an attempt and a tick is calm, apart from its effect on the ledger. -/
theorem calm_step (hask : ∀ number, act ≠ .ask number) (htick : act ≠ .tick) :
    ∃ ledger, (s.within ledger).Calm (s.step act) := by
  cases act with
  | operation op => exact ⟨s.ledger.after op, rfl, rfl, rfl, rfl⟩
  | schedule id => exact ⟨s.ledger, s.calm_schedule id⟩
  | cancel id reason => exact ⟨_, s.calm_cancel id reason⟩
  | finish id => exact ⟨s.ledger, s.calm_finish id⟩
  | shutdown order =>
    by_cases hall : order.Perm s.entries
    · rw [step_shutdown hall, shutdown_eq]
      exact ⟨_, rfl, rfl, rfl, rfl⟩
    · rw [step_shutdown_of_not_perm hall]
      exact ⟨s.ledger, rfl, rfl, rfl, rfl⟩
  | ask number => exact absurd rfl (hask number)
  | conclude number => exact ⟨s.ledger, s.calm_conclude number⟩
  | reap number => exact ⟨s.ledger, s.calm_reap number⟩
  | tick => exact absurd rfl htick

theorem interval_step (s : Scheduler τ) (act : Act) : (s.step act).interval = s.interval := by
  cases act with
  | ask number =>
    rcases s.ask_cases number with hask | ⟨_, _, _, hask⟩ | ⟨_, _, _, _, hask⟩ <;>
      exact (congrArg Scheduler.interval hask :)
  | tick =>
    rcases s.tick_cases with htick | ⟨_, htick⟩ <;>
      exact (congrArg Scheduler.interval htick :)
  | _ => exact (calm_step (by simp) (by simp)).choose_spec.interval

theorem timer_step (h : act ≠ .tick) : (s.step act).timer = s.timer := by
  cases act with
  | ask number =>
    rcases s.ask_cases number with hask | ⟨_, _, _, hask⟩ | ⟨_, _, _, _, hask⟩ <;>
      exact (congrArg Scheduler.timer hask :)
  | tick => exact absurd rfl h
  | _ => exact (calm_step (by simp) (by simp)).choose_spec.timer

/-- The task of an entry goes on as it is, unless it acts itself or is stopped. -/
theorem Orderly.tasks_step (h : s.Orderly) (hmem : ⟨id, number⟩ ∈ s.entries)
    (hspared : ¬ Stops id s act) (hask : act ≠ .ask number) (hconclude : act ≠ .conclude number) :
    (s.step act).tasks number = s.tasks number := by
  cases act with
  | operation op => rfl
  | schedule other =>
    unfold Scheduler.step Scheduler.schedule
    dsimp only
    split
    · rfl
    · exact tasks_put_of_ne _ _ (Nat.ne_of_lt (h.lt_spawned hmem))
  | cancel other reason =>
    rw [Scheduler.step, Scheduler.cancel, rollBack_eq]
    exact h.tasks_finish hmem hspared
  | finish other => exact h.tasks_finish hmem hspared
  | shutdown order => rw [step_shutdown_of_not_perm hspared]
  | ask other => exact s.tasks_ask_of_ne fun hsame => hask (by rw [hsame])
  | conclude other => exact s.tasks_conclude_of_ne fun hsame => hconclude (by rw [hsame])
  | reap other =>
    rcases s.reap_cases other with hsame | ⟨task, htask, hhalted, hreap⟩
    · rw [Scheduler.step, hsame]
    · rw [Scheduler.step, hreap]
      refine tasks_put_of_ne _ _ ?_
      rintro rfl
      exact h.not_mem_of_halted htask hhalted hmem
  | tick => rcases s.tick_cases with hsame | ⟨-, htick⟩ <;> simp [Scheduler.step, *]

theorem attempt_ledger (ledger : Ledger τ) (id : TxnId) :
    (attempt ledger id).2 = ledger.after (.keepAlive id) := by
  refine Ledger.after_of_ends (p := ((attempt ledger id).2 = ·))
    (TxnM.ends_map.2 (.of_forall ?_ ?_))
  · intro alive ledger' hkept
    simp [attempt, hkept]
  · intro e ledger' hfailed
    simp [attempt, hfailed]

/-- An attempt is made by the task of an entry; it is a `keepAlive` of the ledger, whose answer the
task keeps. -/
theorem Orderly.attempts_step (h : s.Orderly) (act : Act) :
    (s.step act).attempts = s.attempts ∨ ∃ id number due, act = .ask number ∧
      ⟨id, number⟩ ∈ s.entries ∧ (s.step act).attempts = s.attempts ++ [⟨number, id, s.timer⟩] ∧
      (s.step act).ledger = s.ledger.after (.keepAlive id) ∧
      (s.step act).tasks number = some ⟨id, due, false, some (attempt s.ledger id).1⟩ := by
  cases act with
  | ask number =>
    rcases s.ask_cases number with hask | ⟨_, _, _, hask⟩ | ⟨id, due, htask, -, hask⟩
    · exact .inl (congrArg Scheduler.attempts hask :)
    · exact .inl (congrArg Scheduler.attempts hask :)
    · refine .inr ⟨id, number, some due, rfl, h.mem_of_task htask, ?_, ?_, ?_⟩
      · rw [Scheduler.step, hask]
      · rw [Scheduler.step, hask]
        exact attempt_ledger _ _
      · rw [Scheduler.step, hask]
        exact if_pos rfl
  | tick =>
    rcases s.tick_cases with htick | ⟨_, htick⟩ <;>
      exact .inl (congrArg Scheduler.attempts htick :)
  | _ => exact .inl (calm_step (by simp) (by simp)).choose_spec.attempts

/-- An act that does not end a heartbeat keeps it on time, and adds at most the attempt of this
moment. -/
theorem OnTime.step (h : s.OnTime id number start count) (horderly : s.Orderly)
    (hspared : ¬ Stops id s act) :
    (s.step act).OnTime id number start count ∧
        moments id (s.step act).attempts = moments id s.attempts ∨
      (s.step act).OnTime id number start (count + 1) ∧ moments id (s.step act).attempts =
        moments id s.attempts ++ [start + (count + 1) * s.interval] := by
  obtain ⟨due, answer, htask⟩ := h.exists_task
  have hmem := horderly.mem_of_task htask
  by_cases hask : act = .ask number
  · subst hask
    rcases h.ask with ⟨hbeat, hsame⟩ | ⟨hbeat, hmore⟩
    · exact .inl ⟨hbeat, congrArg (moments id) hsame⟩
    · exact .inr ⟨hbeat, (congrArg (moments id) hmore).trans (moments_append_self _ _)⟩
  have hmoments : moments id (s.step act).attempts = moments id s.attempts := by
    rcases horderly.attempts_step act with hsame | ⟨other, number', _, rfl, hmem', hmore, -⟩
    · rw [hsame]
    · rw [hmore]
      refine moments_append_of_ne ?_ _ _
      rintro rfl
      exact hask (by rw [horderly.entry_unique hmem hmem'])
  refine .inl ⟨?_, hmoments⟩
  by_cases hconclude : act = .conclude number
  · subst hconclude
    exact h.conclude hspared
  have htasks := horderly.tasks_step hmem hspared hask hconclude
  by_cases htick : act = .tick
  · subst htick
    exact h.tick (horderly.lt_spawned hmem)
  exact h.congr (interval_step s act) (timer_step htick) htasks

/-! ## Runs -/

/-- The act `first` started a heartbeat for the transaction, and none since then and before `count`
ended it. -/
def Kept (s : Scheduler τ) (acts : Nat → Act) (id : TxnId) (first count : Nat) : Prop :=
  first < count ∧ Starts id (s.after acts first) (acts first) ∧
    ∀ later, first < later → later < count → ¬ Stops id (s.after acts later) (acts later)

theorem kept_succ {acts : Nat → Act} {first count : Nat} : s.Kept acts id first (count + 1) ↔
    first = count ∧ Starts id (s.after acts count) (acts count) ∨
      s.Kept acts id first count ∧ ¬ Stops id (s.after acts count) (acts count) := by
  constructor
  · rintro ⟨hlt, hstarts, hspared⟩
    rcases Nat.lt_succ_iff_lt_or_eq.1 hlt with hbefore | rfl
    · refine .inr ⟨⟨hbefore, hstarts, fun later hfirst hlater => ?_⟩, ?_⟩
      · exact hspared later hfirst (Nat.lt_succ_of_lt hlater)
      · exact hspared count hbefore (Nat.lt_succ_self count)
    · exact .inl ⟨rfl, hstarts⟩
  · rintro (⟨rfl, hstarts⟩ | ⟨⟨hlt, hstarts, hspared⟩, hlast⟩)
    · refine ⟨Nat.lt_succ_self _, hstarts, fun later hfirst hlater => ?_⟩
      exact absurd hfirst (Nat.not_lt.2 (Nat.le_of_lt_succ hlater))
    · refine ⟨Nat.lt_succ_of_lt hlt, hstarts, fun later hfirst hlater => ?_⟩
      rcases Nat.lt_succ_iff_lt_or_eq.1 hlater with hbefore | rfl
      · exact hspared later hfirst hbefore
      · exact hlast

/-- A transaction is tracked exactly if some heartbeat of it is kept. -/
theorem isTracked_after_new (ledger : Ledger τ) (acts : Nat → Act) (id : TxnId) (count : Nat) :
    ((new ledger).after acts count).isTracked id = true ↔
      ∃ first, (new ledger).Kept acts id first count := by
  induction count with
  | zero =>
    refine ⟨fun h => ?_, fun ⟨first, hlt, _⟩ => absurd hlt (Nat.not_lt_zero first)⟩
    cases h
  | succ count ih =>
    have horderly := (orderly_new ledger).after acts count
    rw [after, horderly.isTracked_step, ih]
    simp only [kept_succ, exists_or, exists_and_right, exists_eq, true_and]

theorem interval_after (s : Scheduler τ) (acts : Nat → Act) (count : Nat) :
    (s.after acts count).interval = s.interval := by
  induction count with
  | zero => rfl
  | succ count ih => exact (interval_step _ _).trans ih

/-- A kept heartbeat makes one attempt at each of its moments. -/
theorem Kept.beats (h : s.Orderly) {acts : Nat → Act} {first count : Nat}
    (hkept : s.Kept acts id first count) :
    ∃ beats, (s.after acts count).OnTime id (s.after acts first).spawned
        (s.after acts first).timer beats ∧
      moments id (s.after acts count).attempts = moments id (s.after acts first).attempts ++
        (List.range beats).map fun beat =>
          (s.after acts first).timer + (beat + 1) * s.interval := by
  obtain ⟨hlt, hstarts, hspared⟩ := hkept
  induction count, hlt using Nat.le_induction with
  | base =>
    obtain ⟨hact, huntracked⟩ := hstarts.schedule
    have hafter : s.after acts (first + 1) = ((s.after acts first).schedule id).2 := by
      rw [after, hact]
      rfl
    rw [hafter]
    refine ⟨0, onTime_schedule huntracked, ?_⟩
    rw [(calm_schedule _ id).attempts, List.range_zero, List.map_nil, List.append_nil]
  | succ count hle ih =>
    obtain ⟨beats, hontime, hmoments⟩ := ih fun later hfirst hlater =>
      hspared later hfirst (Nat.lt_succ_of_lt hlater)
    have hstep := hontime.step (h.after acts count) (hspared count hle (Nat.lt_succ_self count))
    rw [interval_after] at hstep
    rcases hstep with ⟨hontime', hsame⟩ | ⟨hontime', hmore⟩
    · exact ⟨beats, hontime', hsame.trans hmoments⟩
    · refine ⟨beats + 1, hontime', hmore.trans ?_⟩
      rw [hmoments, List.range_succ, List.map_append, List.append_assoc]
      rfl

end

end Mvcc.Scheduler

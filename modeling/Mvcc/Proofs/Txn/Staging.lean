import Mvcc.Proofs.Txn.Upkeep
import Mvcc.Txn.StagedScheduler

/-!
# Calls of a scheduler in steps

A run in steps is matched by a run of whole calls with the same ledger, clock, entries and attempts
by tasks of entries. The matching run finishes the entries that a shutdown drains or a cancellation
announces, and treats late attempts and outstanding rollbacks as operations on the ledger. So
properties of tracked transactions carry over to the states between steps. One clause fails there: a
drained task, or one stopped after reading its flag, may make one more attempt for a transaction
without an entry.
-/

namespace Mvcc

namespace Scheduler

variable {τ : Type} {w t : Scheduler τ} {id : TxnId} {number : Nat}

/-! ## Schedulers with the same entries -/

/-- The schedulers differ only in tasks without an entry, announcements and counts. -/
structure Alike (w t : Scheduler τ) : Prop where
  ledger : t.ledger = w.ledger
  interval : t.interval = w.interval
  timer : t.timer = w.timer
  spawned : t.spawned = w.spawned
  entries : t.entries = w.entries
  attempts : t.attempts = w.attempts
  tasks (entry : Tracked) : entry ∈ w.entries → t.tasks entry.task = w.tasks entry.task

def Entryless (w : Scheduler τ) (number : Nat) : Prop := ∀ entry ∈ w.entries, entry.task ≠ number

theorem alike_refl (w : Scheduler τ) : w.Alike w := ⟨rfl, rfl, rfl, rfl, rfl, rfl, fun _ _ => rfl⟩

theorem Alike.find? (h : w.Alike t) (id : TxnId) : t.find? id = w.find? id :=
  congrArg (List.find? fun entry : Tracked => decide (entry.txn = id)) h.entries

theorem Alike.within (h : w.Alike t) (ledger : Ledger τ) :
    (w.within ledger).Alike (t.within ledger) :=
  { h with ledger := rfl }

theorem Alike.put (h : w.Alike t) (number : Nat) (task : Option BeatTask) :
    (w.put number task).Alike (t.put number task) where
  __ := h
  tasks entry hmem := by
    by_cases hsame : entry.task = number
    · rw [hsame]
      exact (if_pos rfl).trans (if_pos rfl).symm
    · rw [tasks_put_of_ne _ _ hsame, tasks_put_of_ne _ _ hsame]
      exact h.tasks entry hmem

theorem Alike.put_entryless (h : w.Alike t) (hfree : w.Entryless number)
    (task : Option BeatTask) : w.Alike (t.put number task) where
  __ := h
  tasks entry hmem := (tasks_put_of_ne _ _ (hfree entry hmem)).trans (h.tasks entry hmem)

theorem Alike.without (h : w.Alike t) (id : TxnId) : (w.without id).Alike (t.without id) where
  __ := h
  entries := congrArg (List.filter fun entry : Tracked => decide (entry.txn ≠ id)) h.entries
  tasks entry hmem := h.tasks entry (List.mem_filter.1 hmem).1

theorem Alike.untrack (h : w.Alike t) (id : TxnId) (number : Nat) :
    (w.untrack id number).Alike (t.untrack id number) := by
  unfold Scheduler.untrack
  rw [h.find? id]
  split
  · split
    · exact h.without id
    · exact h
  · exact h

theorem Alike.schedule (h : w.Alike t) (id : TxnId) :
    (w.schedule id).2.Alike (t.schedule id).2 := by
  unfold Scheduler.schedule
  rw [h.find? id]
  split
  · exact h
  · have hdue : t.dueAfter t.timer = w.dueAfter w.timer := by
      rw [dueAfter, dueAfter, h.interval, h.timer]
    have hput := h.put w.spawned (some ⟨id, w.dueAfter w.timer, false, none⟩)
    dsimp only
    rw [hdue, h.spawned, h.entries]
    refine { hput with spawned := rfl, entries := rfl, tasks := fun entry hmem => ?_ }
    rcases List.mem_append.1 hmem with hold | hnew
    · exact hput.tasks entry hold
    · cases List.mem_singleton.1 hnew
      exact (if_pos rfl).trans (if_pos rfl).symm

theorem Alike.finish (h : w.Alike t) (id : TxnId) : (w.finish id).Alike (t.finish id) := by
  unfold Scheduler.finish
  rw [h.find? id]
  split
  · rename_i entry hentry
    have htask := h.tasks entry (mem_of_find? hentry)
    have hput := (h.without id).put entry.task ((w.tasks entry.task).map BeatTask.stopped)
    show ((w.without id).put entry.task ((w.tasks entry.task).map BeatTask.stopped)).Alike
      ((t.without id).put entry.task ((t.tasks entry.task).map BeatTask.stopped))
    rwa [htask]
  · exact h

theorem Alike.announce (h : w.Alike t) (signal : CancelSignal) :
    (w.finish signal.txn).Alike (t.announce signal) :=
  { h.finish signal.txn with }

theorem Alike.conclude (h : w.Alike t) (hmem : ⟨id, number⟩ ∈ w.entries) :
    (w.conclude number).Alike (t.conclude number) := by
  have htask : t.tasks number = w.tasks number := h.tasks _ hmem
  unfold Scheduler.conclude
  rw [htask, h.interval]
  rcases w.tasks number with _ | ⟨txn, due, halted, _ | _ | alive⟩
  · exact h
  · exact h
  · exact { h.put _ _ with }
  · cases alive with
    | true => exact h.put _ _
    | false => exact (h.untrack _ _).put _ _

theorem Alike.conclude_entryless (h : w.Alike t) (hfree : w.Entryless number) :
    w.Alike (t.conclude number) := by
  rcases t.conclude_cases number with
    ⟨-, hsame⟩ | ⟨id, due, halted, answer, -, ⟨-, hover⟩ | ⟨-, failures, hgoing⟩⟩
  · rwa [hsame]
  · have huntrack : t.untrack id number = t := by
      unfold Scheduler.untrack
      split
      · rename_i entry hentry
        exact if_neg (hfree entry (h.entries ▸ mem_of_find? hentry))
      · rfl
    rw [hover, huntrack]
    exact h.put_entryless hfree none
  · rw [hgoing]
    exact { h.put_entryless hfree _ with }

theorem Orderly.entryless_of_halted (h : w.Orderly) (halike : w.Alike t) {task : BeatTask}
    (htask : t.tasks number = some task) (hhalted : task.halted = true) : w.Entryless number := by
  rintro ⟨id, own⟩ hmem rfl
  exact h.not_mem_of_halted ((halike.tasks _ hmem).symm.trans htask) hhalted hmem

theorem Alike.reap (halike : w.Alike t) (h : w.Orderly) (number : Nat) :
    w.Alike (t.reap number) := by
  rcases t.reap_cases number with hsame | ⟨task, htask, hhalted, hreap⟩
  · rwa [hsame]
  · rw [hreap]
    exact halike.put_entryless (h.entryless_of_halted halike htask hhalted) none

theorem Alike.isIdle (halike : w.Alike t) (h : w.Orderly) (hidle : t.isIdle = true) :
    w.isIdle = true := by
  refine List.all_eq_true.2 fun number hnumber => ?_
  cases htask : w.tasks number with
  | none => rfl
  | some task =>
    cases hhalted : task.halted with
    | true => simp [hhalted]
    | false =>
      have hmem := (h.owned task.txn number).2 ⟨task, htask, rfl, hhalted⟩
      have hsame := (halike.tasks _ hmem).trans htask
      have hall := List.all_eq_true.1 hidle number (halike.spawned ▸ hnumber)
      rwa [hsame, halike.timer] at hall

theorem Alike.tick (halike : w.Alike t) (h : w.Orderly) (hidle : t.isIdle = true) :
    w.tick.Alike t.tick := by
  rw [Scheduler.tick, Scheduler.tick, if_pos hidle, if_pos (halike.isIdle h hidle), halike.timer]
  exact { halike with timer := rfl }

theorem Orderly.ask_eq (h : w.Orderly) {txn : TxnId} (hmem : ⟨txn, number⟩ ∈ w.entries) {due : Nat}
    {halted : Bool} (htask : w.tasks number = some ⟨id, some due, halted, none⟩)
    (hdue : due ≤ w.timer) : w.ask number = { (w.within (attempt w.ledger id).2).put number
      (some ⟨id, some due, halted, some (attempt w.ledger id).1⟩) with
      attempts := w.attempts ++ [⟨number, id, w.timer⟩] } := by
  cases halted with
  | true => exact absurd hmem (h.not_mem_of_halted htask rfl)
  | false => simp [Scheduler.ask, htask, Nat.not_lt.2 hdue]

theorem spawned_finish (w : Scheduler τ) (id : TxnId) : (w.finish id).spawned = w.spawned := by
  unfold finish
  split <;> rfl

theorem spawned_conclude (w : Scheduler τ) (number : Nat) :
    (w.conclude number).spawned = w.spawned := by
  unfold conclude untrack
  repeat' split
  all_goals rfl

section

variable [TimestampSource τ]

theorem entries_run_finish (w : Scheduler τ) (ids : List TxnId) :
    (w.run (ids.map .finish)).entries = w.entries.filter (·.txn ∉ ids) := by
  induction ids generalizing w with
  | nil => simp [run]
  | cons id ids ih =>
    have hrest := ih (w.finish id)
    rw [entries_finish, List.filter_filter] at hrest
    rw [List.map_cons, run, List.foldl_cons]
    refine hrest.trans (List.filter_congr fun entry _ => ?_)
    simp [Bool.and_comm]

theorem calm_run_finish (w : Scheduler τ) (ids : List TxnId) :
    w.Calm (w.run (ids.map .finish)) ∧ (w.run (ids.map .finish)).spawned = w.spawned := by
  induction ids generalizing w with
  | nil => exact ⟨⟨rfl, rfl, rfl, rfl⟩, rfl⟩
  | cons id ids ih =>
    have hfinish := w.calm_finish id
    obtain ⟨hcalm, hrest⟩ := ih (w.finish id)
    exact ⟨⟨hcalm.interval.trans hfinish.interval, hcalm.timer.trans hfinish.timer,
      hcalm.attempts.trans hfinish.attempts, hcalm.ledger.trans hfinish.ledger⟩,
      hrest.trans (spawned_finish w id)⟩

theorem Orderly.run (h : w.Orderly) (acts : List Act) : (w.run acts).Orderly := by
  induction acts generalizing w with
  | nil => exact h
  | cons act acts ih => exact ih (h.step act)

end

end Scheduler

namespace StagedScheduler

open Scheduler

variable {τ : Type} {w : Scheduler τ} {s s' : StagedScheduler τ} {id : TxnId} {number : Nat}

/-! ## Steps -/

inductive Piece where
  | operation (op : Ledger.Operation)
  | schedule (id : TxnId)
  | finish (id : TxnId)
  | announce (id : TxnId) (reason : String)
  | drain (order : List Tracked)
  | stop (entry : Tracked)
  | rollBack (id : TxnId)
  | clear (number : Nat)
  | ask (number : Nat)
  | conclude (number : Nat)
  | reap (number : Nat)
  | tick

section

variable [TimestampSource τ]

def step (s : StagedScheduler τ) : Piece → StagedScheduler τ
  | .operation op => { s with scheduler := s.scheduler.step (.operation op) }
  | .schedule id => { s with scheduler := s.scheduler.step (.schedule id) }
  | .finish id => { s with scheduler := s.scheduler.step (.finish id) }
  | .announce id reason => s.announce id reason
  | .drain order => if order.isPerm s.scheduler.entries then s.drain order else s
  | .stop entry => s.stop entry
  | .rollBack id => s.rollBack id
  | .clear number => s.clear number
  | .ask number => s.ask number
  | .conclude number => { s with scheduler := s.scheduler.step (.conclude number) }
  | .reap number => { s with scheduler := s.scheduler.step (.reap number) }
  | .tick => { s with scheduler := s.scheduler.step .tick }

def run (s : StagedScheduler τ) (pieces : List Piece) : StagedScheduler τ := pieces.foldl step s

end

/-! ## Uninterrupted calls -/

section

variable [TimestampSource τ] (t : Scheduler τ) (late : List Attempt)

theorem run_cancel (id : TxnId) (reason : String) :
    (⟨t, [], [], [], late⟩ : StagedScheduler τ).run [.announce id reason, .rollBack id] =
      ⟨t.cancel id reason, [], [], [], late⟩ := by
  simp [run, step, announce, rollBack, Scheduler.cancel]

theorem run_shutdown {order : List Tracked} (hall : order.Perm t.entries) :
    (⟨t, [], [], [], late⟩ : StagedScheduler τ).run
        (.drain order :: order.flatMap fun entry => [.stop entry, .rollBack entry.txn]) =
      ⟨t.shutdown order, [], [], [], late⟩ := by
  have hdrain : (⟨t, [], [], [], late⟩ : StagedScheduler τ).step (.drain order) =
      ⟨{ t with entries := [] }, order, [], [], late⟩ := by
    rw [step, if_pos (List.isPerm_iff.2 hall)]
    rfl
  rw [run, List.foldl_cons, hdrain, shutdown]
  generalize { t with entries := [] } = drained
  clear hall hdrain
  induction order generalizing drained with
  | nil => rfl
  | cons entry order ih =>
    have hstop : (⟨drained, entry :: order, [], [], late⟩ : StagedScheduler τ).step (.stop entry) =
        ⟨drained.halt entry.task, order, [entry.txn], [], late⟩ := by
      simp [step, stop]
    have hrolled : (⟨drained.halt entry.task, order, [entry.txn], [], late⟩ :
        StagedScheduler τ).step (.rollBack entry.txn) =
          ⟨(drained.halt entry.task).rollBack entry.txn, order, [], [], late⟩ := by
      simp [step, rollBack]
    rw [List.flatMap_cons, List.foldl_append, List.foldl_cons, List.foldl_cons, hstop, hrolled]
    exact ih _

theorem run_ask (h : t.Orderly) (number : Nat) :
    (⟨t, [], [], [], late⟩ : StagedScheduler τ).run [.clear number, .ask number] =
      ⟨t.ask number, [], [], [], late⟩ := by
  simp only [run, List.foldl_cons, List.foldl_nil, step, clear, Scheduler.ask]
  cases htask : t.tasks number with
  | none => simp [ask]
  | some task =>
    obtain ⟨id, _ | due, halted, _ | answer⟩ := task
    · simp [ask]
    · simp [ask]
    · by_cases hearly : t.timer < due
      · simp [ask, hearly]
      · cases halted with
        | true => simp [ask, hearly]
        | false =>
          have hentry : t.entries.any (·.task = number) = true :=
            List.any_eq_true.2 ⟨_, h.mem_of_task htask, by simp⟩
          simp [ask, hearly, htask, hentry]
    · simp [ask]

end

/-! ## Runs in steps and runs of whole calls -/

/-- A run of whole calls leads to the same entries. A drained entry's task has no entry, and a task
that has read its stop flag is due and without an answer. -/
structure Matches (s : StagedScheduler τ) (w : Scheduler τ) : Prop where
  orderly : w.Orderly
  alike : w.Alike s.scheduler
  unspawned (number : Nat) (h : w.spawned ≤ number) : s.scheduler.tasks number = none
  drained (entry : Tracked) (h : entry ∈ s.drained) :
    entry.task < w.spawned ∧ w.Entryless entry.task
  cleared (number : Nat) (h : number ∈ s.cleared) : number < w.spawned ∧
    ∀ task, s.scheduler.tasks number = some task →
      task.answer = none ∧ ∃ due, task.due = some due ∧ due ≤ w.timer

theorem matches_new (ledger : Ledger τ) : (new ledger).Matches (.new ledger) where
  orderly := orderly_new ledger
  alike := alike_refl _
  unspawned _ _ := rfl
  drained _ h := nomatch h
  cleared _ h := nomatch h

/-- The task is unchanged, over or stopped. -/
def SameDuty (t t' : Scheduler τ) (number : Nat) : Prop :=
  ∀ task', t'.tasks number = some task' →
    ∃ task, t.tasks number = some task ∧ task'.due = task.due ∧ task'.answer = task.answer

theorem sameDuty_of_eq {t t' : Scheduler τ} (h : t'.tasks number = t.tasks number) :
    SameDuty t t' number := fun task' htask => ⟨task', h.symm.trans htask, rfl, rfl⟩

theorem sameDuty_put_none (t : Scheduler τ) (number other : Nat) :
    SameDuty t (t.put other none) number := by
  intro task' htask
  by_cases hsame : number = other
  · cases (if_pos hsame).symm.trans htask
  · exact ⟨task', (tasks_put_of_ne t none hsame).symm.trans htask, rfl, rfl⟩

theorem sameDuty_halt (t : Scheduler τ) (number other : Nat) :
    SameDuty t (t.halt other) number := by
  intro task' htask
  by_cases hsame : number = other
  · have hstopped : (t.tasks other).map BeatTask.stopped = some task' :=
      (if_pos hsame).symm.trans htask
    obtain ⟨task, hold, rfl⟩ := Option.map_eq_some_iff.1 hstopped
    exact ⟨task, hsame ▸ hold, rfl, rfl⟩
  · exact ⟨task', (tasks_put_of_ne t _ hsame).symm.trans htask, rfl, rfl⟩

theorem sameDuty_finish (t : Scheduler τ) (number : Nat) (id : TxnId) :
    SameDuty t (t.finish id) number := by
  unfold Scheduler.finish
  split
  · exact sameDuty_halt (t.without id) number _
  · exact sameDuty_of_eq rfl

theorem sameDuty_reap (t : Scheduler τ) (number other : Nat) :
    SameDuty t (t.reap other) number := by
  rcases t.reap_cases other with hsame | ⟨_, _, _, hreap⟩
  · exact sameDuty_of_eq (by rw [hsame])
  · rw [hreap]
    exact sameDuty_put_none t number other

theorem sameDuty_conclude {t : Scheduler τ} {other : Nat}
    (h : ∀ task, t.tasks number = some task → task.answer = none) :
    SameDuty t (t.conclude other) number := by
  by_cases hsame : number = other
  · subst hsame
    rcases t.conclude_cases number with ⟨-, hnone⟩ | ⟨_, _, _, _, htask, -⟩
    · exact sameDuty_of_eq (by rw [hnone])
    · cases h _ htask
  · exact sameDuty_of_eq (t.tasks_conclude_of_ne hsame)

theorem Matches.of_less (h : s.Matches w) {w' : Scheduler τ} (horderly : w'.Orderly)
    (halike : w'.Alike s'.scheduler) (hentries : w'.entries ⊆ w.entries)
    (hspawned : w'.spawned = w.spawned) (htimer : w.timer ≤ w'.timer)
    (hdrained : s'.drained ⊆ s.drained) (hcleared : s'.cleared ⊆ s.cleared)
    (hduty : ∀ number, s.scheduler.tasks number = none ∨ number ∈ s'.cleared →
      SameDuty s.scheduler s'.scheduler number) : s'.Matches w' where
  orderly := horderly
  alike := halike
  unspawned number hle := by
    have hnone := h.unspawned number (hspawned ▸ hle)
    refine Option.eq_none_iff_forall_ne_some.2 fun task' htask' => ?_
    obtain ⟨task, htask, -⟩ := hduty number (.inl hnone) task' htask'
    cases hnone.symm.trans htask
  drained entry hentry := by
    obtain ⟨hlt, hfree⟩ := h.drained entry (hdrained hentry)
    exact ⟨hspawned ▸ hlt, fun own hown => hfree own (hentries hown)⟩
  cleared number hnumber := by
    obtain ⟨hlt, hasks⟩ := h.cleared number (hcleared hnumber)
    refine ⟨hspawned ▸ hlt, fun task' htask' => ?_⟩
    obtain ⟨task, htask, hdue, hanswer⟩ := hduty number (.inr hnumber) task' htask'
    obtain ⟨hnone, due, hsome, hle⟩ := hasks task htask
    exact ⟨hanswer.trans hnone, due, hdue.trans hsome, Nat.le_trans hle htimer⟩

theorem Matches.of_unseen (h : s.Matches w) (halike : w.Alike s'.scheduler)
    (hdrained : s'.drained ⊆ s.drained) (hcleared : s'.cleared ⊆ s.cleared)
    (hduty : ∀ number, s.scheduler.tasks number = none ∨ number ∈ s'.cleared →
      SameDuty s.scheduler s'.scheduler number) : s'.Matches w :=
  h.of_less h.orderly halike (List.Subset.refl _) rfl (Nat.le_refl _) hdrained hcleared hduty

theorem Matches.lt_spawned (h : s.Matches w) {task : BeatTask}
    (htask : s.scheduler.tasks number = some task) : number < w.spawned := by
  refine Nat.lt_of_not_le fun hle => ?_
  cases (h.unspawned number hle).symm.trans htask

theorem Matches.entryless_of_not_any (h : s.Matches w)
    (hnone : ¬ s.scheduler.entries.any (·.task = number) = true) : w.Entryless number := by
  intro entry hentry hsame
  refine hnone (List.any_eq_true.2 ⟨entry, ?_, decide_eq_true hsame⟩)
  rw [h.alike.entries]
  exact hentry

/-! ### Steps of calls -/

section

variable [TimestampSource τ]

theorem Matches.operation (h : s.Matches w) (op : Ledger.Operation) :
    (s.step (.operation op)).Matches (w.step (.operation op)) := by
  have halike := h.alike.within (w.ledger.after op)
  refine h.of_less (h.orderly.step _) ?_ (List.Subset.refl _) rfl (Nat.le_refl _)
    (List.Subset.refl _) (List.Subset.refl _) fun _ _ => sameDuty_of_eq rfl
  show (w.within (w.ledger.after op)).Alike (s.scheduler.within (s.scheduler.ledger.after op))
  rwa [h.alike.ledger]

theorem Matches.schedule (h : s.Matches w) (id : TxnId) :
    (s.step (.schedule id)).Matches (w.step (.schedule id)) := by
  have halike := h.alike.schedule id
  have horderly := h.orderly.schedule id
  simp only [step, Scheduler.step]
  cases hentry : w.find? id with
  | some entry =>
    have hsame : (w.schedule id).2 = w := by simp [Scheduler.schedule, hentry]
    have hsame' : (s.scheduler.schedule id).2 = s.scheduler := by
      simp [Scheduler.schedule, h.alike.find? id, hentry]
    rwa [hsame, hsame']
  | none =>
    have hspawned : (w.schedule id).2.spawned = w.spawned + 1 := by
      simp [Scheduler.schedule, hentry]
    have hentries : (w.schedule id).2.entries = w.entries ++ [⟨id, w.spawned⟩] := by
      simp [Scheduler.schedule, hentry]
    have htimer : (w.schedule id).2.timer = w.timer := (w.calm_schedule id).timer
    have htasks (number : Nat) (hne : number ≠ w.spawned) :
        (s.scheduler.schedule id).2.tasks number = s.scheduler.tasks number := by
      simp [Scheduler.schedule, h.alike.find? id, hentry, Scheduler.put, h.alike.spawned, hne]
    refine ⟨horderly, halike, fun number hle => ?_, fun entry hmem => ?_, fun number hnumber => ?_⟩
    · rw [hspawned] at hle
      rw [htasks number (by omega)]
      exact h.unspawned number (by omega)
    · obtain ⟨hlt, hfree⟩ := h.drained entry hmem
      rw [hspawned]
      refine ⟨Nat.lt_succ_of_lt hlt, fun own hown => ?_⟩
      rw [hentries] at hown
      rcases List.mem_append.1 hown with hold | hnew
      · exact hfree own hold
      · cases List.mem_singleton.1 hnew
        exact Nat.ne_of_gt hlt
    · obtain ⟨hlt, hasks⟩ := h.cleared number hnumber
      rw [hspawned, htimer]
      refine ⟨Nat.lt_succ_of_lt hlt, fun task htask => hasks task ?_⟩
      rwa [← htasks number (Nat.ne_of_lt hlt)]

theorem Matches.finish (h : s.Matches w) {id : TxnId} (halike : (w.finish id).Alike s'.scheduler)
    (hdrained : s'.drained = s.drained) (hcleared : s'.cleared = s.cleared)
    (htasks : s'.scheduler.tasks = (s.scheduler.finish id).tasks) :
    s'.Matches (w.step (.finish id)) := by
  have hentries : (w.finish id).entries ⊆ w.entries := by
    rw [entries_finish]
    exact List.filter_subset_self _
  refine h.of_less (h.orderly.finish id) halike hentries (spawned_finish w id)
    (Nat.le_of_eq (w.calm_finish id).timer.symm) (hdrained ▸ List.Subset.refl _)
    (hcleared ▸ List.Subset.refl _) fun number _ task htask => ?_
  rw [htasks] at htask
  exact sameDuty_finish s.scheduler number id task htask

theorem Matches.drain (h : s.Matches w) {order : List Tracked}
    (hall : order.Perm s.scheduler.entries) :
    (s.drain order).Matches (w.run ((w.entries.map (·.txn)).map .finish)) := by
  obtain ⟨hcalm, hspawned⟩ := w.calm_run_finish (w.entries.map (·.txn))
  have hentries : (w.run ((w.entries.map (·.txn)).map .finish)).entries = [] := by
    rw [entries_run_finish, List.filter_eq_nil_iff]
    intro entry hentry
    simpa using ⟨entry, hentry, rfl⟩
  have horderly := h.orderly.run ((w.entries.map (·.txn)).map .finish)
  generalize w.run ((w.entries.map (·.txn)).map .finish) = w' at *
  have hfree (number : Nat) : w'.Entryless number := by
    intro entry hentry
    rw [hentries] at hentry
    cases hentry
  have halike : w'.Alike (s.drain order).scheduler := by
    refine ⟨h.alike.ledger.trans hcalm.ledger.symm, h.alike.interval.trans hcalm.interval.symm,
      h.alike.timer.trans hcalm.timer.symm, h.alike.spawned.trans hspawned.symm, hentries.symm,
      h.alike.attempts.trans hcalm.attempts.symm, fun entry hentry => ?_⟩
    exact absurd rfl (hfree entry.task entry hentry)
  refine ⟨horderly, halike, fun number hle => ?_, fun entry hentry => ?_, fun number hnumber => ?_⟩
  · exact h.unspawned number (hspawned ▸ hle)
  · refine ⟨?_, hfree entry.task⟩
    rw [hspawned]
    rcases List.mem_append.1 hentry with hold | hnew
    · exact (h.drained entry hold).1
    · have hmem := hall.mem_iff.1 hnew
      rw [h.alike.entries] at hmem
      exact h.orderly.lt_spawned hmem
  · rw [hspawned, hcalm.timer]
    exact h.cleared number hnumber

omit [TimestampSource τ] in
theorem Matches.stop (h : s.Matches w) (entry : Tracked) : (s.stop entry).Matches w := by
  unfold StagedScheduler.stop
  split
  · rename_i hentry
    exact h.of_unseen (h.alike.put_entryless (h.drained entry hentry).2 _) List.erase_subset
      (List.Subset.refl _) fun number _ => sameDuty_halt s.scheduler number entry.task
  · exact h

theorem Matches.rollBack (h : s.Matches w) (id : TxnId) :
    ∃ acts, (s.rollBack id).Matches (w.run acts) := by
  unfold StagedScheduler.rollBack
  split
  · have hoperation := h.operation (.rollback id)
    refine ⟨[.operation (.rollback id)], ?_⟩
    rw [rollBack_eq]
    exact ⟨hoperation.orderly, hoperation.alike, hoperation.unspawned, hoperation.drained,
      hoperation.cleared⟩
  · exact ⟨[], h⟩

/-! ### Steps of tasks -/

omit [TimestampSource τ] in
theorem Matches.clear (h : s.Matches w) (number : Nat) : (s.clear number).Matches w := by
  unfold StagedScheduler.clear
  split
  · rename_i id due halted htask
    split
    · exact h
    · rename_i hready
      simp only [not_or, Nat.not_lt] at hready
      cases halted with
      | true =>
        have hfree := h.orderly.entryless_of_halted h.alike htask rfl
        exact h.of_unseen (h.alike.put_entryless hfree none) (List.Subset.refl _)
          (List.Subset.refl _) fun other _ => sameDuty_put_none s.scheduler other number
      | false =>
        refine { h with cleared := fun other hother => ?_ }
        rcases List.mem_cons.1 hother with rfl | hold
        · refine ⟨h.lt_spawned htask, fun task hsame => ?_⟩
          cases htask.symm.trans hsame
          exact ⟨rfl, due, rfl, h.alike.timer ▸ hready.1⟩
        · exact h.cleared other hold
  · exact h

/-- The attempt is that of a whole call if the task has an entry, and a foreign operation otherwise.
-/
theorem Matches.ask (h : s.Matches w) (number : Nat) :
    ∃ acts, (s.ask number).Matches (w.run acts) := by
  unfold StagedScheduler.ask
  split
  case isFalse => exact ⟨[], h⟩
  rename_i hnumber
  have hsubset : s.cleared.filter (· ≠ number) ⊆ s.cleared := List.filter_subset_self _
  obtain ⟨-, hready⟩ := h.cleared number hnumber
  cases htask : s.scheduler.tasks number with
  | none =>
    exact ⟨[], h.of_unseen h.alike (List.Subset.refl _) hsubset fun _ _ => sameDuty_of_eq rfl⟩
  | some task =>
    obtain ⟨hanswer, due, hdue, hle⟩ := hready task htask
    obtain ⟨id, _, halted, _⟩ := task
    cases hdue
    cases hanswer
    have hduty (task' : Option BeatTask) (ledger : Ledger τ) (other : Nat)
        (hother : s.scheduler.tasks other = none ∨ other ∈ s.cleared.filter (· ≠ number)) :
        SameDuty s.scheduler ((s.scheduler.within ledger).put number task') other := by
      refine sameDuty_of_eq (tasks_put_of_ne _ _ ?_)
      rintro rfl
      rcases hother with hnone | hmem
      · cases hnone.symm.trans htask
      · simp at hmem
    dsimp only
    rw [h.alike.ledger, h.alike.timer]
    split
    · rename_i hentry
      obtain ⟨⟨txn, own⟩, hmem, hsame⟩ := List.any_eq_true.1 hentry
      cases (of_decide_eq_true hsame : own = number)
      rw [h.alike.entries] at hmem
      have hask := h.orderly.ask_eq hmem ((h.alike.tasks _ hmem).symm.trans htask) hle
      have halike : (w.ask number).Alike { (s.scheduler.within (attempt w.ledger id).2).put number
          (some ⟨id, some due, halted, some (attempt w.ledger id).1⟩) with
          attempts := s.scheduler.attempts ++ [⟨number, id, w.timer⟩] } := by
        rw [hask, h.alike.attempts]
        exact { (h.alike.within (attempt w.ledger id).2).put number _ with attempts := rfl }
      have hspawned : (w.ask number).spawned = w.spawned := by rw [hask]; rfl
      have htimer : (w.ask number).timer = w.timer := by rw [hask]; rfl
      exact ⟨[.ask number], h.of_less (h.orderly.ask number) halike
        (entries_ask w number ▸ List.Subset.refl _) hspawned (Nat.le_of_eq htimer.symm)
        (List.Subset.refl _) hsubset (hduty _ _)⟩
    · rename_i hentry
      have hfree := h.entryless_of_not_any hentry
      have halike := (h.alike.within (attempt w.ledger id).2).put_entryless hfree
        (some ⟨id, some due, halted, some (attempt w.ledger id).1⟩)
      rw [attempt_ledger] at halike ⊢
      have horderly : (w.within (w.ledger.after (.keepAlive id))).Orderly :=
        h.orderly.step (.operation (.keepAlive id))
      exact ⟨[.operation (.keepAlive id)], h.of_less horderly halike (List.Subset.refl _) rfl
        (Nat.le_refl _) (List.Subset.refl _) hsubset (hduty _ _)⟩

theorem Matches.conclude (h : s.Matches w) (number : Nat) :
    ∃ acts, (s.step (.conclude number)).Matches (w.run acts) := by
  have hduty (other : Nat) (hother : s.scheduler.tasks other = none ∨ other ∈ s.cleared) :
      SameDuty s.scheduler (s.scheduler.conclude number) other := by
    refine sameDuty_conclude fun task htask => ?_
    rcases hother with hnone | hcleared
    · cases hnone.symm.trans htask
    · exact ((h.cleared other hcleared).2 task htask).1
  by_cases hfree : w.Entryless number
  · exact ⟨[], h.of_unseen (h.alike.conclude_entryless hfree) (List.Subset.refl _)
      (List.Subset.refl _) hduty⟩
  · simp only [Entryless, ne_eq, not_forall, not_not] at hfree
    obtain ⟨⟨id, own⟩, hmem, rfl⟩ := hfree
    refine ⟨[.conclude own], h.of_less (h.orderly.conclude own) (h.alike.conclude hmem) ?_
      (spawned_conclude w own) (Nat.le_of_eq (w.calm_conclude own).timer.symm)
      (List.Subset.refl _) (List.Subset.refl _) hduty⟩
    rintro ⟨txn, task⟩ hentry
    exact (h.orderly.mem_conclude.1 hentry).1

omit [TimestampSource τ] in
theorem Matches.reap (h : s.Matches w) (number : Nat) :
    ({ s with scheduler := s.scheduler.reap number } : StagedScheduler τ).Matches w :=
  h.of_unseen (h.alike.reap h.orderly number) (List.Subset.refl _) (List.Subset.refl _)
    fun other _ => sameDuty_reap s.scheduler other number

theorem Matches.tick (h : s.Matches w) : ∃ acts, (s.step .tick).Matches (w.run acts) := by
  rcases s.scheduler.tick_cases with hsame | ⟨hidle, htick⟩
  · refine ⟨[], ?_⟩
    rw [StagedScheduler.step, Scheduler.step, hsame]
    exact h
  · have hwhole : w.tick = { w with timer := w.timer + 1 } :=
      if_pos (h.alike.isIdle h.orderly hidle)
    have hmatches : { w with timer := w.timer + 1 }.Orderly := hwhole ▸ h.orderly.tick
    have halike := hwhole ▸ h.alike.tick h.orderly hidle
    have htasks : (s.scheduler.tick).tasks = s.scheduler.tasks := by rw [htick]
    have hrun : w.run [.tick] = { w with timer := w.timer + 1 } := hwhole
    refine ⟨[.tick], ?_⟩
    rw [hrun]
    exact h.of_less hmatches halike (List.Subset.refl _) rfl (Nat.le_succ w.timer)
      (List.Subset.refl _) (List.Subset.refl _)
      fun number _ => sameDuty_of_eq (congrFun htasks number)

/-! ### Runs -/

theorem Matches.step (h : s.Matches w) (piece : Piece) :
    ∃ acts, (s.step piece).Matches (w.run acts) := by
  cases piece with
  | operation op => exact ⟨[.operation op], h.operation op⟩
  | schedule id => exact ⟨[.schedule id], h.schedule id⟩
  | finish id =>
    have hstep : (s.step (.finish id)).Matches (w.step (.finish id)) :=
      h.finish (h.alike.finish id) rfl rfl rfl
    exact ⟨[.finish id], hstep⟩
  | announce id reason => exact ⟨[.finish id], h.finish (h.alike.announce ⟨id, reason⟩) rfl rfl rfl⟩
  | drain order =>
    by_cases hall : order.Perm s.scheduler.entries
    · rw [StagedScheduler.step, if_pos (List.isPerm_iff.2 hall)]
      exact ⟨_, h.drain hall⟩
    · rw [StagedScheduler.step, if_neg fun hperm => hall (List.isPerm_iff.1 hperm)]
      exact ⟨[], h⟩
  | stop entry => exact ⟨[], h.stop entry⟩
  | rollBack id => exact h.rollBack id
  | clear number => exact ⟨[], h.clear number⟩
  | ask number => exact h.ask number
  | conclude number => exact h.conclude number
  | reap number => exact ⟨[], h.reap number⟩
  | tick => exact h.tick

theorem Matches.run (h : s.Matches w) (pieces : List Piece) :
    ∃ acts, (s.run pieces).Matches (w.run acts) := by
  induction pieces generalizing s w with
  | nil => exact ⟨[], h⟩
  | cons piece pieces ih =>
    obtain ⟨acts, hstep⟩ := h.step piece
    obtain ⟨later, hrun⟩ := ih hstep
    exact ⟨acts ++ later, by rwa [run_append]⟩

/-! ## Between the steps of calls -/

omit [TimestampSource τ] in
theorem clear_cases (s : StagedScheduler τ) (number : Nat) :
    (∃ scheduler, s.clear number = { s with scheduler }) ∨
      ∃ id due, s.scheduler.tasks number = some ⟨id, some due, false, none⟩ ∧
        due ≤ s.scheduler.timer ∧ s.clear number = { s with cleared := number :: s.cleared } := by
  unfold clear
  split
  · rename_i id due halted htask
    split
    · exact .inl ⟨s.scheduler, rfl⟩
    · rename_i hready
      cases halted with
      | true => exact .inl ⟨_, rfl⟩
      | false => exact .inr ⟨id, due, htask, Nat.not_lt.1 fun hlt => hready (.inl hlt), rfl⟩
  · exact .inl ⟨s.scheduler, rfl⟩

omit [TimestampSource τ] in
theorem ask_cases (s : StagedScheduler τ) (number : Nat) :
    number ∉ s.cleared ∧ s.ask number = s ∨
      number ∈ s.cleared ∧ ∃ scheduler late,
        s.ask number = { s with
          scheduler, cleared := s.cleared.filter (· ≠ number), late } ∧
        (late = s.late ∨ ∃ id, (∀ entry ∈ s.scheduler.entries, entry.task ≠ number) ∧
          late = s.late ++ [⟨number, id, s.scheduler.timer⟩]) := by
  unfold ask
  split
  · rename_i hcleared
    refine .inr ⟨hcleared, ?_⟩
    split
    · rename_i id due halted htask
      dsimp only
      split
      · exact ⟨_, _, rfl, .inl rfl⟩
      · rename_i hnone
        refine ⟨_, _, rfl, .inr ⟨id, fun entry hentry hsame => hnone ?_, rfl⟩⟩
        exact List.any_eq_true.2 ⟨entry, hentry, decide_eq_true hsame⟩
    · exact ⟨_, _, rfl, .inl rfl⟩
  · rename_i hcleared
    exact .inl ⟨hcleared, rfl⟩

omit [TimestampSource τ] in
theorem pending_clear (s : StagedScheduler τ) (number : Nat) :
    (s.clear number).drained = s.drained ∧ (s.clear number).owed = s.owed := by
  rcases s.clear_cases number with ⟨_, hclear⟩ | ⟨_, _, _, _, hclear⟩
  · rw [hclear]
    exact ⟨rfl, rfl⟩
  · rw [hclear]
    exact ⟨rfl, rfl⟩

omit [TimestampSource τ] in
theorem pending_ask (s : StagedScheduler τ) (number : Nat) :
    (s.ask number).drained = s.drained ∧ (s.ask number).owed = s.owed := by
  rcases s.ask_cases number with ⟨-, hask⟩ | ⟨-, _, _, hask, -⟩
  · rw [hask]
    exact ⟨rfl, rfl⟩
  · rw [hask]
    exact ⟨rfl, rfl⟩

theorem step_cases (s : StagedScheduler τ) (piece : Piece) :
    (∃ number, piece = .clear number) ∨ (∃ number, piece = .ask number) ∨
      (∀ number, piece ≠ .ask number) ∧ (s.step piece).cleared = s.cleared ∧
        (s.step piece).late = s.late := by
  cases piece with
  | clear number => exact .inl ⟨number, rfl⟩
  | ask number => exact .inr (.inl ⟨number, rfl⟩)
  | drain order =>
    simp only [step]
    split <;> exact .inr (.inr ⟨nofun, rfl, rfl⟩)
  | stop entry =>
    simp only [step, stop]
    split <;> exact .inr (.inr ⟨nofun, rfl, rfl⟩)
  | rollBack id =>
    simp only [step, rollBack]
    split <;> exact .inr (.inr ⟨nofun, rfl, rfl⟩)
  | _ => exact .inr (.inr ⟨nofun, rfl, rfl⟩)

/-- A stopped task calls `keepAlive` only if it read its flag before, and once for every time it
read it. -/
theorem cleared_step {piece : Piece} (h : number ∈ (s.step piece).cleared) :
    number ∈ s.cleared ∧ piece ≠ .ask number ∨ piece = .clear number ∧
      ∃ id due, s.scheduler.tasks number = some ⟨id, some due, false, none⟩ ∧
        due ≤ s.scheduler.timer := by
  rcases s.step_cases piece with ⟨other, rfl⟩ | ⟨other, rfl⟩ | ⟨hask, hcleared, -⟩
  · rcases s.clear_cases other with ⟨scheduler, hclear⟩ | ⟨id, due, htask, hdue, hclear⟩
    · rw [step, hclear] at h
      exact .inl ⟨h, by simp⟩
    · rw [step, hclear] at h
      rcases List.mem_cons.1 h with rfl | hold
      · exact .inr ⟨rfl, id, due, htask, hdue⟩
      · exact .inl ⟨hold, by simp⟩
  · rcases s.ask_cases other with ⟨hother, hask⟩ | ⟨-, _, _, hask, -⟩
    · rw [step, hask] at h
      refine .inl ⟨h, ?_⟩
      rintro ⟨⟩
      exact hother h
    · rw [step, hask] at h
      obtain ⟨hold, hne⟩ := List.mem_filter.1 h
      refine .inl ⟨hold, ?_⟩
      rintro ⟨⟩
      simp at hne
  · exact .inl ⟨hcleared ▸ h, hask number⟩

/-- An attempt without an entry is by a task that read its flag, unset, before. -/
theorem late_step (s : StagedScheduler τ) (piece : Piece) : (s.step piece).late = s.late ∨
    ∃ number id, piece = .ask number ∧ number ∈ s.cleared ∧
      (∀ entry ∈ s.scheduler.entries, entry.task ≠ number) ∧
      (s.step piece).late = s.late ++ [⟨number, id, s.scheduler.timer⟩] := by
  rcases s.step_cases piece with ⟨other, rfl⟩ | ⟨other, rfl⟩ | ⟨-, -, hlate⟩
  · rcases s.clear_cases other with ⟨_, hclear⟩ | ⟨_, _, _, _, hclear⟩ <;>
      exact .inl (congrArg StagedScheduler.late hclear :)
  · rcases s.ask_cases other with
      ⟨-, hask⟩ | ⟨hcleared, _, _, hask, rfl | ⟨id, hnone, rfl⟩⟩
    · exact .inl (congrArg StagedScheduler.late hask :)
    · exact .inl (congrArg StagedScheduler.late hask :)
    · exact .inr ⟨other, id, rfl, hcleared, hnone, congrArg StagedScheduler.late hask⟩
  · exact .inl hlate

/-- A task has read its stop flag before a shutdown, and calls `keepAlive` after the rollback. -/
example :
    let brisk : TxnSettings := { TxnSettings.standard with keepAliveInterval := 2 }
    ((new (Ledger.fromZero brisk)).run [.operation (.create none none none), .schedule 1, .tick,
      .tick, .clear 0, .drain [⟨1, 0⟩], .stop ⟨1, 0⟩, .rollBack 1, .ask 0]).late =
        [⟨0, 1, 2⟩] := by
  decide +kernel

/-- A drained entry remains until it is stopped, and then its transaction is owed a rollback. -/
theorem drained_step {entry : Tracked} (h : entry ∈ s.drained) (piece : Piece) :
    entry ∈ (s.step piece).drained ∨ piece = .stop entry ∧ entry.txn ∈ (s.step piece).owed := by
  cases piece with
  | drain order =>
    simp only [step]
    split
    · exact .inl (List.mem_append_left order h)
    · exact .inl h
  | stop other =>
    simp only [step, stop]
    split
    · by_cases hsame : entry = other
      · subst hsame
        exact .inr ⟨rfl, List.mem_append_right _ (List.mem_singleton_self _)⟩
      · exact .inl ((List.mem_erase_of_ne hsame).2 h)
    · exact .inl h
  | rollBack id =>
    simp only [step, rollBack]
    split <;> exact .inl h
  | clear number => exact .inl ((s.pending_clear number).1.symm ▸ h)
  | ask number => exact .inl ((s.pending_ask number).1.symm ▸ h)
  | _ => exact .inl h

theorem owed_step (h : id ∈ s.owed) (piece : Piece) :
    id ∈ (s.step piece).owed ∨ piece = .rollBack id := by
  cases piece with
  | announce other reason => exact .inl (List.mem_append_left [other] h)
  | drain order =>
    simp only [step]
    split <;> exact .inl h
  | stop entry =>
    simp only [step, stop]
    split
    · exact .inl (List.mem_append_left [entry.txn] h)
    · exact .inl h
  | rollBack other =>
    simp only [step, rollBack]
    split
    · by_cases hsame : id = other
      · exact .inr (hsame ▸ rfl)
      · exact .inl ((List.mem_erase_of_ne hsame).2 h)
    · exact .inl h
  | clear number => exact .inl ((s.pending_clear number).2.symm ▸ h)
  | ask number => exact .inl ((s.pending_ask number).2.symm ▸ h)
  | _ => exact .inl h

/-- On a writable ledger, an owed rollback of an active transaction succeeds. -/
theorem record?_rollBack (hid : id ∈ s.owed) (hwritable : s.scheduler.ledger.Writable) {txn : Txn}
    (hrecord : s.scheduler.ledger.partition.record? id = some txn) (hactive : txn.state = .active) :
    (s.rollBack id).scheduler.ledger.partition.record? id =
      some { txn with state := .rolledBack } := by
  rw [rollBack, if_pos hid, rollBack_eq]
  exact Ledger.record?_after_rollback hwritable hrecord hactive

/-- Between the steps of calls, the tracked transactions and the attempts of their tasks are those
of a run of whole calls. -/
theorem tracking_between_steps (ledger : Ledger τ) (pieces : List Piece) :
    let s := (new ledger).run pieces
    let interval := ledger.settings.keepAliveInterval.toNat
    ∃ acts count, s.Matches ((Scheduler.new ledger).after acts count) ∧ ∀ id,
      (s.scheduler.isTracked id = true ↔ ∃ first, (Scheduler.new ledger).Kept acts id first count) ∧
      ∀ first, (Scheduler.new ledger).Kept acts id first count → ∃ beats,
        let before := (Scheduler.new ledger).after acts first
        moments id s.scheduler.attempts = moments id before.attempts ++
          (List.range beats).map (fun beat => before.timer + (beat + 1) * interval) ∧
        (interval = 0 ∧ beats = 0 ∨ before.timer + beats * interval ≤ s.scheduler.timer ∧
          s.scheduler.timer ≤ before.timer + (beats + 1) * interval) := by
  intro s interval
  obtain ⟨list, hrun⟩ := (matches_new ledger).run pieces
  obtain ⟨acts, count, hafter⟩ := (Scheduler.new ledger).exists_after_eq_run list
  rw [← hafter] at hrun
  refine ⟨acts, count, hrun, fun id => ⟨?_, fun first hkept => ?_⟩⟩
  · rw [isTracked, hrun.alike.find? id]
    exact isTracked_after_new ledger acts id count
  · obtain ⟨beats, hontime, hmoments⟩ := hkept.beats (orderly_new ledger)
    have hbounds := hontime.bounds
    rw [interval_after] at hbounds
    rw [hrun.alike.attempts, hrun.alike.timer]
    exact ⟨beats, hmoments, hbounds⟩

end

end StagedScheduler

end Mvcc

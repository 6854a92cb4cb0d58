import Mathlib.Data.List.Nodup
import Mvcc.Proofs.Txn.Run
import Mvcc.Txn.Scheduler

/-!
# Entries and tasks

Under all calls and all interleaved task steps, the entries are in bijection with the tasks whose
stop flag is unset.
-/

namespace Mvcc.Scheduler

variable {τ : Type} {s s' : Scheduler τ} {id : TxnId} {number : Nat} {entry : Tracked}

/-! ## Entries -/

/-- Task `number` is one of this transaction and has not been stopped. -/
def Lives (s : Scheduler τ) (number : Nat) (id : TxnId) : Prop :=
  ∃ task, s.tasks number = some task ∧ task.txn = id ∧ task.halted = false

/-- The entries are in bijection with the tasks that have not been stopped. -/
structure Orderly (s : Scheduler τ) : Prop where
  distinct : (s.entries.map (·.txn)).Nodup
  numbered (number : Nat) (h : (s.tasks number).isSome) : number < s.spawned
  owned (id : TxnId) (number : Nat) : ⟨id, number⟩ ∈ s.entries ↔ s.Lives number id

theorem txn_of_find? (h : s.find? id = some entry) : entry.txn = id := by
  simpa using List.find?_some h

theorem mem_of_find? (h : s.find? id = some entry) : entry ∈ s.entries :=
  List.mem_of_find?_eq_some h

theorem isTracked_iff_mem : s.isTracked id = true ↔ ∃ number, ⟨id, number⟩ ∈ s.entries := by
  rw [isTracked, find?, List.find?_isSome]
  constructor
  · rintro ⟨⟨other, number⟩, hmem, hsame⟩
    cases of_decide_eq_true hsame
    exact ⟨number, hmem⟩
  · rintro ⟨number, hmem⟩
    exact ⟨_, hmem, decide_eq_true rfl⟩

theorem Lives.txn_unique {other : TxnId} (h : s.Lives number id) (h' : s.Lives number other) :
    id = other := by
  obtain ⟨task, htask, rfl, -⟩ := h
  obtain ⟨task', htask', rfl, -⟩ := h'
  cases htask.symm.trans htask'
  rfl

theorem Orderly.entry_unique (h : s.Orderly) {other : Nat} (hmem : ⟨id, number⟩ ∈ s.entries)
    (hmem' : ⟨id, other⟩ ∈ s.entries) : number = other :=
  congrArg Tracked.task (List.inj_on_of_nodup_map h.distinct hmem hmem' rfl)

theorem Orderly.find?_eq (h : s.Orderly) (hmem : ⟨id, number⟩ ∈ s.entries) :
    s.find? id = some ⟨id, number⟩ := by
  cases hentry : s.find? id with
  | none =>
    have hnone := List.find?_eq_none.1 hentry _ hmem
    simp at hnone
  | some entry =>
    obtain ⟨other, found⟩ := entry
    cases (txn_of_find? hentry : other = id)
    rw [h.entry_unique (mem_of_find? hentry) hmem]

theorem orderly_new (ledger : Ledger τ) : (new ledger).Orderly where
  distinct := .nil
  numbered number h := by cases h
  owned id number := by
    constructor
    · intro hmem
      cases hmem
    · rintro ⟨task, htask, -⟩
      cases htask

theorem Orderly.of_lives (h : s.Orderly) (hentries : s'.entries = s.entries)
    (hspawned : s'.spawned = s.spawned)
    (hsome : ∀ number, (s'.tasks number).isSome → (s.tasks number).isSome)
    (hlives : ∀ number id, s'.Lives number id ↔ s.Lives number id) : s'.Orderly where
  distinct := hentries ▸ h.distinct
  numbered number htask := hspawned ▸ h.numbered number (hsome number htask)
  owned id number := by rw [hentries, h.owned, hlives]

theorem Orderly.drop (h : s.Orderly) (hentry : s.find? id = some entry)
    (hentries : s'.entries = s.entries.filter (·.txn ≠ id)) (hspawned : s'.spawned = s.spawned)
    (hgone : ∀ id, ¬ s'.Lives entry.task id)
    (hothers : ∀ number ≠ entry.task, s'.tasks number = s.tasks number) : s'.Orderly := by
  obtain ⟨other, own⟩ := entry
  cases (txn_of_find? hentry : other = id)
  have hown := mem_of_find? hentry
  refine ⟨?_, fun number htask => ?_, fun id number => ?_⟩
  · rw [hentries]
    exact h.distinct.sublist (List.filter_sublist.map _)
  · rw [hspawned]
    by_cases hsame : number = own
    · obtain ⟨task, htask, -⟩ := (h.owned _ _).1 hown
      rw [hsame]
      exact h.numbered own (by rw [htask]; rfl)
    · exact h.numbered number (hothers number hsame ▸ htask)
  · rw [hentries, List.mem_filter, h.owned]
    by_cases hsame : number = own
    · subst hsame
      refine ⟨fun ⟨hlives, hne⟩ => ?_, fun hlives => absurd hlives (hgone id)⟩
      have htxn := ((h.owned _ _).1 hown).txn_unique hlives
      exact absurd htxn.symm (of_decide_eq_true hne)
    · have hlives : s'.Lives number id ↔ s.Lives number id := by
        rw [Lives, Lives, hothers number hsame]
      rw [hlives]
      refine ⟨fun hboth => hboth.1, fun hlives => ⟨hlives, decide_eq_true fun htxn => hsame ?_⟩⟩
      have hmem := (h.owned id number).2 hlives
      cases (show id = other from htxn)
      exact h.entry_unique hmem hown

theorem stopped_stopped (task : BeatTask) : task.stopped.stopped = task.stopped := rfl

theorem not_lives_put_none (s : Scheduler τ) (number : Nat) (id : TxnId) :
    ¬ (s.put number none).Lives number id := by
  rintro ⟨task, htask, -⟩
  cases (if_pos rfl).symm.trans htask

theorem not_lives_halt (s : Scheduler τ) (number : Nat) (id : TxnId) :
    ¬ (s.halt number).Lives number id := by
  rintro ⟨task, htask, -, hlive⟩
  have hstopped : (s.tasks number).map BeatTask.stopped = some task := (if_pos rfl).symm.trans htask
  obtain ⟨old, -, rfl⟩ := Option.map_eq_some_iff.1 hstopped
  cases hlive

theorem tasks_put_of_ne (s : Scheduler τ) {other : Nat} (task : Option BeatTask)
    (h : other ≠ number) : (s.put number task).tasks other = s.tasks other := if_neg h

/-! ## One for one -/

theorem Orderly.schedule (h : s.Orderly) (id : TxnId) : (s.schedule id).2.Orderly := by
  unfold Scheduler.schedule
  cases hentry : s.find? id with
  | some entry => exact h
  | none =>
    have hnew : ∀ entry ∈ s.entries, entry.txn ≠ id := by
      simpa using List.find?_eq_none.1 hentry
    have hunused : s.tasks s.spawned = none := by
      cases htask : s.tasks s.spawned with
      | none => rfl
      | some task => exact absurd (h.numbered _ (by rw [htask]; rfl)) (Nat.lt_irrefl _)
    refine ⟨?_, fun number htask => ?_, fun other number => ?_⟩
    · have hfresh : id ∉ s.entries.map (·.txn) := by
        intro hmem
        obtain ⟨entry, hmem, htxn⟩ := List.mem_map.1 hmem
        exact hnew entry hmem htxn
      simpa using h.distinct.concat hfresh
    · by_cases hsame : number = s.spawned
      · rw [hsame]
        exact Nat.lt_succ_self _
      · exact Nat.lt_succ_of_lt (h.numbered number (by simpa [put, hsame] using htask))
    · rw [List.mem_append, h.owned]
      by_cases hsame : number = s.spawned
      · subst hsame
        constructor
        · rintro (⟨task, htask, -⟩ | hmem)
          · cases hunused.symm.trans htask
          · cases List.mem_singleton.1 hmem
            exact ⟨_, if_pos rfl, rfl, rfl⟩
        · rintro ⟨task, htask, rfl, -⟩
          cases (if_pos rfl).symm.trans htask
          exact .inr (List.mem_singleton_self _)
      · simp [Lives, put, hsame]

theorem Orderly.finish (h : s.Orderly) (id : TxnId) : (s.finish id).Orderly := by
  unfold Scheduler.finish
  cases hentry : s.find? id with
  | none => exact h
  | some entry =>
    refine h.drop hentry rfl rfl (not_lives_halt _ _) fun number hne => ?_
    exact tasks_put_of_ne _ _ hne

theorem Orderly.put (h : s.Orderly) {task : BeatTask} (htask : s.tasks number = some task)
    (task' : Option BeatTask) (hlives : ∀ id, (s.put number task').Lives number id ↔
      task.txn = id ∧ task.halted = false) : (s.put number task').Orderly := by
  refine h.of_lives rfl rfl (fun other hsome => ?_) fun other id => ?_
  · by_cases hsame : other = number
    · rw [hsame, htask]
      rfl
    · rwa [tasks_put_of_ne s task' hsame] at hsome
  · by_cases hsame : other = number
    · rw [hsame, hlives, Lives, htask]
      simp
    · rw [Lives, Lives, tasks_put_of_ne s task' hsame]

/-! ## Tasks -/

theorem ask_cases (s : Scheduler τ) (number : Nat) :
    s.ask number = s ∨
      (∃ task, s.tasks number = some task ∧ task.halted = true ∧
        s.ask number = s.put number none) ∨
      ∃ id due, s.tasks number = some ⟨id, some due, false, none⟩ ∧ due ≤ s.timer ∧
        s.ask number = { (s.within (attempt s.ledger id).2).put number
            (some ⟨id, some due, false, some (attempt s.ledger id).1⟩) with
          attempts := s.attempts ++ [⟨number, id, s.timer⟩] } := by
  unfold ask
  split
  · rename_i id due halted htask
    split
    · exact .inl rfl
    · rename_i hdue
      cases halted with
      | true => exact .inr (.inl ⟨_, htask, rfl, rfl⟩)
      | false => exact .inr (.inr ⟨id, due, htask, Nat.not_lt.1 hdue, rfl⟩)
  · exact .inl rfl

theorem conclude_cases (s : Scheduler τ) (number : Nat) :
    (∀ task, s.tasks number = some task → task.answer = none) ∧ s.conclude number = s ∨
      ∃ id due halted answer, s.tasks number = some ⟨id, due, halted, some answer⟩ ∧
        (answer = .ok false ∧ s.conclude number = (s.untrack id number).put number none ∨
          answer ≠ .ok false ∧ ∃ failures, s.conclude number =
            { s.put number (some ⟨id, due.map (· + s.interval), halted, none⟩) with
              failures }) := by
  unfold conclude
  split
  · rename_i id due halted answer htask
    refine .inr ⟨id, due, halted, answer, htask, ?_⟩
    cases answer with
    | ok alive =>
      cases alive with
      | true => exact .inr ⟨by simp, s.failures, rfl⟩
      | false => exact .inl ⟨rfl, rfl⟩
    | error e => exact .inr ⟨by simp, s.failures + 1, rfl⟩
  · rename_i hnone
    refine .inl ⟨fun task htask => ?_, rfl⟩
    obtain ⟨id, due, halted, _ | answer⟩ := task
    · rfl
    · exact (hnone id due halted answer htask).elim

theorem reap_cases (s : Scheduler τ) (number : Nat) :
    s.reap number = s ∨ ∃ task, s.tasks number = some task ∧ task.halted = true ∧
      s.reap number = s.put number none := by
  unfold reap
  split
  · rename_i task htask
    split
    · rename_i hhalted
      exact .inr ⟨task, htask, hhalted, rfl⟩
    · exact .inl rfl
  · exact .inl rfl

theorem tick_cases (s : Scheduler τ) :
    s.tick = s ∨ s.isIdle = true ∧ s.tick = { s with timer := s.timer + 1 } := by
  unfold tick
  split
  · rename_i hidle
    exact .inr ⟨hidle, rfl⟩
  · exact .inl rfl

theorem Orderly.not_mem_of_halted (h : s.Orderly) {task : BeatTask}
    (htask : s.tasks number = some task) (hhalted : task.halted = true) :
    ⟨id, number⟩ ∉ s.entries := by
  rw [h.owned]
  rintro ⟨task', htask', -, hlive⟩
  cases htask.symm.trans htask'
  cases hhalted.symm.trans hlive

theorem Orderly.halted_of_not_mem (h : s.Orderly) {task : BeatTask}
    (htask : s.tasks number = some task) (hnone : ⟨task.txn, number⟩ ∉ s.entries) :
    task.halted = true := by
  cases hhalted : task.halted with
  | true => rfl
  | false => exact absurd ((h.owned _ _).2 ⟨task, htask, rfl, hhalted⟩) hnone

/-- `untrack` removes an entry only for the task of that entry. -/
theorem Orderly.untrack_eq (h : s.Orderly) (id : TxnId) (number : Nat) :
    s.untrack id number = if ⟨id, number⟩ ∈ s.entries then s.without id else s := by
  unfold untrack
  by_cases hmem : ⟨id, number⟩ ∈ s.entries
  · rw [h.find?_eq hmem, if_pos hmem]
    exact if_pos rfl
  · rw [if_neg hmem]
    cases hentry : s.find? id with
    | none => rfl
    | some entry =>
      refine if_neg fun hsame => hmem ?_
      rw [← hsame, ← txn_of_find? hentry]
      exact mem_of_find? hentry

theorem Orderly.ask (h : s.Orderly) (number : Nat) : (s.ask number).Orderly := by
  rcases s.ask_cases number with hsame | ⟨task, htask, hhalted, hask⟩ | ⟨id, due, htask, -, hask⟩
  · rw [hsame]
    exact h
  · rw [hask]
    exact h.put htask none fun id => by simp [hhalted, not_lives_put_none]
  · rw [hask]
    have hput := h.put htask (some ⟨id, some due, false, some (attempt s.ledger id).1⟩)
      fun other => by simp [Lives, Scheduler.put]
    exact ⟨hput.distinct, hput.numbered, hput.owned⟩

theorem Orderly.conclude (h : s.Orderly) (number : Nat) : (s.conclude number).Orderly := by
  rcases s.conclude_cases number with
    ⟨-, hsame⟩ | ⟨id, due, halted, answer, htask, ⟨-, hconclude⟩ | ⟨-, failures, hconclude⟩⟩
  · rw [hsame]
    exact h
  · rw [hconclude, h.untrack_eq]
    split
    · rename_i hmem
      exact h.drop (h.find?_eq hmem) rfl rfl (not_lives_put_none _ _) fun other hne =>
        tasks_put_of_ne _ _ hne
    · rename_i hnone
      have hhalted : halted = true := h.halted_of_not_mem htask hnone
      exact h.put htask none fun other => by simp [hhalted, not_lives_put_none]
  · rw [hconclude]
    have hput := h.put htask (some ⟨id, due.map (· + s.interval), halted, none⟩)
      fun other => by simp [Lives, Scheduler.put]
    exact ⟨hput.distinct, hput.numbered, hput.owned⟩

theorem Orderly.reap (h : s.Orderly) (number : Nat) : (s.reap number).Orderly := by
  rcases s.reap_cases number with hsame | ⟨task, htask, hhalted, hreap⟩
  · rw [hsame]
    exact h
  · rw [hreap]
    exact h.put htask none fun id => by simp [hhalted, not_lives_put_none]

theorem Orderly.tick (h : s.Orderly) : s.tick.Orderly := by
  rcases s.tick_cases with hsame | ⟨-, htick⟩
  · rw [hsame]
    exact h
  · rw [htick]
    exact ⟨h.distinct, h.numbered, h.owned⟩

/-! ## Events -/

section

variable [TimestampSource τ]

inductive Act where
  | operation (op : Ledger.Operation)
  | schedule (id : TxnId)
  | cancel (id : TxnId) (reason : String)
  | finish (id : TxnId)
  /-- A shutdown, stopping the entries in this order. -/
  | shutdown (order : List Tracked)
  | ask (number : Nat)
  | conclude (number : Nat)
  | reap (number : Nat)
  | tick

def step (s : Scheduler τ) : Act → Scheduler τ
  | .operation op => s.within (s.ledger.after op)
  | .schedule id => (s.schedule id).2
  | .cancel id reason => s.cancel id reason
  | .finish id => s.finish id
  | .shutdown order => if order.isPerm s.entries then s.shutdown order else s
  | .ask number => s.ask number
  | .conclude number => s.conclude number
  | .reap number => s.reap number
  | .tick => s.tick

def after (s : Scheduler τ) (acts : Nat → Act) : Nat → Scheduler τ
  | 0 => s
  | count + 1 => (s.after acts count).step (acts count)

theorem step_shutdown {order : List Tracked} (h : order.Perm s.entries) :
    s.step (.shutdown order) = s.shutdown order :=
  if_pos (List.isPerm_iff.2 h)

theorem step_shutdown_of_not_perm {order : List Tracked} (h : ¬ order.Perm s.entries) :
    s.step (.shutdown order) = s :=
  if_neg fun hperm => h (List.isPerm_iff.1 hperm)

theorem rollBack_eq (s : Scheduler τ) (id : TxnId) :
    s.rollBack id = s.within (s.ledger.after (.rollback id)) := by
  unfold rollBack
  cases hrolled : Ledger.rollback id s.ledger with
  | ok _ ledger => simp [Ledger.after, Ledger.Operation.steps, hrolled]
  | error e ledger => simp [Ledger.after, Ledger.Operation.steps, hrolled]

theorem shutdown_eq (s : Scheduler τ) (order : List Tracked) :
    s.shutdown order = { s with
      ledger := s.ledger.run (order.map (.rollback ·.txn))
      entries := []
      tasks := fun number => if number ∈ order.map (·.task)
        then (s.tasks number).map BeatTask.stopped else s.tasks number } := by
  unfold shutdown
  suffices hall : ∀ drained : Scheduler τ,
      order.foldl (fun s entry => (s.halt entry.task).rollBack entry.txn) drained =
        { drained with
          ledger := drained.ledger.run (order.map (.rollback ·.txn))
          tasks := fun number => if number ∈ order.map (·.task)
            then (drained.tasks number).map BeatTask.stopped else drained.tasks number } from
    hall _
  induction order with
  | nil => simp [Ledger.run]
  | cons entry order ih =>
    intro drained
    rw [List.foldl_cons, ih, rollBack_eq]
    simp only [within, halt, put, List.map_cons, Ledger.run, List.foldl_cons]
    congr 1
    funext number
    by_cases hsame : number = entry.task
    · -- To be told twice makes no difference.
      by_cases hmem : entry.task ∈ order.map (·.task)
      · simp [hsame, hmem, Function.comp_def, stopped_stopped]
      · simp [hsame, hmem]
    · simp [hsame]

theorem Orderly.cancel (h : s.Orderly) (id : TxnId) (reason : String) :
    (s.cancel id reason).Orderly := by
  have hfinish := h.finish id
  rw [Scheduler.cancel, rollBack_eq]
  exact ⟨hfinish.distinct, hfinish.numbered, hfinish.owned⟩

theorem Orderly.shutdown (h : s.Orderly) {order : List Tracked} (hall : order.Perm s.entries) :
    (s.shutdown order).Orderly := by
  rw [shutdown_eq]
  refine ⟨.nil, fun number htask => ?_, fun id number => ?_⟩
  · dsimp only at htask
    apply h.numbered number
    split at htask
    · simpa using htask
    · exact htask
  · constructor
    · intro hmem
      cases hmem
    · rintro ⟨task, htask, -, hlive⟩
      dsimp only at htask
      split at htask
      · obtain ⟨old, -, rfl⟩ := Option.map_eq_some_iff.1 htask
        cases hlive
      · rename_i hother
        have hmem := (h.owned task.txn number).2 ⟨task, htask, rfl, hlive⟩
        exact absurd (List.mem_map.2 ⟨_, hall.mem_iff.2 hmem, rfl⟩) hother

theorem Orderly.step (h : s.Orderly) (act : Act) : (s.step act).Orderly := by
  cases act with
  | operation op => exact ⟨h.distinct, h.numbered, h.owned⟩
  | schedule id => exact h.schedule id
  | cancel id reason => exact h.cancel id reason
  | finish id => exact h.finish id
  | shutdown order =>
    by_cases hall : order.Perm s.entries
    · rw [step_shutdown hall]
      exact h.shutdown hall
    · rw [step_shutdown_of_not_perm hall]
      exact h
  | ask number => exact h.ask number
  | conclude number => exact h.conclude number
  | reap number => exact h.reap number
  | tick => exact h.tick

theorem Orderly.after (h : s.Orderly) (acts : Nat → Act) (count : Nat) :
    (s.after acts count).Orderly := by
  induction count with
  | zero => exact h
  | succ count ih => exact ih.step (acts count)

end

end Mvcc.Scheduler

import Mvcc.Proofs.Txn.Beats
import Mvcc.Proofs.Txn.Punctual

/-!
# Tended ledgers and schedulers

A tended ledger has one heartbeat for each entry, which fires and acts on the answer at once. Each
of its operations is matched by a scheduler with tasks.
-/

namespace Mvcc.Scheduler

variable {τ : Type} {s s' : Scheduler τ} {id : TxnId} {number : Nat}

/-! ## Heartbeats -/

def heartbeat (s : Scheduler τ) (entry : Tracked) : Heartbeat :=
  ⟨entry.txn, (s.tasks entry.task).bind (·.due), entry.task⟩

/-- The ledger and its heartbeats. -/
def tended (s : Scheduler τ) : TendedLedger τ where
  ledger := s.ledger
  beats :=
    { interval := s.interval
      timer := s.timer
      running := s.entries.map s.heartbeat
      watches := s.spawned
      announced := s.announced
      signals := s.signals
      failures := s.failures }

/-- No task has an unprocessed answer, and running tasks have their due time. -/
structure Resting (s : Scheduler τ) : Prop where
  orderly : s.Orderly
  rests {number : Nat} {id : TxnId} {due : Option Nat} {answer : Option (Except TxnError Bool)}
    (h : s.tasks number = some ⟨id, due, false, answer⟩) :
    answer = none ∧ ∃ time, due = s.dueAfter time

theorem tended_new (ledger : Ledger τ) :
    (new ledger).tended = ⟨ledger, .new ledger.settings.keepAliveInterval⟩ := rfl

theorem resting_new (ledger : Ledger τ) : (new ledger).Resting where
  orderly := orderly_new ledger
  rests h := nomatch h

theorem find?_tended (s : Scheduler τ) (id : TxnId) :
    s.tended.beats.find? id = (s.find? id).map s.heartbeat :=
  List.find?_map

theorem heartbeat_put_of_ne {entry : Tracked} (h : entry.task ≠ number) (task : Option BeatTask) :
    (s.put number task).heartbeat entry = s.heartbeat entry := by
  rw [heartbeat, tasks_put_of_ne s task h, heartbeat]

theorem heartbeat_halt (s : Scheduler τ) (number : Nat) :
    (s.halt number).heartbeat = s.heartbeat := by
  funext entry
  by_cases hsame : entry.task = number
  · simp only [heartbeat, halt, put, hsame, if_pos]
    cases s.tasks number <;> rfl
  · exact heartbeat_put_of_ne hsame _

theorem running_finish (s : Scheduler τ) (id : TxnId) :
    (s.finish id).entries.map (s.finish id).heartbeat =
      (s.entries.map s.heartbeat).filter (·.txn ≠ id) := by
  have hheartbeat : (s.finish id).heartbeat = s.heartbeat := by
    unfold finish
    split
    · exact heartbeat_halt (s.without id) _
    · rfl
  rw [hheartbeat, entries_finish, List.filter_map]
  rfl

theorem beats_finish (s : Scheduler τ) (id : TxnId) :
    (s.finish id).tended.beats = s.tended.beats.finish id := by
  unfold tended
  rw [running_finish]
  unfold finish
  split <;> rfl

theorem beats_announce (s : Scheduler τ) (signal : CancelSignal) :
    (s.announce signal).tended.beats = s.tended.beats.announce signal := by
  unfold Heartbeats.announce announce
  rw [find?_tended, ← beats_finish]
  cases s.find? signal.txn <;> rfl

theorem running_schedule (h : s.Orderly) (hnone : s.find? id = none) :
    (s.schedule id).2.entries.map (s.schedule id).2.heartbeat =
      s.entries.map s.heartbeat ++ [⟨id, s.dueAfter s.timer, s.spawned⟩] := by
  have hspawned : (s.schedule id).2.tasks s.spawned =
      some ⟨id, s.dueAfter s.timer, false, none⟩ := by
    simp [Scheduler.schedule, hnone, put]
  have hold : ∀ entry ∈ s.entries, (s.schedule id).2.heartbeat entry = s.heartbeat entry := by
    intro entry hmem
    have hne := Nat.ne_of_lt (h.lt_spawned hmem)
    simp [Scheduler.schedule, hnone, put, heartbeat, hne]
  have hentries : (s.schedule id).2.entries = s.entries ++ [⟨id, s.spawned⟩] := by
    simp [Scheduler.schedule, hnone]
  rw [hentries, List.map_append, List.map_congr_left hold, List.map_singleton, heartbeat, hspawned]
  rfl

theorem beats_schedule (h : s.Orderly) (id : TxnId) :
    (s.schedule id).2.tended.beats = (s.tended.beats.schedule id).2 := by
  unfold Heartbeats.schedule
  rw [find?_tended]
  cases hentry : s.find? id with
  | some entry => simp [Scheduler.schedule, hentry]
  | none =>
    unfold tended
    rw [running_schedule h hentry]
    simp only [Scheduler.schedule, hentry]
    rfl

/-! ## Resting -/

theorem dueAfter_congr (h : s'.interval = s.interval) : s'.dueAfter = s.dueAfter := by
  funext time
  rw [dueAfter, dueAfter, h]

theorem Resting.of_tasks (h : s.Resting) (horderly : s'.Orderly)
    (hinterval : s'.interval = s.interval)
    (htasks : ∀ {number : Nat} {task : BeatTask}, s'.tasks number = some task →
      task.halted = false → s.tasks number = some task) : s'.Resting where
  orderly := horderly
  rests htask := by
    rw [dueAfter_congr hinterval]
    exact h.rests (htasks htask rfl)

theorem task_of_halt {other : Nat} {task : BeatTask} (h : (s.halt other).tasks number = some task)
    (hlive : task.halted = false) : s.tasks number = some task := by
  by_cases hsame : number = other
  · subst hsame
    exact absurd ⟨task, h, rfl, hlive⟩ (s.not_lives_halt number task.txn)
  · rwa [halt, tasks_put_of_ne _ _ hsame] at h

theorem task_of_finish {task : BeatTask} (h : (s.finish id).tasks number = some task)
    (hlive : task.halted = false) : s.tasks number = some task := by
  unfold finish at h
  split at h
  · exact task_of_halt (s := s.without id) h hlive
  · exact h

theorem Resting.schedule (h : s.Resting) (id : TxnId) : (s.schedule id).2.Resting := by
  refine ⟨h.orderly.schedule id, fun {number} other due answer htask => ?_⟩
  unfold Scheduler.schedule at htask ⊢
  split at htask
  · exact h.rests htask
  · by_cases hsame : number = s.spawned
    · cases (if_pos hsame).symm.trans htask
      exact ⟨rfl, s.timer, rfl⟩
    · rw [tasks_put_of_ne _ _ hsame] at htask
      exact h.rests htask

theorem Resting.finish (h : s.Resting) (id : TxnId) : (s.finish id).Resting :=
  h.of_tasks (h.orderly.finish id) (s.calm_finish id).interval task_of_finish

/-! ## Acts -/

section

variable [TimestampSource τ]

def run (s : Scheduler τ) (acts : List Act) : Scheduler τ := acts.foldl step s

theorem run_append (s : Scheduler τ) (acts later : List Act) :
    s.run (acts ++ later) = (s.run acts).run later :=
  List.foldl_append

/-- Some acts lead to a resting scheduler with this tended ledger. -/
def Leads (s : Scheduler τ) (t : TendedLedger τ) : Prop :=
  ∃ acts, (s.run acts).tended = t ∧ (s.run acts).Resting

theorem Leads.of_run {t : TendedLedger τ} {acts : List Act} (h : (s.run acts).Leads t) :
    s.Leads t := by
  obtain ⟨later, h⟩ := h
  exact ⟨acts ++ later, by rwa [run_append]⟩

theorem Leads.trans {t t' : TendedLedger τ} (h : s.Leads t)
    (h' : ∀ s' : Scheduler τ, s'.Resting → s'.tended = t → s'.Leads t') : s.Leads t' := by
  obtain ⟨acts, htended, hresting⟩ := h
  exact (h' _ hresting htended).of_run

theorem Resting.leads_operation (h : s.Resting) (op : Ledger.Operation) :
    s.Leads (s.tended.step (.operation op)) :=
  ⟨[.operation op], rfl, h.of_tasks (h.orderly.step (.operation op)) rfl fun htask _ => htask⟩

theorem Resting.leads_schedule (h : s.Resting) (id : TxnId) :
    s.Leads (s.tended.step (.schedule id)) := by
  refine ⟨[.schedule id], ?_, h.schedule id⟩
  exact congrArg₂ TendedLedger.mk (s.calm_schedule id).ledger (beats_schedule h.orderly id)

theorem Resting.leads_finish (h : s.Resting) (id : TxnId) :
    s.Leads (s.tended.step (.finish id)) := by
  refine ⟨[.finish id], ?_, h.finish id⟩
  exact congrArg₂ TendedLedger.mk (s.calm_finish id).ledger (s.beats_finish id)

theorem Resting.leads_cancel (h : s.Resting) (id : TxnId) (reason : String) :
    s.Leads (s.tended.step (.cancel id reason)) := by
  refine ⟨[.cancel id reason], ?_, ?_⟩
  · rw [TendedLedger.cancel_eq]
    have hbeats : (s.cancel id reason).tended.beats = s.tended.beats.announce ⟨id, reason⟩ := by
      rw [cancel, rollBack_eq]
      exact s.beats_announce ⟨id, reason⟩
    exact congrArg₂ TendedLedger.mk (s.calm_cancel id reason).ledger hbeats
  · refine h.of_tasks (h.orderly.cancel id reason) (s.calm_cancel id reason).interval ?_
    intro number task htask hlive
    rw [run, List.foldl_cons, step, cancel, rollBack_eq] at htask
    exact task_of_finish htask hlive

theorem Resting.leads_shutdown (h : s.Resting) : s.Leads (s.tended.step .shutdown) := by
  have hstep : s.run [.shutdown s.entries] = s.shutdown s.entries := step_shutdown (.refl _)
  have horderly := h.orderly.shutdown (.refl _)
  have hentries : (s.shutdown s.entries).entries = [] := by rw [shutdown_eq]
  refine ⟨[.shutdown s.entries], ?_, ?_⟩
  · have hops : s.tended.beats.running.map (Ledger.Operation.rollback ·.txn) =
        s.entries.map (.rollback ·.txn) :=
      List.map_map
    rw [hstep, shutdown_eq, TendedLedger.step, TendedLedger.shutdown_eq, hops]
    rfl
  · rw [hstep]
    refine h.of_tasks horderly (by rw [shutdown_eq]) ?_
    intro number task htask hlive
    have hmem := (horderly.owned task.txn number).2 ⟨task, htask, rfl, hlive⟩
    rw [hentries] at hmem
    cases hmem

/-! ## A beat -/

omit [TimestampSource τ] in
theorem running_put (h : s.Orderly) (hmem : ⟨id, number⟩ ∈ s.entries) (due : Option Nat) :
    s.entries.map (s.put number (some ⟨id, due, false, none⟩)).heartbeat =
      (s.entries.map s.heartbeat).map fun beat =>
        if beat.txn = id then { beat with due := due } else beat := by
  rw [List.map_map]
  refine List.map_congr_left fun entry hentry => ?_
  obtain ⟨txn, task⟩ := entry
  by_cases hsame : task = number
  · subst hsame
    have htxn := ((h.owned _ _).1 hmem).txn_unique ((h.owned _ _).1 hentry)
    simp [heartbeat, put, htxn]
  · have htxn : txn ≠ id := by
      rintro rfl
      exact hsame (h.entry_unique hentry hmem)
    simp [heartbeat, put, hsame, htxn]

omit [TimestampSource τ] in
theorem running_without (h : s.Orderly) (hmem : ⟨id, number⟩ ∈ s.entries) :
    (s.without id).entries.map ((s.without id).put number none).heartbeat =
      (s.entries.map s.heartbeat).filter (·.txn ≠ id) := by
  have hothers : ∀ entry ∈ (s.without id).entries,
      ((s.without id).put number none).heartbeat entry = s.heartbeat entry := by
    intro entry hentry
    obtain ⟨hold, hne⟩ := mem_filter_txn.1 hentry
    refine heartbeat_put_of_ne (s := s.without id) ?_ _
    rintro rfl
    exact hne (((h.owned _ _).1 hmem).txn_unique ((h.owned _ _).1 hold))
  rw [List.map_congr_left hothers, without, List.filter_map]
  rfl

omit [TimestampSource τ] in
theorem Resting.exists_task_of_isDue (h : s.Resting) (hdue : s.tended.isDue id = true) :
    ∃ number, s.tasks number = some ⟨id, some s.timer, false, none⟩ := by
  rw [TendedLedger.isDue, find?_tended] at hdue
  cases hentry : s.find? id with
  | none => simp [hentry] at hdue
  | some entry =>
    obtain ⟨⟨txn, due, halted, answer⟩, htask, htxn, hlive⟩ :=
      (h.orderly.owned entry.txn entry.task).1 (mem_of_find? hentry)
    cases (htxn.trans (txn_of_find? hentry) : txn = id)
    cases (hlive : halted = false)
    obtain rfl := (h.rests htask).1
    rw [hentry, Option.map_some, Option.any_some, heartbeat, htask] at hdue
    have hnow : due = some s.timer := of_decide_eq_true hdue
    exact ⟨entry.task, hnow ▸ htask⟩

omit [TimestampSource τ] in
theorem task_conclude {due due' : Option Nat} {txn : TxnId} {given : Except TxnError Bool}
    {answer : Option (Except TxnError Bool)}
    (htask : s.tasks number = some ⟨id, due, false, some given⟩)
    (htask' : (s.conclude number).tasks number = some ⟨txn, due', false, answer⟩) :
    answer = none ∧ due' = due.map (· + s.interval) := by
  rcases s.conclude_cases number with
    ⟨hnone, -⟩ | ⟨_, _, _, _, hgiven, ⟨-, hover⟩ | ⟨-, _, hgoing⟩⟩
  · cases hnone _ htask
  · rw [hover] at htask'
    cases (if_pos rfl).symm.trans htask'
  · cases htask.symm.trans hgiven
    rw [hgoing] at htask'
    cases (if_pos rfl).symm.trans htask'
    exact ⟨rfl, rfl⟩

omit [TimestampSource τ] in
theorem tended_ask (htask : s.tasks number = some ⟨id, some s.timer, false, none⟩) :
    (s.ask number).tended = ⟨(attempt s.ledger id).2, s.tended.beats⟩ ∧
      (s.ask number).tasks number =
        some ⟨id, some s.timer, false, some (attempt s.ledger id).1⟩ := by
  have hask : s.ask number = { (s.within (attempt s.ledger id).2).put number
      (some ⟨id, some s.timer, false, some (attempt s.ledger id).1⟩) with
      attempts := s.attempts ++ [⟨number, id, s.timer⟩] } := by
    simp [ask, htask]
  have hheartbeat : (s.ask number).heartbeat = s.heartbeat := by
    funext entry
    by_cases hsame : entry.task = number
    · simp [hask, heartbeat, put, hsame, htask]
    · rw [heartbeat, tasks_ask_of_ne s hsame, heartbeat]
  refine ⟨?_, by simp [hask, put]⟩
  unfold tended
  rw [hheartbeat, hask]
  rfl

def heed (beats : Heartbeats) (id : TxnId) (time : Nat) : Except TxnError Bool → Heartbeats
  | .ok true => beats.postpone id time
  | .ok false => beats.finish id
  | .error _ => { beats.postpone id time with failures := beats.failures + 1 }

omit [TimestampSource τ] in
theorem beat_eq (s : TendedLedger τ) (time : Nat) (id : TxnId) : s.beat time id =
    ⟨(attempt s.ledger id).2, heed s.beats id time (attempt s.ledger id).1⟩ := by
  unfold TendedLedger.beat attempt
  cases Ledger.keepAlive id s.ledger with
  | ok alive ledger => cases alive <;> rfl
  | error e ledger => rfl

omit [TimestampSource τ] in
theorem beats_conclude (h : s.Orderly) {due : Option Nat} {answer : Except TxnError Bool}
    (htask : s.tasks number = some ⟨id, due, false, some answer⟩) {time : Nat}
    (hdue : due.map (· + s.interval) = s.dueAfter time) :
    (s.conclude number).tended.beats = heed s.tended.beats id time answer := by
  have hmem := h.mem_of_task htask
  have hrunning := running_put h hmem (s.dueAfter time)
  unfold conclude
  rw [htask]
  dsimp only
  rw [hdue]
  cases answer with
  | error e =>
    exact congrArg (fun running => { s.tended.beats with running, failures := s.failures + 1 })
      hrunning
  | ok alive =>
    cases alive with
    | true => exact congrArg (fun running => { s.tended.beats with running }) hrunning
    | false =>
      dsimp only
      rw [h.untrack_eq, if_pos hmem]
      exact congrArg (fun running => { s.tended.beats with running }) (running_without h hmem)

theorem Resting.leads_beat (h : s.Resting) (id : TxnId) : s.Leads (s.tended.step (.beat id)) := by
  by_cases hdue : s.tended.isDue id = true
  · obtain ⟨number, htask⟩ := h.exists_task_of_isDue hdue
    obtain ⟨-, time, htime⟩ := h.rests htask
    have hpos : s.interval ≠ 0 := by
      intro hzero
      simp [dueAfter, hzero] at htime
    obtain ⟨hasked, hanswer⟩ := tended_ask htask
    have horderly := h.orderly.ask number
    have hinterval : (s.ask number).interval = s.interval := interval_step s (.ask number)
    have hnext : (some s.timer).map (· + (s.ask number).interval) =
        (s.ask number).dueAfter s.timer := by
      rw [dueAfter, hinterval, if_neg hpos, Option.map_some]
    refine ⟨[.ask number, .conclude number], ?_, horderly.conclude number, ?_⟩
    · have hbeats := beats_conclude horderly hanswer hnext
      rw [hasked] at hbeats
      have hledger : ((s.ask number).conclude number).ledger = (attempt s.ledger id).2 :=
        (calm_conclude _ number).ledger.trans (congrArg TendedLedger.ledger hasked)
      rw [TendedLedger.step, if_pos hdue, beat_eq]
      exact congrArg₂ TendedLedger.mk hledger hbeats
    · intro other txn due answer htask'
      have hsince : (s.run [.ask number, .conclude number]).dueAfter = s.dueAfter :=
        dueAfter_congr ((calm_conclude _ number).interval.trans hinterval)
      rw [hsince]
      by_cases hsame : other = number
      · subst hsame
        rw [dueAfter_congr hinterval] at hnext
        obtain ⟨hnone, hlater⟩ := task_conclude hanswer htask'
        exact ⟨hnone, s.timer, hlater.trans hnext⟩
      · have htasks : (s.run [.ask number, .conclude number]).tasks other = s.tasks other :=
          (tasks_conclude_of_ne _ hsame).trans (tasks_ask_of_ne s hsame)
        exact h.rests (htasks ▸ htask')
  · exact ⟨[], (if_neg hdue).symm, h⟩

/-! ## Time -/

omit [TimestampSource τ] in
theorem Resting.isIdle (h : s.Resting)
    (hlater : ∀ beat ∈ s.tended.beats.running, beat.due ≠ some s.timer) : s.isIdle = true := by
  refine List.all_eq_true.2 fun number _ => ?_
  cases htask : s.tasks number with
  | none => rfl
  | some task =>
    cases hhalted : task.halted with
    | true => simp [hhalted]
    | false =>
      have hmem := (h.orderly.owned task.txn number).2 ⟨task, htask, rfl, hhalted⟩
      have hbeat : (s.heartbeat ⟨task.txn, number⟩).due ≠ some s.timer :=
        hlater _ (List.mem_map_of_mem hmem)
      have hdue : task.due ≠ some s.timer := by simpa [heartbeat, htask] using hbeat
      simp [hhalted, hdue]

theorem Resting.leads_ticks (h : s.Resting) {count : Nat}
    (hlater : ∀ beat ∈ s.tended.beats.running, ∀ due, beat.due = some due →
      s.timer + count ≤ due) : s.Leads (s.tended.showing (s.timer + count)) := by
  induction count with
  | zero => exact ⟨[], rfl, h⟩
  | succ count ih =>
    refine (ih fun beat hbeat due hdue => Nat.le_of_succ_le (hlater beat hbeat due hdue)).trans ?_
    intro s' h' htended
    have htimer : s'.timer = s.timer + count := congrArg (·.beats.timer) htended
    have hrunning : s'.tended.beats.running = s.tended.beats.running :=
      congrArg (·.beats.running) htended
    have hidle : s'.isIdle = true := by
      refine h'.isIdle fun beat hbeat hnow => ?_
      have hle := hlater beat (hrunning ▸ hbeat) _ hnow
      omega
    have hstep : s'.run [.tick] = { s' with timer := s'.timer + 1 } := if_pos hidle
    refine ⟨[.tick], ?_, ?_⟩
    · rw [hstep]
      show s'.tended.showing (s'.timer + 1) = _
      rw [htended, htimer]
      rfl
    · rw [hstep]
      exact h'.of_tasks ⟨h'.orderly.distinct, h'.orderly.numbered, h'.orderly.owned⟩ rfl
        fun htask _ => htask

theorem Resting.leads_beats (h : s.Resting) (ids : List TxnId) :
    s.Leads (s.tended.run (ids.map .beat)) := by
  induction ids generalizing s with
  | nil => exact ⟨[], rfl, h⟩
  | cons id ids ih =>
    refine (h.leads_beat id).trans fun s' h' htended => ?_
    rw [List.map_cons, TendedLedger.run_cons, ← htended]
    exact ih h'

omit [TimestampSource τ] in
theorem Orderly.find?_beat (h : s.Orderly) {beat : Heartbeat}
    (hbeat : beat ∈ s.tended.beats.running) : s.tended.beats.find? beat.txn = some beat := by
  obtain ⟨entry, hmem, rfl⟩ := List.mem_map.1 hbeat
  have hentry : s.find? entry.txn = some entry := h.find?_eq hmem
  rw [find?_tended]
  exact congrArg (Option.map s.heartbeat) hentry

omit [TimestampSource τ] in
theorem Orderly.running_distinct (h : s.Orderly) :
    (s.tended.beats.running.map (·.txn)).Nodup := by
  have htxns : s.tended.beats.running.map (·.txn) = s.entries.map (·.txn) := List.map_map
  rw [htxns]
  exact h.distinct

/-- The timer advances to a moment before which nothing is due, and the heartbeats due then fire. -/
theorem Resting.leads_beatsAt (h : s.Resting) {time : Nat} (htime : s.timer ≤ time)
    (hlater : ∀ beat ∈ s.tended.beats.running, ∀ due, beat.due = some due → time ≤ due) :
    s.Leads (s.tended.beatsAt time) := by
  have hsum : s.timer + (time - s.timer) = time := Nat.add_sub_cancel' htime
  have hticks := h.leads_ticks (hsum ▸ hlater)
  rw [hsum] at hticks
  have hrun : s.tended.beatsAt time = (s.tended.showing time).run
      ((s.tended.beats.running.filter (·.due = some time)).map (.beat ·.txn)) := by
    refine (TendedLedger.foldl_beat_eq_run (s := s.tended.showing time) rfl
      (h.orderly.running_distinct.sublist (List.filter_sublist.map _)) ?_).1
    intro beat hbeat
    obtain ⟨hmem, hdue⟩ := List.mem_filter.1 hbeat
    exact ⟨h.orderly.find?_beat hmem, of_decide_eq_true hdue⟩
  refine hticks.trans fun s' h' htended => ?_
  have hids : (s.tended.beats.running.filter (·.due = some time)).map
      (TendedLedger.Act.beat ·.txn) =
        ((s.tended.beats.running.filter (·.due = some time)).map (·.txn)).map .beat := by
    rw [List.map_map]
    rfl
  rw [hrun, hids, ← htended]
  exact h'.leads_beats _

end

end Mvcc.Scheduler

namespace Mvcc.TendedLedger

variable {τ : Type} {s : TendedLedger τ}

/-- Every due time is in the future. -/
def Ahead (s : TendedLedger τ) : Prop :=
  ∀ beat ∈ s.beats.running, ∀ due, beat.due = some due → s.beats.timer < due

theorem ahead_foldl_beat {time : Nat} {fired : List TxnId} (htimer : s.beats.timer = time)
    (h : ∀ beat ∈ s.beats.running, ∀ due, beat.due = some due →
      time ≤ due ∧ (due = time → beat.txn ∈ fired)) :
    (fired.foldl (fun s id => s.beat time id) s).Ahead ∧
      (fired.foldl (fun s id => s.beat time id) s).beats.timer = time := by
  induction fired generalizing s with
  | nil =>
    refine ⟨fun beat hbeat due hdue => ?_, htimer⟩
    obtain ⟨hle, hnone⟩ := h beat hbeat due hdue
    have hne : due ≠ time := fun hnow => nomatch hnone hnow
    show s.beats.timer < due
    omega
  | cons id fired ih =>
    have hothers : ∀ beat ∈ s.beats.running, beat.txn ≠ id → ∀ due, beat.due = some due →
        time ≤ due ∧ (due = time → beat.txn ∈ fired) := by
      intro beat hbeat hne due hdue
      obtain ⟨hle, hmem⟩ := h beat hbeat due hdue
      exact ⟨hle, fun hnow => (List.mem_cons.1 (hmem hnow)).resolve_left hne⟩
    rw [List.foldl_cons]
    refine ih ?_ ?_
    · exact beat_induction (p := fun beats => beats.timer = time) htimer fun _ => htimer
    · refine beat_induction (p := fun beats => ∀ beat ∈ beats.running, ∀ due,
        beat.due = some due → time ≤ due ∧ (due = time → beat.txn ∈ fired)) ?_ fun failures => ?_
      · intro beat hbeat
        obtain ⟨hmem, hne⟩ := List.mem_filter.1 hbeat
        exact hothers beat hmem (of_decide_eq_true hne)
      · intro beat hbeat due hdue
        obtain ⟨old, hmem, rfl⟩ := List.mem_map.1 hbeat
        by_cases hold : old.txn = id
        · rw [if_pos hold] at hdue
          have hpos : s.beats.interval ≠ 0 := fun hzero => by
            simp [Heartbeats.dueAfter, hzero] at hdue
          have hnext : time + s.beats.interval = due := by
            simpa [Heartbeats.dueAfter, hpos] using hdue
          exact ⟨by omega, fun hnow => absurd hnow (by omega)⟩
        · rw [if_neg hold] at hdue ⊢
          exact hothers old hmem hold due hdue

theorem ahead_beatsAt {time : Nat}
    (h : ∀ beat ∈ s.beats.running, ∀ due, beat.due = some due → time ≤ due) :
    (s.beatsAt time).Ahead ∧ (s.beatsAt time).beats.timer = time := by
  have hfold : s.beatsAt time =
      ((s.beats.running.filter (·.due = some time)).map (·.txn)).foldl
        (fun s id => s.beat time id) (s.showing time) := by
    rw [List.foldl_map]
    rfl
  rw [hfold]
  refine ahead_foldl_beat rfl fun beat hbeat due hdue => ⟨h beat hbeat due hdue, fun hnow => ?_⟩
  refine List.mem_map_of_mem (List.mem_filter.2 ⟨hbeat, decide_eq_true ?_⟩)
  rw [hdue, hnow]

end Mvcc.TendedLedger

namespace Mvcc.Scheduler

variable {τ : Type} [TimestampSource τ] {s : Scheduler τ}

theorem Resting.leads_showing (h : s.Resting) {target : Nat} (hle : s.timer ≤ target)
    (hlater : ∀ beat ∈ s.tended.beats.running, ∀ due, beat.due = some due → target < due) :
    s.Leads (s.tended.showing target) ∧ (s.tended.showing target).Ahead := by
  have hsum : s.timer + (target - s.timer) = target := Nat.add_sub_cancel' hle
  refine ⟨hsum ▸ h.leads_ticks fun beat hbeat due hdue => ?_, hlater⟩
  rw [hsum]
  exact Nat.le_of_lt (hlater beat hbeat due hdue)

/-- For any progress of the timer, tasks can do what heartbeats do. -/
theorem Resting.leads_runTo (h : s.Resting) (hahead : s.tended.Ahead) {target fuel : Nat}
    (hle : s.timer ≤ target) (hfuel : target ≤ s.timer + fuel) :
    s.Leads (TendedLedger.runTo target fuel s.tended) ∧
      (TendedLedger.runTo target fuel s.tended).Ahead := by
  induction fuel generalizing s with
  | zero =>
    have hnow : s.timer = target := Nat.le_antisymm hle hfuel
    exact h.leads_showing hle (hnow ▸ hahead)
  | succ fuel ih =>
    unfold TendedLedger.runTo
    cases hnext : s.tended.beats.nextDue with
    | none =>
      have hnone := List.filterMap_eq_nil_iff.1 (List.min?_eq_none_iff.1 hnext)
      refine h.leads_showing hle fun beat hbeat due hdue => ?_
      cases (hnone beat hbeat).symm.trans hdue
    | some time =>
      obtain ⟨hmem, hmin⟩ := List.min?_eq_some_iff.1 hnext
      obtain ⟨first, hfirst, htime⟩ := List.mem_filterMap.1 hmem
      have hleast : ∀ beat ∈ s.tended.beats.running, ∀ due, beat.due = some due → time ≤ due :=
        fun beat hbeat due hdue => hmin due (List.mem_filterMap.2 ⟨beat, hbeat, hdue⟩)
      have hlater : s.timer < time := hahead first hfirst time htime
      dsimp only
      split
      · rename_i hwithin
        obtain ⟨hahead', htimer'⟩ := TendedLedger.ahead_beatsAt hleast
        obtain ⟨acts, htended, hresting⟩ := h.leads_beatsAt (Nat.le_of_lt hlater) hleast
        have htimer : (s.run acts).timer = time := (congrArg (·.beats.timer) htended).trans htimer'
        rw [← htended] at hahead' ⊢
        obtain ⟨hleads, hrest⟩ := ih hresting hahead' (by omega) (by omega)
        exact ⟨hleads.of_run, hrest⟩
      · rename_i hbeyond
        refine h.leads_showing hle fun beat hbeat due hdue => ?_
        exact Nat.lt_of_lt_of_le (Nat.not_le.1 hbeyond) (hleast beat hbeat due hdue)

theorem Resting.leads_elapse (h : s.Resting) (hahead : s.tended.Ahead) (milliseconds : Nat) :
    s.Leads (s.tended.elapse milliseconds) ∧ (s.tended.elapse milliseconds).Ahead :=
  h.leads_runTo hahead (Nat.le_add_right ..) (Nat.le_refl _)

end Mvcc.Scheduler

/-! ## Runs -/

namespace Mvcc.TendedLedger

variable {τ : Type} [TimestampSource τ] {s : TendedLedger τ}

/-- An operation on a tended ledger, or a progress of time. -/
inductive Turn where
  | operation (op : Ledger.Operation)
  | schedule (id : TxnId)
  | cancel (id : TxnId) (reason : String)
  | finish (id : TxnId)
  | shutdown
  | elapse (milliseconds : Nat)

def take (s : TendedLedger τ) : Turn → TendedLedger τ
  | .operation op => s.step (.operation op)
  | .schedule id => s.step (.schedule id)
  | .cancel id reason => s.step (.cancel id reason)
  | .finish id => s.step (.finish id)
  | .shutdown => s.shutdown
  | .elapse milliseconds => s.elapse milliseconds

omit [TimestampSource τ] in
theorem Ahead.of_subset {s' : TendedLedger τ} (h : s.Ahead)
    (htimer : s'.beats.timer = s.beats.timer)
    (hrunning : ∀ beat ∈ s'.beats.running, beat ∈ s.beats.running) : s'.Ahead := by
  intro beat hbeat due hdue
  rw [htimer]
  exact h beat (hrunning beat hbeat) due hdue

theorem Ahead.schedule (h : s.Ahead) (id : TxnId) : (s.step (.schedule id)).Ahead := by
  simp only [step, Heartbeats.schedule]
  split
  · exact h
  · intro beat hbeat due hdue
    rcases List.mem_append.1 hbeat with hold | hnew
    · exact h beat hold due hdue
    · obtain rfl := List.mem_singleton.1 hnew
      have hpos : s.beats.interval ≠ 0 := fun hzero => by
        simp [Heartbeats.dueAfter, hzero] at hdue
      have hnext : s.beats.timer + s.beats.interval = due := by
        simpa [Heartbeats.dueAfter, hpos] using hdue
      show s.beats.timer < due
      omega

theorem Ahead.cancel (h : s.Ahead) (id : TxnId) (reason : String) :
    (s.step (.cancel id reason)).Ahead := by
  rw [cancel_eq]
  exact h.of_subset rfl fun beat hbeat => (List.mem_filter.1 hbeat).1

theorem Ahead.shutdown (h : s.Ahead) : s.shutdown.Ahead := by
  rw [shutdown_eq]
  exact h.of_subset rfl fun beat hbeat => nomatch hbeat

end Mvcc.TendedLedger

namespace Mvcc.Scheduler

variable {τ : Type} [TimestampSource τ] {s : Scheduler τ}

theorem Resting.leads_take (h : s.Resting) (hahead : s.tended.Ahead) (turn : TendedLedger.Turn) :
    s.Leads (s.tended.take turn) ∧ (s.tended.take turn).Ahead := by
  cases turn with
  | operation op => exact ⟨h.leads_operation op, hahead⟩
  | schedule id => exact ⟨h.leads_schedule id, hahead.schedule id⟩
  | cancel id reason => exact ⟨h.leads_cancel id reason, hahead.cancel id reason⟩
  | finish id =>
    exact ⟨h.leads_finish id, hahead.of_subset rfl fun beat hbeat => (List.mem_filter.1 hbeat).1⟩
  | shutdown => exact ⟨h.leads_shutdown, hahead.shutdown⟩
  | elapse milliseconds => exact h.leads_elapse hahead milliseconds

theorem Resting.leads_foldl (h : s.Resting) (hahead : s.tended.Ahead)
    (turns : List TendedLedger.Turn) : s.Leads (turns.foldl .take s.tended) := by
  induction turns generalizing s with
  | nil => exact ⟨[], rfl, h⟩
  | cons turn turns ih =>
    obtain ⟨⟨acts, htended, hresting⟩, hahead'⟩ := h.leads_take hahead turn
    rw [← htended] at hahead'
    rw [List.foldl_cons, ← htended]
    exact (ih hresting hahead').of_run

theorem after_eq_run (s : Scheduler τ) (acts : Nat → Act) (count : Nat) :
    s.after acts count = s.run ((List.range count).map acts) := by
  induction count with
  | zero => rfl
  | succ count ih =>
    rw [List.range_succ, List.map_append, run_append, after, ih]
    rfl

theorem exists_after_eq_run (s : Scheduler τ) (acts : List Act) :
    ∃ sequence count, s.after sequence count = s.run acts := by
  refine ⟨fun act => acts.getD act .tick, acts.length, ?_⟩
  have hacts : (List.range acts.length).map (fun act => acts.getD act .tick) = acts :=
    List.ext_getElem (by simp) fun act _ hact => by simp [hact]
  rw [after_eq_run, hacts]

/-- For every history of a tended ledger there is a scheduler run with the same result. -/
theorem exists_after_tended (ledger : Ledger τ) (turns : List TendedLedger.Turn) :
    ∃ acts count, ((new ledger).after acts count).tended =
      turns.foldl .take ⟨ledger, .new ledger.settings.keepAliveInterval⟩ := by
  obtain ⟨acts, htended, -⟩ := (resting_new ledger).leads_foldl (fun _ hbeat => nomatch hbeat) turns
  obtain ⟨sequence, count, hrun⟩ := (new ledger).exists_after_eq_run acts
  exact ⟨sequence, count, by rw [hrun, htended, tended_new]⟩

end Mvcc.Scheduler

import Mathlib.Data.List.Nodup
import Mvcc.Proofs.Txn.Alive
import Mvcc.Proofs.Txn.Heartbeat

/-!
# Punctual heartbeats

The clock advances with the timer, and not past the time of a due heartbeat. Then every heartbeat
fires within an interval, under any operations in between.
-/

namespace Mvcc

/-! ## Punctual heartbeats -/

namespace Heartbeats

variable {beats : Heartbeats} {id other : TxnId} {beat : Heartbeat}

/-- Every transaction has at most one heartbeat, and each fires within an interval from now. -/
structure Punctual (beats : Heartbeats) : Prop where
  interval_pos : 0 < beats.interval
  distinct : (beats.running.map (·.txn)).Nodup
  due {beat : Heartbeat} (h : beat ∈ beats.running) : ∃ due, beat.due = some due ∧
    beats.timer ≤ due ∧ due ≤ beats.timer + beats.interval

theorem dueAfter_of_pos (h : 0 < beats.interval) (time : Nat) :
    beats.dueAfter time = some (time + beats.interval) :=
  if_neg (Nat.ne_of_gt h)

theorem Punctual.dueAfter_timer (h : beats.Punctual) :
    ∃ due, beats.dueAfter beats.timer = some due ∧ beats.timer ≤ due ∧
      due ≤ beats.timer + beats.interval :=
  ⟨_, dueAfter_of_pos h.interval_pos _, Nat.le_add_right .., Nat.le_refl _⟩

theorem punctual_new {interval : UInt64} (h : interval ≠ 0) : (new interval).Punctual where
  interval_pos := UInt64.pos_iff_ne_zero.2 h
  distinct := .nil
  due h := nomatch h

theorem Punctual.finish (h : beats.Punctual) (id : TxnId) : (beats.finish id).Punctual where
  interval_pos := h.interval_pos
  distinct := h.distinct.sublist (List.filter_sublist.map _)
  due hbeat := h.due (List.mem_filter.1 hbeat).1

theorem Punctual.announce (h : beats.Punctual) (signal : CancelSignal) :
    (beats.announce signal).Punctual :=
  let hfinish := h.finish signal.txn
  ⟨hfinish.interval_pos, hfinish.distinct, hfinish.due⟩

theorem Punctual.stopped (h : beats.Punctual) : beats.stopped.Punctual where
  interval_pos := h.interval_pos
  distinct := .nil
  due h := nomatch h

theorem Punctual.schedule (h : beats.Punctual) (id : TxnId) : (beats.schedule id).2.Punctual := by
  unfold Heartbeats.schedule
  cases hfound : beats.find? id with
  | some beat => exact h
  | none =>
    refine ⟨h.interval_pos, ?_, ?_⟩
    · have hnew : ∀ beat ∈ beats.running, beat.txn ≠ id := by
        simpa using List.find?_eq_none.1 hfound
      simp only [List.map_append, List.map_cons, List.map_nil]
      refine List.nodup_append.2 ⟨h.distinct, by simp, ?_⟩
      intro first hfirst second hsecond
      obtain ⟨beat, hbeat, rfl⟩ := List.mem_map.1 hfirst
      rw [List.mem_singleton.1 hsecond]
      exact hnew beat hbeat
    · intro beat hbeat
      cases List.mem_append.1 hbeat with
      | inl hbeat => exact h.due hbeat
      | inr hbeat =>
        rw [List.mem_singleton.1 hbeat]
        exact h.dueAfter_timer

theorem Punctual.postpone (h : beats.Punctual) (id : TxnId) :
    (beats.postpone id beats.timer).Punctual := by
  refine ⟨h.interval_pos, ?_, ?_⟩
  · have hsame : (beats.postpone id beats.timer).running.map (·.txn) =
        beats.running.map (·.txn) := by
      simp only [Heartbeats.postpone, List.map_map]
      congr 1
      funext beat
      dsimp only [Function.comp_apply]
      split <;> rfl
    rw [hsame]
    exact h.distinct
  · intro beat hbeat
    obtain ⟨old, hold, rfl⟩ := List.mem_map.1 hbeat
    split
    · exact h.dueAfter_timer
    · exact h.due hold

theorem Punctual.tick (h : beats.Punctual)
    (hidle : ∀ beat ∈ beats.running, beat.due ≠ some beats.timer) :
    { beats with timer := beats.timer + 1 : Heartbeats }.Punctual := by
  refine ⟨h.interval_pos, h.distinct, ?_⟩
  intro beat hbeat
  obtain ⟨due, hdue, hle, hlt⟩ := h.due hbeat
  have hne : due ≠ beats.timer := fun hnow => hidle beat hbeat (hnow ▸ hdue)
  refine ⟨due, hdue, ?_, ?_⟩
  · show beats.timer + 1 ≤ due
    omega
  · show due ≤ beats.timer + 1 + beats.interval
    omega

/-! ## The heartbeat of one transaction -/

theorem txn_of_find? (h : beats.find? id = some beat) : beat.txn = id := by
  simpa using List.find?_some h

theorem mem_of_find? (h : beats.find? id = some beat) : beat ∈ beats.running :=
  List.mem_of_find?_eq_some h

theorem Punctual.find?_eq (h : beats.Punctual) (hbeat : beat ∈ beats.running) :
    beats.find? beat.txn = some beat := by
  cases hfound : beats.find? beat.txn with
  | none =>
    have hne := List.find?_eq_none.1 hfound beat hbeat
    simp at hne
  | some found =>
    have hsame := List.inj_on_of_nodup_map h.distinct (mem_of_find? hfound) hbeat
      (txn_of_find? hfound)
    rw [hsame]

theorem find?_finish (h : other ≠ id) : (beats.finish other).find? id = beats.find? id := by
  simp only [find?, finish, List.find?_filter]
  congr 1
  funext beat
  by_cases hbeat : beat.txn = id
  · simp [hbeat, Ne.symm h]
  · simp [hbeat]

theorem find?_schedule_of_some (h : beats.find? id = some beat) (other : TxnId) :
    (beats.schedule other).2.find? id = some beat := by
  unfold schedule
  cases hother : beats.find? other with
  | some tracked => exact h
  | none =>
    simp only [find?] at h ⊢
    rw [List.find?_append, h]
    rfl

theorem exists_find?_schedule (beats : Heartbeats) (id : TxnId) :
    ∃ beat, (beats.schedule id).2.find? id = some beat := by
  apply Option.isSome_iff_exists.1
  have htracked : (beats.schedule id).2.isTracked id = true := by simp
  exact htracked

theorem find?_postpone (time : Nat) : (beats.postpone other time).find? id =
    (beats.find? id).map fun beat =>
      if beat.txn = other then { beat with due := beats.dueAfter time } else beat := by
  simp only [find?, postpone, List.find?_map]
  congr 2
  funext beat
  simp only [Function.comp_apply]
  split <;> rfl

theorem find?_postpone_of_ne (h : other ≠ id) (time : Nat) :
    (beats.postpone other time).find? id = beats.find? id := by
  rw [find?_postpone]
  cases hfound : beats.find? id with
  | none => rfl
  | some beat =>
    rw [Option.map_some, if_neg]
    rw [txn_of_find? hfound]
    exact Ne.symm h

theorem find?_postpone_self (h : beats.find? id = some beat) (time : Nat) :
    (beats.postpone id time).find? id = some { beat with due := beats.dueAfter time } := by
  rw [find?_postpone, h, Option.map_some, if_pos (txn_of_find? h)]

end Heartbeats

namespace TendedLedger

open TxnM

variable {τ : Type} [TimestampSource τ] {s : TendedLedger τ} {id : TxnId}

/-! ## Events -/

inductive Act where
  | operation (op : Ledger.Operation)
  | schedule (id : TxnId)
  | cancel (id : TxnId) (reason : String)
  | finish (id : TxnId)
  | shutdown
  /-- A heartbeat that is due fires. -/
  | beat (id : TxnId)
  /-- Clock and timer advance by one millisecond, unless a heartbeat is due. -/
  | tick

def isDue (s : TendedLedger τ) (id : TxnId) : Bool :=
  (s.beats.find? id).any (·.due = some s.beats.timer)

/-- Time may advance: no heartbeat is due, and the clock does not overflow. -/
def isIdle (s : TendedLedger τ) : Bool :=
  s.beats.running.all (·.due ≠ some s.beats.timer) && s.ledger.now ≠ Word.greatest

def step (s : TendedLedger τ) : Act → TendedLedger τ
  | .operation op => { s with ledger := s.ledger.after op }
  | .schedule id => { s with beats := (s.beats.schedule id).2 }
  | .cancel id reason =>
    match cancel id reason s with
    | .ok _ s' => s'
    | .error _ s' => s'
  | .finish id => { s with beats := s.beats.finish id }
  | .shutdown => s.shutdown
  | .beat id => if s.isDue id then s.beat s.beats.timer id else s
  | .tick =>
    if s.isIdle then
      { ledger := s.ledger.after (.clock (s.ledger.now + 1))
        beats := { s.beats with timer := s.beats.timer + 1 } }
    else s

def run (s : TendedLedger τ) (acts : List Act) : TendedLedger τ := acts.foldl step s

theorem step_beat (s : TendedLedger τ) (id : TxnId) :
    s.step (.beat id) = if s.isDue id then s.beat s.beats.timer id else s := rfl

theorem step_tick (s : TendedLedger τ) : s.step .tick =
    if s.isIdle then
      { ledger := s.ledger.after (.clock (s.ledger.now + 1))
        beats := { s.beats with timer := s.beats.timer + 1 } }
    else s := rfl

theorem step_shutdown (s : TendedLedger τ) : s.step .shutdown = s.shutdown := rfl

/-- Something holds of every act of a run and the state in which it begins. -/
def Always (p : TendedLedger τ → Act → Prop) : TendedLedger τ → List Act → Prop
  | _, [] => True
  | s, act :: acts => p s act ∧ Always p (s.step act) acts

/-- Only a tick changes the clock, the storage is available, and the source has supply for the act.
-/
def Regular [AscendingSource τ] (s : TendedLedger τ) : Act → Prop
  | .operation op => op.isSteady = true ∧ op.Supplied s.ledger.register
  | _ => True

/-- The act finishes a transaction or stops its heartbeat. -/
def Closes (id : TxnId) (s : TendedLedger τ) : Act → Prop
  | .operation op => op.Closes id s.ledger
  | .cancel other _ | .finish other => other = id
  | .shutdown => True
  | _ => False

/-- A regular act that does not close a transaction. -/
def Spares [AscendingSource τ] (id : TxnId) (s : TendedLedger τ) (act : Act) : Prop :=
  s.Regular act ∧ ¬ s.Closes id act

@[simp] theorem run_cons (s : TendedLedger τ) (act : Act) (acts : List Act) :
    s.run (act :: acts) = (s.step act).run acts := rfl

theorem run_append (s : TendedLedger τ) (acts later : List Act) :
    s.run (acts ++ later) = (s.run acts).run later :=
  List.foldl_append

theorem always_append {p : TendedLedger τ → Act → Prop} {acts later : List Act} :
    s.Always p (acts ++ later) ↔ s.Always p acts ∧ (s.run acts).Always p later := by
  induction acts generalizing s with
  | nil => simp [Always, run]
  | cons act acts ih => simp [Always, ih, and_assoc]

/-! ## Effects of an act -/

theorem beat_ledger (s : TendedLedger τ) (time : Nat) (id : TxnId) :
    (s.beat time id).ledger = s.ledger.after (.keepAlive id) := by
  refine Ledger.after_of_ends (p := ((s.beat time id).ledger = ·))
    (ends_map.2 (.of_forall ?_ ?_))
  · intro alive ledger hkept
    cases alive <;> simp [beat, hkept]
  · intro e ledger hfailed
    simp [beat, hfailed]

theorem cancel_eq (s : TendedLedger τ) (id : TxnId) (reason : String) :
    s.step (.cancel id reason) =
      ⟨s.ledger.after (.rollback id), s.beats.announce ⟨id, reason⟩⟩ := by
  have hends : Leaves (cancel id reason) s
      (· = ⟨s.ledger.after (.rollback id), s.beats.announce ⟨id, reason⟩⟩) := by
    simp only [cancel, ends_bind, ends_modify, ends_within]
    refine .of_forall ?_ ?_
    · intro _ ledger hrolled
      simp [Ledger.after, Ledger.Operation.steps, hrolled]
    · intro e ledger hfailed
      simp [Ledger.after, Ledger.Operation.steps, hfailed]
  cases hcancel : cancel id reason s with
  | ok _ s' =>
    simp only [step, hcancel]
    exact hends.of_ok hcancel
  | error e s' =>
    simp only [step, hcancel]
    exact hends.of_error hcancel

theorem shutdown_eq (s : TendedLedger τ) : s.shutdown =
    ⟨s.ledger.run (s.beats.running.map (.rollback ·.txn)), s.beats.stopped⟩ := by
  unfold shutdown Ledger.run
  generalize s.beats.stopped = stopped
  generalize s.ledger = ledger
  induction s.beats.running generalizing ledger with
  | nil => rfl
  | cons beat running ih =>
    rw [List.foldl_cons, List.map_cons, List.foldl_cons, ← ih]
    congr 1
    cases hrolled : Ledger.rollback beat.txn ledger with
    | ok _ rolled => simp [Ledger.after, Ledger.Operation.steps, hrolled]
    | error e rolled => simp [Ledger.after, Ledger.Operation.steps, hrolled]

omit [TimestampSource τ] in
theorem beat_induction {p : Heartbeats → Prop} {time : Nat} (hfinish : p (s.beats.finish id))
    (hpostpone : ∀ failures, p { s.beats.postpone id time with failures }) :
    p (s.beat time id).beats := by
  unfold beat
  cases Ledger.keepAlive id s.ledger with
  | ok alive ledger =>
    cases alive with
    | true => exact hpostpone s.beats.failures
    | false => exact hfinish
  | error e ledger => exact hpostpone (s.beats.failures + 1)

omit [TimestampSource τ] in
theorem not_due_of_idle (h : s.isIdle = true) :
    ∀ beat ∈ s.beats.running, beat.due ≠ some s.beats.timer := by
  simpa using (Bool.and_eq_true_iff.1 h).1

omit [TimestampSource τ] in
theorem now_add_one_of_idle (h : s.isIdle = true) :
    (s.ledger.now + 1).toNat = s.ledger.now.toNat + 1 := by
  have hne : s.ledger.now ≠ Word.greatest := by simpa using (Bool.and_eq_true_iff.1 h).2
  have hlt := s.ledger.now.toNat_lt
  have hgreatest : Word.greatest.toNat = 18446744073709551615 := rfl
  have hbelow : s.ledger.now.toNat ≠ Word.greatest.toNat :=
    fun hsame => hne (UInt64.toNat_inj.1 hsame)
  have hsum : (s.ledger.now + 1).toNat = (s.ledger.now.toNat + 1) % 2 ^ 64 :=
    UInt64.toNat_add _ 1
  rw [hsum, Nat.mod_eq_of_lt (by omega)]

theorem pace_step (s : TendedLedger τ) (act : Act) (htick : act ≠ .tick) :
    (s.step act).beats.interval = s.beats.interval ∧
      (s.step act).beats.timer = s.beats.timer := by
  cases act with
  | operation op => exact ⟨rfl, rfl⟩
  | schedule id =>
    simp only [step, Heartbeats.schedule]
    split
    · exact ⟨rfl, rfl⟩
    · exact ⟨rfl, rfl⟩
  | cancel id reason =>
    rw [cancel_eq]
    exact ⟨rfl, rfl⟩
  | finish id => exact ⟨rfl, rfl⟩
  | shutdown =>
    rw [step_shutdown, shutdown_eq]
    exact ⟨rfl, rfl⟩
  | beat id =>
    rw [step_beat]
    split
    · exact beat_induction
        (p := fun beats => beats.interval = s.beats.interval ∧ beats.timer = s.beats.timer)
        ⟨rfl, rfl⟩ fun _ => ⟨rfl, rfl⟩
    · exact ⟨rfl, rfl⟩
  | tick => exact absurd rfl htick

theorem interval_step (s : TendedLedger τ) (act : Act) :
    (s.step act).beats.interval = s.beats.interval := by
  by_cases htick : act = .tick
  · subst htick
    rw [step_tick]
    split
    · rfl
    · rfl
  · exact (pace_step s act htick).1

/-- An act that is no beat of its own and does not close the transaction preserves its heartbeat. -/
theorem find?_step {act : Act} {beat : Heartbeat} (h : s.beats.find? id = some beat)
    (hopen : ¬ s.Closes id act) (hbeat : act ≠ .beat id) :
    (s.step act).beats.find? id = some beat := by
  cases act with
  | operation op => exact h
  | schedule other => exact Heartbeats.find?_schedule_of_some h other
  | cancel other reason =>
    rw [cancel_eq]
    exact (Heartbeats.find?_finish hopen).trans h
  | finish other => exact (Heartbeats.find?_finish hopen).trans h
  | shutdown => exact absurd trivial hopen
  | beat other =>
    have hother : other ≠ id := fun hsame => hbeat (hsame ▸ rfl)
    rw [step_beat]
    split
    · apply beat_induction (p := fun beats => beats.find? id = some beat)
      · exact (Heartbeats.find?_finish hother).trans h
      · intro failures
        exact (Heartbeats.find?_postpone_of_ne hother _).trans h
    · exact h
  | tick =>
    rw [step_tick]
    split
    · exact h
    · exact h

theorem punctual_step (h : s.beats.Punctual) (act : Act) : (s.step act).beats.Punctual := by
  cases act with
  | operation op => exact h
  | schedule id => exact h.schedule id
  | cancel id reason =>
    rw [cancel_eq]
    exact h.announce _
  | finish id => exact h.finish id
  | shutdown =>
    rw [step_shutdown, shutdown_eq]
    exact h.stopped
  | beat id =>
    rw [step_beat]
    split
    · apply beat_induction (p := Heartbeats.Punctual)
      · exact h.finish id
      · intro failures
        have hpostpone := h.postpone id
        exact ⟨hpostpone.interval_pos, hpostpone.distinct, hpostpone.due⟩
    · exact h
  | tick =>
    rw [step_tick]
    split
    · rename_i hidle
      exact h.tick (not_due_of_idle hidle)
    · exact h

/-! ## The timer -/

theorem foldl_beat_eq_run {timer : Nat} {due : List Heartbeat} (htimer : s.beats.timer = timer)
    (hdistinct : (due.map (·.txn)).Nodup)
    (hdue : ∀ beat ∈ due, s.beats.find? beat.txn = some beat ∧ beat.due = some timer) :
    due.foldl (fun s' beat => s'.beat timer beat.txn) s = s.run (due.map (.beat ·.txn)) ∧
      (s.run (due.map (.beat ·.txn))).beats.timer = timer := by
  induction due generalizing s with
  | nil => exact ⟨rfl, htimer⟩
  | cons beat due ih =>
    rw [List.map_cons, List.nodup_cons] at hdistinct
    rw [List.forall_mem_cons] at hdue
    have hstep : s.step (.beat beat.txn) = s.beat timer beat.txn := by
      have hisDue : s.isDue beat.txn = true := by simp [isDue, hdue.1, htimer]
      rw [step_beat, hisDue, if_pos rfl, htimer]
    rw [List.foldl_cons, List.map_cons, run_cons, ← hstep]
    refine ih ((pace_step s (.beat beat.txn) nofun).2.trans htimer) hdistinct.2 ?_
    intro other hother
    refine ⟨find?_step (hdue.2 other hother).1 not_false ?_, (hdue.2 other hother).2⟩
    intro hsame
    have hmem := List.mem_map_of_mem (f := fun beat => beat.txn) hother
    rw [← Act.beat.inj hsame] at hmem
    exact hdistinct.1 hmem

def showing (s : TendedLedger τ) (timer : Nat) : TendedLedger τ :=
  { s with beats := { s.beats with timer := timer } }

theorem beatsAt_eq_run {timer : Nat} (h : (s.showing timer).beats.Punctual) :
    s.beatsAt timer = (s.showing timer).run
        ((s.beats.running.filter (·.due = some timer)).map (.beat ·.txn)) ∧
      (s.beatsAt timer).beats.timer = timer := by
  have hdue : ∀ beat ∈ s.beats.running.filter (·.due = some timer),
      (s.showing timer).beats.find? beat.txn = some beat ∧ beat.due = some timer := by
    intro beat hbeat
    obtain ⟨hmem, hdue⟩ := List.mem_filter.1 hbeat
    exact ⟨h.find?_eq hmem, of_decide_eq_true hdue⟩
  obtain ⟨hrun, htimer⟩ := foldl_beat_eq_run (s := s.showing timer) rfl
    (h.distinct.sublist (List.filter_sublist.map _)) hdue
  exact ⟨hrun, (congrArg (·.beats.timer) hrun).trans htimer⟩

/-- When the timer advances to a moment before which nothing is due, the heartbeats due then fire.
-/
theorem runTo_one {timer : Nat} (h : (s.showing timer).beats.Punctual) :
    runTo timer 1 s = s.beatsAt timer := by
  have hnothing : (∀ beat ∈ s.beats.running, beat.due ≠ some timer) →
      s.beatsAt timer = s.showing timer := by
    intro hnone
    have hfilter : s.beats.running.filter (·.due = some timer) = [] := by
      simpa using hnone
    simp only [beatsAt, hfilter, List.foldl_nil]
    rfl
  unfold runTo
  cases hnext : s.beats.nextDue with
  | none =>
    have hnone := List.filterMap_eq_nil_iff.1 (List.min?_eq_none_iff.1 hnext)
    refine (hnothing fun beat hbeat hdue => ?_).symm
    cases (hnone beat hbeat).symm.trans hdue
  | some time =>
    obtain ⟨hmem, hmin⟩ := List.min?_eq_some_iff.1 hnext
    obtain ⟨beat, hbeat, hdue⟩ := List.mem_filterMap.1 hmem
    obtain ⟨due, hdue', hle, -⟩ := h.due hbeat
    cases hdue.symm.trans hdue'
    by_cases htime : time ≤ timer
    · cases Nat.le_antisymm htime hle
      have htimer := (beatsAt_eq_run h).2
      simp only [htime, if_true, runTo]
      generalize s.beatsAt _ = ended at *
      rw [← htimer]
    · simp only [htime, if_false]
      refine (hnothing fun beat hbeat hdue => htime ?_).symm
      exact hmin timer (List.mem_filterMap.2 ⟨beat, hbeat, hdue⟩)

/-- Advancing the timer by one after the clock advanced is a tick followed by a beat of every
heartbeat due. -/
theorem elapse_one (h : s.beats.Punctual) (hidle : s.isIdle = true) :
    elapse { s with ledger := s.ledger.after (.clock (s.ledger.now + 1)) } 1 =
      (s.step .tick).run ((s.beats.running.filter (·.due = some (s.beats.timer + 1))).map
        (.beat ·.txn)) := by
  rw [step_tick, hidle, if_pos rfl]
  generalize s.ledger.after (.clock (s.ledger.now + 1)) = ledger
  have hticked : (showing { s with ledger } (s.beats.timer + 1)).beats.Punctual :=
    h.tick (not_due_of_idle hidle)
  exact (runTo_one hticked).trans (beatsAt_eq_run hticked).1

end TendedLedger

end Mvcc

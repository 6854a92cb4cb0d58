import Mvcc.Proofs.Txn.Simulation
import Mvcc.Txn.Heartbeat

/-!
# Heartbeats

Heartbeats write keep-alive timestamps and rollbacks only. Only scheduled transactions are tracked,
and a heartbeat ends by itself only when its transaction is finished.
-/

namespace Mvcc

namespace Heartbeats

variable {beats : Heartbeats} {id other : TxnId}

theorem isTracked_eq_any (beats : Heartbeats) (id : TxnId) :
    beats.isTracked id = beats.running.any (·.txn = id) := by
  unfold isTracked find?
  induction beats.running with
  | nil => rfl
  | cons beat running ih =>
    rw [List.find?_cons, List.any_cons]
    cases decide (beat.txn = id) with
    | true => rfl
    | false => exact ih

@[simp] theorem isTracked_schedule :
    (beats.schedule id).2.isTracked other = (decide (id = other) || beats.isTracked other) := by
  unfold schedule
  cases hfound : beats.find? id with
  | some beat =>
    have htracked : beats.isTracked id = true := by rw [isTracked, hfound]; rfl
    by_cases hother : id = other
    · simp only [← hother, htracked, Bool.or_true]
    · simp [hother]
  | none => simp [isTracked_eq_any, Bool.or_comm]

@[simp] theorem isTracked_finish :
    (beats.finish id).isTracked other = (decide (id ≠ other) && beats.isTracked other) := by
  simp only [isTracked_eq_any, finish, List.any_filter]
  by_cases hother : id = other
  · subst hother
    simp
  · simp only [ne_eq, hother, not_false_eq_true, decide_true, Bool.true_and]
    refine List.any_congr rfl fun beat => ?_
    by_cases hbeat : beat.txn = other
    · simp [hbeat, Ne.symm hother]
    · simp [hbeat]

@[simp] theorem isTracked_announce {signal : CancelSignal} :
    (beats.announce signal).isTracked other =
      (decide (signal.txn ≠ other) && beats.isTracked other) :=
  isTracked_finish

@[simp] theorem isTracked_postpone {time : Nat} :
    (beats.postpone id time).isTracked other = beats.isTracked other := by
  simp only [isTracked_eq_any, postpone, List.any_map]
  refine List.any_congr rfl fun beat => ?_
  dsimp only [Function.comp_apply]
  split <;> rfl

end Heartbeats

namespace TendedLedger

open TxnM

variable {τ : Type} {s : TendedLedger τ}

theorem beat_stepped (hs : s.ledger.Legible) (time : Nat) (id : TxnId) :
    s.ledger.Stepped (s.beat time id).ledger := by
  have hends := @Ledger.keepAlive_ends _ s.ledger id hs
  unfold beat
  cases hbeat : Ledger.keepAlive id s.ledger with
  | ok alive ledger => cases alive <;> exact hends.of_ok hbeat
  | error e ledger => exact hends.of_error hbeat

/-- A property preserved by ticks and beats is preserved by the passing of time. -/
theorem elapse_induction {p : TendedLedger τ → Prop}
    (htimer : ∀ s timer, p s → p { s with beats := { s.beats with timer := timer } })
    (hbeat : ∀ s time id, p s → p (s.beat time id)) (hs : p s) (milliseconds : Nat) :
    p (s.elapse milliseconds) := by
  have hbeatsAt : ∀ s time, p s → p (s.beatsAt time) := fun s time hs =>
    List.foldlRecOn (motive := p) _ _ (htimer s time hs) fun s' hs' b _ => hbeat s' time b.txn hs'
  suffices hrun : ∀ target fuel s, p s → p (runTo target fuel s) from hrun _ _ s hs
  intro target fuel
  induction fuel with
  | zero => exact fun s hs => htimer s target hs
  | succ fuel ih =>
    intro s hs
    unfold runTo
    split
    · split
      · exact ih _ (hbeatsAt s _ hs)
      · exact htimer s target hs
    · exact htimer s target hs

theorem elapse_stepped (hs : s.ledger.Legible) (milliseconds : Nat) :
    s.ledger.Stepped (s.elapse milliseconds).ledger :=
  elapse_induction (p := fun s' => s.ledger.Stepped s'.ledger) (fun _ _ h => h)
    (fun _ time id h => h.trans (beat_stepped h.1 time id)) (.refl hs) milliseconds

theorem cancel_ends (hs : s.ledger.Legible) (id : TxnId) (reason : String) :
    Leaves (cancel id reason) s fun s' => s.ledger.Stepped s'.ledger := by
  simp only [cancel, ends_bind, ends_modify, ends_within]
  exact Ledger.rollback_ends hs

theorem shutdown_stepped (hs : s.ledger.Legible) : s.ledger.Stepped s.shutdown.ledger := by
  refine List.foldlRecOn (motive := fun s' : TendedLedger τ => s.ledger.Stepped s'.ledger) _ _
    (.refl hs) fun s' hstepped beat _ => ?_
  have hrollback : Leaves (Ledger.rollback beat.txn) s'.ledger s'.ledger.Stepped :=
    Ledger.rollback_ends hstepped.1
  cases hresult : Ledger.rollback beat.txn s'.ledger with
  | ok _ ledger => exact hstepped.trans (hrollback.of_ok hresult)
  | error e ledger => exact hstepped.trans (hrollback.of_error hresult)

end TendedLedger

end Mvcc

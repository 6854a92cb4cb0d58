import Mvcc.Proofs.Txn.Punctual

/-!
# Heartbeats and the clock

While the clock advances with the timer and due heartbeats fire, the keep-alive timestamp of a
tracked transaction is at most an interval old, which valid settings keep below the timeout.
-/

namespace Mvcc.TendedLedger

open Ledger.Operation (supplied_of_not_asks)

variable {τ : Type} [TimestampSource τ] {s : TendedLedger τ} {id : TxnId} {time : Nat}

section Tended

variable [AscendingSource τ] {act : Act}

/-- A healthy ledger with punctual heartbeats, whose interval is below the timeout. -/
structure Tended (s : TendedLedger τ) : Prop where
  healthy : s.ledger.Healthy
  punctual : s.beats.Punctual
  interval_lt : s.beats.interval < s.ledger.settings.timeout.toNat

theorem now_step (hregular : s.Regular act) (htick : act ≠ .tick) :
    (s.step act).ledger.now = s.ledger.now := by
  cases act with
  | operation op => exact (Ledger.within_after hregular.1).now
  | schedule id => rfl
  | cancel id reason =>
    rw [cancel_eq]
    exact (Ledger.within_after rfl).now
  | finish id => rfl
  | shutdown =>
    show s.shutdown.ledger.now = s.ledger.now
    rw [shutdown_eq]
    refine List.foldlRecOn (motive := fun s' : Ledger τ => s'.now = s.ledger.now) _ _ rfl ?_
    intro s' hs' op hop
    obtain ⟨beat, -, rfl⟩ := List.mem_map.1 hop
    exact (Ledger.within_after rfl).now.trans hs'
  | beat id =>
    simp only [step]
    split
    · rw [beat_ledger]
      exact (Ledger.within_after rfl).now
    · rfl
  | tick => exact absurd rfl htick

theorem healthy_shutdown (h : s.ledger.Healthy) :
    s.shutdown.ledger.Healthy ∧
      s.shutdown.ledger.settings.timeout = s.ledger.settings.timeout := by
  rw [shutdown_eq]
  refine List.foldlRecOn (motive := fun s' : Ledger τ =>
    s'.Healthy ∧ s'.settings.timeout = s.ledger.settings.timeout) _ _ ⟨h, rfl⟩ ?_
  intro s' hs' op hop
  obtain ⟨beat, -, rfl⟩ := List.mem_map.1 hop
  exact ⟨hs'.1.after_steady (supplied_of_not_asks rfl) rfl, (Ledger.timeout_after _).trans hs'.2⟩

theorem Tended.healthy_step (h : s.Tended) (hregular : s.Regular act) :
    (s.step act).ledger.Healthy ∧
      (s.step act).ledger.settings.timeout = s.ledger.settings.timeout := by
  cases act with
  | operation op =>
    exact ⟨h.healthy.after_steady hregular.2 hregular.1, Ledger.timeout_after op⟩
  | schedule id => exact ⟨h.healthy, rfl⟩
  | cancel id reason =>
    rw [cancel_eq]
    exact ⟨h.healthy.after_steady (supplied_of_not_asks rfl) rfl, Ledger.timeout_after _⟩
  | finish id => exact ⟨h.healthy, rfl⟩
  | shutdown => exact healthy_shutdown h.healthy
  | beat id =>
    simp only [step]
    split
    · rw [beat_ledger]
      exact ⟨h.healthy.after_steady (supplied_of_not_asks rfl) rfl, Ledger.timeout_after _⟩
    · exact ⟨h.healthy, rfl⟩
  | tick =>
    simp only [step]
    split
    · rename_i hidle
      have hforward : s.ledger.now ≤ s.ledger.now + 1 := by
        rw [UInt64.le_iff_toNat_le, now_add_one_of_idle hidle]
        exact Nat.le_succ _
      have hhealthy : (s.ledger.after (.clock (s.ledger.now + 1))).Healthy :=
        h.healthy.after (supplied_of_not_asks rfl) hforward rfl
      exact ⟨hhealthy, rfl⟩
    · exact ⟨h.healthy, rfl⟩

theorem Tended.step (h : s.Tended) (hregular : s.Regular act) : (s.step act).Tended := by
  obtain ⟨hhealthy, htimeout⟩ := h.healthy_step hregular
  refine ⟨hhealthy, punctual_step h.punctual act, ?_⟩
  rw [interval_step, htimeout]
  exact h.interval_lt

/-! ## Keep-alive timestamps under an act -/

theorem Tended.shows_step (h : s.Tended) (hspares : s.Spares id act)
    (hshows : s.ledger.ShowsSince id time) (hnear : s.ledger.Near time) :
    (s.step act).ledger.ShowsSince id time := by
  obtain ⟨hregular, hopen⟩ := hspares
  cases act with
  | operation op => exact h.healthy.shows_after hregular.1 hregular.2 hshows hnear hopen
  | schedule other => exact hshows
  | cancel other reason =>
    rw [cancel_eq]
    exact h.healthy.shows_after rfl (supplied_of_not_asks rfl) hshows hnear
      fun hcloses => hopen hcloses.1
  | finish other => exact hshows
  | shutdown => exact absurd trivial hopen
  | beat other =>
    simp only [TendedLedger.step]
    split
    · rw [beat_ledger]
      exact h.healthy.shows_after rfl (supplied_of_not_asks rfl) hshows hnear
        fun hcloses => hcloses.1
    · exact hshows
  | tick =>
    simp only [TendedLedger.step]
    split
    · exact hshows
    · exact hshows

/-- The heartbeat of an active transaction is due at most an interval after its keep-alive
timestamp. -/
def Kept (s : TendedLedger τ) (id : TxnId) : Prop :=
  ∃ time beat due, s.ledger.ShowsSince id time ∧ s.beats.find? id = some beat ∧
    beat.due = some due ∧ s.ledger.now.toNat + due ≤ time + s.beats.interval + s.beats.timer

theorem Tended.near (h : s.Tended) {beat : Heartbeat} {due : Nat}
    (hfound : s.beats.find? id = some beat) (hdue : beat.due = some due)
    (hle : s.ledger.now.toNat + due ≤ time + s.beats.interval + s.beats.timer) :
    s.ledger.Near time := by
  obtain ⟨due', hdue', htimer, -⟩ := h.punctual.due (Heartbeats.mem_of_find? hfound)
  cases hdue.symm.trans hdue'
  have hinterval := h.interval_lt
  unfold Ledger.Near
  omega

/-- A heartbeat that fires stores a keep-alive timestamp, and the next one is due an interval later.
-/
theorem Tended.kept_beat (h : s.Tended) (hkept : s.Kept id) :
    (s.beat s.beats.timer id).Kept id := by
  obtain ⟨time, beat, due, hshows, hfound, hdue, hle⟩ := hkept
  have hends := h.healthy.keepAlive_shows hshows (h.near hfound hdue hle)
  cases halive : Ledger.keepAlive id s.ledger with
  | ok alive ledger =>
    obtain ⟨rfl, hshown⟩ := hends.of_ok halive
    have hnow : ledger.now = s.ledger.now :=
      ((Ledger.confined_keepAlive id s.ledger).of_ok halive).now
    have hbeat : s.beat s.beats.timer id = ⟨ledger, s.beats.postpone id s.beats.timer⟩ := by
      simp only [TendedLedger.beat, halive]
    rw [hbeat]
    refine ⟨_, _, _, hshown, Heartbeats.find?_postpone_self hfound _,
      Heartbeats.dueAfter_of_pos h.punctual.interval_pos _, ?_⟩
    show ledger.now.toNat + (s.beats.timer + s.beats.interval) ≤
      max s.ledger.now.toNat time + s.beats.interval + s.beats.timer
    rw [hnow]
    omega
  | error e ledger => exact (hends.of_error halive).elim

theorem Tended.kept_step (h : s.Tended) (hkept : s.Kept id) (hspares : s.Spares id act) :
    (s.step act).Kept id := by
  by_cases hbeat : act = .beat id
  · subst hbeat
    simp only [TendedLedger.step]
    split
    · exact h.kept_beat hkept
    · exact hkept
  · -- The same sign of life counts, and the heartbeat is due when it was.
    obtain ⟨time, beat, due, hshows, hfound, hdue, hle⟩ := hkept
    have hnear := h.near hfound hdue hle
    have hstep := h.shows_step hspares hshows hnear
    refine ⟨time, beat, due, hstep, find?_step hfound hspares.2 hbeat, hdue, ?_⟩
    by_cases htick : act = .tick
    · subst htick
      simp only [TendedLedger.step]
      split
      · rename_i hidle
        have hnow := now_add_one_of_idle hidle
        show (s.ledger.now + 1).toNat + due ≤ time + s.beats.interval + (s.beats.timer + 1)
        omega
      · exact hle
    · obtain ⟨hinterval, htimer⟩ := pace_step s act htick
      rw [now_step hspares.1 htick, hinterval, htimer]
      exact hle

/-! ## Runs -/

variable {acts : List Act}

theorem Tended.run (h : s.Tended) (hregular : s.Always Regular acts) : (s.run acts).Tended := by
  induction acts generalizing s with
  | nil => exact h
  | cons act acts ih => exact ih (h.step hregular.1) hregular.2

/-- A transaction stays kept until an act closes it. -/
theorem Tended.kept_run (h : s.Tended) (hkept : s.Kept id) (hspares : s.Always (Spares id) acts) :
    (s.run acts).Tended ∧ (s.run acts).Kept id := by
  induction acts generalizing s with
  | nil => exact ⟨h, hkept⟩
  | cons act acts ih =>
    have hstep := h.kept_step hkept hspares.1
    exact ih (h.step hspares.1.1) hstep hspares.2

theorem Tended.shows_run (h : s.Tended) (hshows : s.ledger.ShowsSince id s.ledger.now.toNat)
    (htick : .tick ∉ acts) (hspares : s.Always (Spares id) acts) :
    (s.run acts).Tended ∧
      (s.run acts).ledger.ShowsSince id (s.run acts).ledger.now.toNat := by
  induction acts generalizing s with
  | nil => exact ⟨h, hshows⟩
  | cons act acts ih =>
    rw [List.mem_cons, not_or] at htick
    have hnear : s.ledger.Near s.ledger.now.toNat := Nat.le_add_right _ _
    have hstep := h.shows_step hspares.1 hshows hnear
    rw [← now_step hspares.1.1 (Ne.symm htick.1)] at hstep
    exact ih (h.step hspares.1.1) hstep htick.2 hspares.2

theorem Tended.kept_schedule (h : s.Tended) (hshows : s.ledger.ShowsSince id s.ledger.now.toNat) :
    (s.step (.schedule id)).Kept id := by
  obtain ⟨beat, hfound⟩ := s.beats.exists_find?_schedule id
  have hpunctual := h.punctual.schedule id
  obtain ⟨due, hdue, -, hle⟩ := hpunctual.due (Heartbeats.mem_of_find? hfound)
  refine ⟨_, beat, due, hshows, hfound, hdue, ?_⟩
  show s.ledger.now.toNat + due ≤ s.ledger.now.toNat + (s.beats.schedule id).2.interval +
    (s.beats.schedule id).2.timer
  omega

/-! ## Live transactions never time out -/

def new (name : String) (source : τ) (now : UInt64) (settings : TxnSettings) : TendedLedger τ :=
  ⟨.new name source now settings, .new settings.keepAliveInterval⟩

/-- Valid settings have an interval below the timeout. -/
theorem tended_new {name : String} {source : τ} {now : UInt64} {settings : TxnSettings}
    (h : settings.validate = .ok ()) : (new name source now settings).Tended := by
  unfold TxnSettings.validate at h
  split at h
  · cases h
  · rename_i hpos
    split at h
    · cases h
    · rename_i hlt
      refine ⟨?_, Heartbeats.punctual_new hpos, ?_⟩
      · exact
          { legible := fun _ => .inl rfl
            sound := Ledger.sound_new
            faithful := Ledger.faithful_new
            writable := ⟨rfl, rfl⟩ }
      · exact UInt64.lt_iff_toNat_lt.1 (UInt64.not_le.1 hlt)

theorem shows_create {parent : Option TxnId} {isolation : Option Isolation}
    {additive : Option Bool} {ledger ledger' : Ledger τ} {txn : Txn} (h : ledger.Healthy)
    (hfresh : ledger.register.Fresh)
    (hcreate : Ledger.create parent isolation additive ledger = .ok txn ledger') :
    ledger'.ShowsSince txn.id ledger'.now.toNat := by
  obtain ⟨-, r, source, -, -, htxn, hregister⟩ :=
    (Ledger.create_begins h.legible hfresh parent isolation additive).of_ok hcreate
  have hnow : ledger'.now = ledger.now :=
    ((Ledger.confined_create parent isolation additive ledger).of_ok hcreate).now
  refine ⟨txn, Ledger.records_of_put hregister, congrArg Txn.state htxn, ?_⟩
  have hkeepAlive : txn.keepAlive = ledger.now := congrArg Txn.keepAlive htxn
  exact Nat.le_of_eq (by rw [hnow, hkeepAlive])

/-- With valid settings, available storage and a source that does not wrap: a transaction that is
scheduled when it begins is live from then on, for any progress of clock and timer, until an act
closes it. -/
theorem isLive_of_scheduled (name : String) (source : τ) (now : UInt64) (settings : TxnSettings)
    (hvalid : settings.validate = .ok ()) (before between later : List Act)
    (parent : Option TxnId) (isolation : Option Isolation) (additive : Option Bool) (txn : Txn)
    (ledger : Ledger τ)
    (hregular : (new name source now settings).Always Regular
      (before ++ [.operation (.create parent isolation additive)]))
    (hcreate : Ledger.create parent isolation additive
      ((new name source now settings).run before).ledger = .ok txn ledger)
    (hmoment : .tick ∉ between)
    (hspares : Always (Spares txn.id) ⟨ledger, ((new name source now settings).run before).beats⟩
      (between ++ .schedule txn.id :: later)) :
    (run ⟨ledger, ((new name source now settings).run before).beats⟩
      (between ++ .schedule txn.id :: later)).ledger.IsLive txn.id := by
  obtain ⟨hbefore, hcreates, -⟩ := always_append.1 hregular
  have hready := (tended_new hvalid).run hbefore
  generalize (new name source now settings).run before = s at *
  have hfresh := hready.healthy.sound.fresh (hcreates.2 rfl)
  have hshows := shows_create hready.healthy hfresh hcreate
  have hbegun : (⟨ledger, s.beats⟩ : TendedLedger τ).Tended := by
    have hafter : s.ledger.after (.create parent isolation additive) = ledger :=
      Ledger.after_of_ok rfl hcreate
    rw [← hafter]
    exact hready.step hcreates
  obtain ⟨hbetween, hscheduled, hlater⟩ := always_append.1 hspares
  rw [run_append, run_cons]
  obtain ⟨htended, hnow⟩ := hbegun.shows_run hshows hmoment hbetween
  obtain ⟨hend, time, beat, due, hkept, hfound, hdue, hle⟩ :=
    (htended.step hscheduled.1).kept_run (htended.kept_schedule hnow) hlater
  exact hend.healthy.isLive hkept (hend.near hfound hdue hle)

end Tended

def brisk : TxnSettings := ⟨2, 3, 0, 65536, 30000⟩

/-- The first transaction has just begun. -/
def begun : TendedLedger Oracle := ⟨(Ledger.fromZero brisk).after (.create none none none), .new 2⟩

/-- Two beats and five milliseconds after it began, a transaction is live whose timeout is three. -/
theorem isLive_of_scheduled_past_timeout :
    brisk.validate = .ok () ∧
      Ledger.create none none none (Ledger.fromZero brisk) =
        .ok (.entered 1 begun.ledger.now none none none) begun.ledger ∧
      (begun.run [.operation (.commit 7), .schedule 1, .tick, .tick, .beat 1, .tick, .tick,
        .beat 1, .tick]).ledger.now = begun.ledger.now + 5 ∧
      (begun.run [.operation (.commit 7), .schedule 1, .tick, .tick, .beat 1, .tick, .tick,
        .beat 1, .tick]).ledger.IsLive 1 := by
  have hspares : begun.Always (Spares 1) [.operation (.commit 7), .schedule 1, .tick, .tick,
      .beat 1, .tick, .tick, .beat 1, .tick] := by
    simp only [Always, Spares, Regular, Closes, Ledger.Operation.Closes]
    refine ⟨⟨⟨rfl, fun _ => by decide⟩, ?_⟩, ?_⟩
    · intro hcloses
      have hother : (7 : TxnId) = 1 := hcloses.1
      cases hother
    · simp
  refine ⟨rfl, rfl, by decide +kernel, ?_⟩
  exact isLive_of_scheduled "stratum_txn" (Ledger.fromZero brisk).source 1000000 brisk rfl []
    [.operation (.commit 7)] [.tick, .tick, .beat 1, .tick, .tick, .beat 1, .tick] none none none
    (.entered 1 1000000 none none none) begun.ledger ⟨⟨rfl, fun _ => by decide⟩, trivial⟩ rfl
    (by simp) hspares

end Mvcc.TendedLedger

import Mvcc.Clock.Host
import Mvcc.Proofs.Clock.Ascending
import Mvcc.Proofs.Clock.Call

/-!
# Timestamps of all sessions

Timestamps ascend in the order in which calls began, over all sessions of a host. Usable timestamps
are durable, and returned timestamps were usable. The invariant covers all calls in progress, since
a reservation made by one of them serves the others.
-/

namespace Mvcc

/-! ## Stages -/

namespace CallStage

/-- The invariant of a call's stage: its timestamp against the reserved bound and the durable mark.
-/
def Fits (o : Oracle) (durable : Timestamp) : CallStage → Prop
  | .counted _ => True
  | .waiting time | .admitted time => time ≤ Timestamp.greatest
  | .storing time => o.reserved < time ∧ time ≤ Timestamp.greatest
  | .stored time => o.reserved < time ∧ time ≤ Timestamp.greatest ∧ durable = o.blockEnd time
  | .granted time => time ≤ o.reserved
  | .leaving result | .ended result => ∀ time, result = .ok time → time ≤ o.reserved

def IsStored (stage : CallStage) : Prop := ∃ time, stage = .stored time

theorem hasTurn_of_isStored {stage : CallStage} (h : stage.IsStored) : stage.hasTurn = true := by
  obtain ⟨time, rfl⟩ := h
  rfl

theorem Fits.mono {o o' : Oracle} {durable durable' : Timestamp} {stage : CallStage}
    (h : stage.Fits o durable) (hturn : stage.hasTurn = false) (hle : o.reserved ≤ o'.reserved) :
    stage.Fits o' durable' := by
  cases stage with
  | granted time => exact UInt64.le_trans h hle
  | ended result => exact fun time htime => UInt64.le_trans (h time htime) hle
  | counted | waiting => exact h
  | _ => cases hturn

end CallStage

/-! ## One session -/

namespace Session

/-- The invariant of a session with these calls and a mark at `durable`. -/
structure Sound (s : Session) (calls : Nat → Option CallStage) (begun : Nat)
    (durable : Timestamp) : Prop where
  load : s.oracle.mark.load = .ok durable
  reserved_le : s.oracle.reserved ≤ durable
  durable_le : durable ≤ Timestamp.greatest
  first_le : s.first ≤ begun
  counter_lt : s.oracle.counter.toNat + 1 < 2 ^ 63 + (begun - s.first)
  counted {call : Nat} {stage : CallStage} {time : Timestamp} (hcall : calls call = some stage)
    (htime : stage.time? = some time) : time ≤ s.oracle.counter
  fits {call : Nat} {stage : CallStage} (hcall : calls call = some stage) :
    stage.Fits s.oracle durable
  turn {call : Nat} {stage : CallStage} (hcall : calls call = some stage)
    (hturn : stage.hasTurn = true) : s.turn = some call
  /-- Unless a stored reservation is pending, the durable mark equals the reserved bound. -/
  settled (hnone : ∀ call stage, calls call = some stage → ¬ stage.IsStored) :
    durable = s.oracle.reserved
  ascending : s.stores.Pairwise (· > ·)
  stores_le : ∀ stored ∈ s.stores, stored ≤ durable

variable {s : Session} {h : Host} {durable durable' : Timestamp} {call : Nat}
  {stage stage' : CallStage} {oracle : Oracle}

theorem Sound.hasTurn_of_ne (hs : s.Sound h.calls h.begun durable)
    (hcall : h.calls call = some stage) (hmay : s.mayProceed stage = true)
    (hturn : stage.hasTurn = true ∨ ∃ time, stage = .waiting time) {other : Nat}
    {found : CallStage} (hother : other ≠ call) (hfound : h.calls other = some found) :
    found.hasTurn = false := by
  cases hfoundTurn : found.hasTurn with
  | false => rfl
  | true =>
    have hheld := hs.turn hfound hfoundTurn
    rcases hturn with hturn | ⟨time, rfl⟩
    · cases hheld.symm.trans (hs.turn hcall hturn)
      exact absurd rfl hother
    · simp [mayProceed, hheld] at hmay

/-- A call moves on and leaves an oracle behind that fits the stages of all calls. -/
theorem Sound.follow (hs : s.Sound h.calls h.begun durable) (hcall : h.calls call = some stage)
    (hmay : s.mayProceed stage = true)
    (henter : stage'.hasTurn = true → stage.hasTurn = true ∨ ∃ time, stage = .waiting time)
    (htime : ∀ time, stage'.time? = some time → stage.time? = some time)
    (hcounter : oracle.counter = s.oracle.counter) (hload : oracle.mark.load = .ok durable')
    (hreserved : oracle.reserved ≤ durable') (hdurable : durable' ≤ Timestamp.greatest)
    (hfits : stage'.Fits oracle durable')
    (hothers : ∀ other found, other ≠ call → h.calls other = some found →
      found.Fits s.oracle durable → found.Fits oracle durable')
    (hsettled : (∀ other found, (h.put call stage').calls other = some found → ¬ found.IsStored) →
      durable' = oracle.reserved)
    (hascending : (s.follow call stage stage' oracle).stores.Pairwise (· > ·))
    (hstores : ∀ stored ∈ (s.follow call stage stage' oracle).stores, stored ≤ durable') :
    (s.follow call stage stage' oracle).Sound (h.put call stage').calls h.begun durable' where
  load := hload
  reserved_le := hreserved
  durable_le := hdurable
  first_le := hs.first_le
  counter_lt := by
    show oracle.counter.toNat + 1 < _
    rw [hcounter]
    exact hs.counter_lt
  counted {other found time} hfound hfoundTime := by
    show time ≤ oracle.counter
    rw [hcounter]
    simp only [Host.put] at hfound
    split at hfound
    · cases hfound
      exact hs.counted hcall (htime time hfoundTime)
    · exact hs.counted hfound hfoundTime
  fits {other found} hfound := by
    simp only [Host.put] at hfound
    split at hfound
    · cases hfound
      exact hfits
    · rename_i hother
      exact hothers other found hother hfound (hs.fits hfound)
  turn {other found} hfound hfoundTurn := by
    simp only [Host.put] at hfound
    split at hfound
    · rename_i hother
      cases hfound
      rw [hother]
      exact if_pos hfoundTurn
    · rename_i hother
      -- The lock stays with another call, so this one neither held nor acquires it.
      have hnot : ¬ (stage.hasTurn = true ∨ ∃ time, stage = .waiting time) := fun hturn => by
        rw [hs.hasTurn_of_ne hcall hmay hturn hother hfound] at hfoundTurn
        cases hfoundTurn
      have hnot' : ¬ stage'.hasTurn = true := fun hturn => hnot (henter hturn)
      show (if _ then _ else if _ then _ else _) = _
      rw [if_neg hnot', if_neg fun hturn => hnot (.inl hturn)]
      exact hs.turn hfound hfoundTurn
  settled := hsettled
  ascending := hascending
  stores_le := hstores

theorem Sound.follow_quietly (hs : s.Sound h.calls h.begun durable)
    (hcall : h.calls call = some stage) (hmay : s.mayProceed stage = true)
    (henter : stage'.hasTurn = true → stage.hasTurn = true ∨ ∃ time, stage = .waiting time)
    (htime : ∀ time, stage'.time? = some time → stage.time? = some time)
    (hcounter : oracle.counter = s.oracle.counter) (hmark : oracle.mark = s.oracle.mark)
    (hreserved : oracle.reserved = s.oracle.reserved)
    (hblockEnd : oracle.blockEnd = s.oracle.blockEnd)
    (hstage : ¬ stage.IsStored) (hstage' : ¬ stage'.IsStored)
    (hfits : stage'.Fits s.oracle durable) :
    (s.follow call stage stage' oracle).Sound (h.put call stage').calls h.begun durable := by
  have hsame : ∀ found : CallStage, found.Fits s.oracle durable → found.Fits oracle durable := by
    intro found hfound
    unfold CallStage.Fits at hfound ⊢
    rw [hreserved, hblockEnd]
    exact hfound
  have hstores : (s.follow call stage stage' oracle).stores = s.stores := by
    cases stage' with
    | stored time => exact absurd ⟨time, rfl⟩ hstage'
    | _ => rfl
  refine hs.follow hcall hmay henter htime hcounter (hmark ▸ hs.load) (hreserved ▸ hs.reserved_le)
    hs.durable_le (hsame _ hfits) (fun _ found _ _ => hsame found) (fun hnone => ?_)
    (hstores ▸ hs.ascending) (hstores ▸ hs.stores_le)
  rw [hreserved]
  refine hs.settled fun other found hfound => ?_
  by_cases hother : other = call
  · subst hother
    cases hcall.symm.trans hfound
    exact hstage
  · exact hnone other found ((if_neg hother).trans hfound)

theorem Sound.settled_of_turn (hs : s.Sound h.calls h.begun durable)
    (hcall : h.calls call = some stage) (hturn : stage.hasTurn = true)
    (hstage : ¬ stage.IsStored) : durable = s.oracle.reserved := by
  refine hs.settled fun other found hfound hstored => ?_
  have hheld := hs.turn hfound (CallStage.hasTurn_of_isStored hstored)
  cases hheld.symm.trans (hs.turn hcall hturn)
  cases hcall.symm.trans hfound
  exact hstage hstored

theorem Sound.store (hs : s.Sound h.calls h.begun durable) {time : Timestamp}
    (hcall : h.calls call = some (.storing time)) {mark : Mark}
    (hstore : s.oracle.mark.store (s.oracle.blockEnd time) = .ok mark) :
    durable < s.oracle.blockEnd time ∧
      (s.follow call (.storing time) (.stored time) { s.oracle with mark := mark }).Sound
        (h.put call (.stored time)).calls h.begun (s.oracle.blockEnd time) := by
  obtain ⟨hlt, hle⟩ := hs.fits hcall
  have hsettled := hs.settled_of_turn hcall rfl nofun
  have hup : durable < s.oracle.blockEnd time := by
    rw [hsettled]
    exact UInt64.lt_of_lt_of_le hlt (s.oracle.le_blockEnd hle)
  refine ⟨hup, hs.follow hcall rfl (fun _ => .inl rfl) (fun _ htime => htime) rfl
    (Mark.load_of_store hs.load (UInt64.le_of_lt hup) hstore) ?_ (s.oracle.blockEnd_le time)
    ⟨hlt, hle, rfl⟩ (fun other found hother hfound hfits => ?_) (fun hnone => ?_) ?_ ?_⟩
  · exact UInt64.le_trans hs.reserved_le (UInt64.le_of_lt hup)
  · have hturn := hs.hasTurn_of_ne hcall rfl (.inl rfl) hother hfound
    exact hfits.mono hturn (UInt64.le_refl _)
  · exact absurd ⟨time, rfl⟩ (hnone call (.stored time) (if_pos rfl))
  · refine List.pairwise_cons.2 ⟨fun stored hstored => ?_, hs.ascending⟩
    exact UInt64.lt_of_le_of_lt (hs.stores_le stored hstored) hup
  · intro stored hstored
    rcases List.mem_cons.1 hstored with rfl | hstored
    · exact UInt64.le_refl _
    · exact UInt64.le_trans (hs.stores_le stored hstored) (UInt64.le_of_lt hup)

theorem Sound.publish (hs : s.Sound h.calls h.begun durable) {time : Timestamp}
    (hcall : h.calls call = some (.stored time)) :
    (s.follow call (.stored time) (.leaving (.ok time)) { s.oracle with
      reserved := s.oracle.blockEnd time
      reservations := s.oracle.reservations + 1 }).Sound
      (h.put call (.leaving (.ok time))).calls h.begun durable := by
  obtain ⟨hlt, hle, hdurable⟩ := hs.fits hcall
  refine hs.follow hcall rfl (fun _ => .inl rfl) (fun _ htime => htime) rfl hs.load
    (hdurable ▸ UInt64.le_refl _) hs.durable_le ?_ (fun other found hother hfound hfits => ?_)
    (fun _ => hdurable) hs.ascending hs.stores_le
  · rintro _ ⟨⟩
    exact s.oracle.le_blockEnd hle
  · have hturn := hs.hasTurn_of_ne hcall rfl (.inl rfl) hother hfound
    exact hfits.mono hturn (hdurable ▸ hs.reserved_le)

/-- A call may move to a stage and leave this oracle: its timestamp and the invariant are preserved.
-/
def MovesOn (s : Session) (h : Host) (durable : Timestamp) (call : Nat) (stage stage' : CallStage)
    (oracle : Oracle) : Prop :=
  (∀ time, stage'.time? = some time → stage.time? = some time) ∧
  ∃ durable', durable ≤ durable' ∧
    (s.follow call stage stage' oracle).Sound (h.put call stage').calls h.begun durable'

theorem Sound.movesOn_quietly (hs : s.Sound h.calls h.begun durable)
    (hcall : h.calls call = some stage) (hmay : s.mayProceed stage = true)
    (henter : stage'.hasTurn = true → stage.hasTurn = true ∨ ∃ time, stage = .waiting time)
    (htime : ∀ time, stage'.time? = some time → stage.time? = some time)
    (hstage : ¬ stage.IsStored) (hstage' : ¬ stage'.IsStored)
    (hfits : stage'.Fits s.oracle durable) :
    s.MovesOn h durable call stage stage' s.oracle := by
  have hsound := hs.follow_quietly hcall hmay henter htime rfl rfl rfl rfl hstage hstage' hfits
  exact ⟨htime, durable, UInt64.le_refl _, hsound⟩

theorem Sound.proceed_counted (hs : s.Sound h.calls h.begun durable) {time : Timestamp}
    (hcall : h.calls call = some (.counted time)) :
    s.MovesOn h durable call (.counted time) (s.oracle.proceed (.counted time)).1
      (s.oracle.proceed (.counted time)).2 := by
  have hstage : ¬ (CallStage.counted time).IsStored := by simp [CallStage.IsStored]
  simp only [Oracle.proceed]
  split
  · apply hs.movesOn_quietly hcall rfl
    · simp [CallStage.hasTurn]
    · simp [CallStage.time?, Except.toOption]
    · exact hstage
    · simp [CallStage.IsStored]
    · simp [CallStage.Fits]
  · rename_i hgreatest
    have hle : time ≤ Timestamp.greatest := by simpa using hgreatest
    split
    · rename_i hreserved
      apply hs.movesOn_quietly hcall rfl
      · simp [CallStage.hasTurn]
      · exact fun _ htime => htime
      · exact hstage
      · simp [CallStage.IsStored]
      · exact hreserved
    · apply hs.movesOn_quietly hcall rfl
      · simp [CallStage.hasTurn]
      · exact fun _ htime => htime
      · exact hstage
      · simp [CallStage.IsStored]
      · exact hle

theorem Sound.proceed_admitted (hs : s.Sound h.calls h.begun durable) {time : Timestamp}
    (hcall : h.calls call = some (.admitted time)) :
    s.MovesOn h durable call (.admitted time) (s.oracle.proceed (.admitted time)).1
      (s.oracle.proceed (.admitted time)).2 := by
  have hle : time ≤ Timestamp.greatest := hs.fits hcall
  have hstage : ¬ (CallStage.admitted time).IsStored := by simp [CallStage.IsStored]
  simp only [Oracle.proceed]
  split
  · rename_i hreserved
    apply hs.movesOn_quietly hcall rfl
    · exact fun _ => .inl rfl
    · exact fun _ htime => htime
    · exact hstage
    · simp [CallStage.IsStored]
    · simpa [CallStage.Fits] using hreserved
  · rename_i hreserved
    have hlt : s.oracle.reserved < time := by simpa using hreserved
    apply hs.movesOn_quietly hcall rfl
    · exact fun _ => .inl rfl
    · exact fun _ htime => htime
    · exact hstage
    · simp [CallStage.IsStored]
    · exact ⟨hlt, hle⟩

/-- If the mark refuses the store, the call ends with an error and nothing is reserved. -/
theorem Sound.proceed_storing (hs : s.Sound h.calls h.begun durable) {time : Timestamp}
    (hcall : h.calls call = some (.storing time)) :
    s.MovesOn h durable call (.storing time) (s.oracle.proceed (.storing time)).1
      (s.oracle.proceed (.storing time)).2 := by
  simp only [Oracle.proceed]
  cases hstore : s.oracle.mark.store (s.oracle.blockEnd time) with
  | error e =>
    apply hs.movesOn_quietly hcall rfl
    · exact fun _ => .inl rfl
    · simp [CallStage.time?, Except.toOption]
    · simp [CallStage.IsStored]
    · simp [CallStage.IsStored]
    · simp [CallStage.Fits]
  | ok mark =>
    obtain ⟨hup, hsound⟩ := hs.store hcall hstore
    exact ⟨fun _ htime => htime, s.oracle.blockEnd time, UInt64.le_of_lt hup, hsound⟩

theorem Sound.proceed_leaving (hs : s.Sound h.calls h.begun durable)
    {result : Except TimestampError Timestamp} (hcall : h.calls call = some (.leaving result)) :
    s.MovesOn h durable call (.leaving result) (s.oracle.proceed (.leaving result)).1
      (s.oracle.proceed (.leaving result)).2 := by
  have hfits := hs.fits hcall
  have hstage : ¬ (CallStage.leaving result).IsStored := by simp [CallStage.IsStored]
  cases result with
  | ok time =>
    apply hs.movesOn_quietly hcall rfl
    · simp [Oracle.proceed, CallStage.hasTurn]
    · exact fun _ htime => htime
    · exact hstage
    · simp [CallStage.IsStored, Oracle.proceed]
    · exact hfits time rfl
  | error e =>
    apply hs.movesOn_quietly hcall rfl
    · simp [Oracle.proceed, CallStage.hasTurn]
    · exact fun _ htime => htime
    · exact hstage
    · simp [CallStage.IsStored, Oracle.proceed]
    · simp [CallStage.Fits, Oracle.proceed]

theorem Sound.proceed_granted (hs : s.Sound h.calls h.begun durable) {time : Timestamp}
    (hcall : h.calls call = some (.granted time)) :
    s.MovesOn h durable call (.granted time) (s.oracle.proceed (.granted time)).1
      (s.oracle.proceed (.granted time)).2 := by
  have hle : time ≤ s.oracle.reserved := hs.fits hcall
  refine ⟨fun _ htime => htime, durable, UInt64.le_refl _, ?_⟩
  refine hs.follow_quietly hcall rfl ?_ (fun _ htime => htime) rfl rfl rfl rfl ?_ ?_ ?_
  · simp [Oracle.proceed, CallStage.hasTurn]
  · simp [CallStage.IsStored]
  · simp [CallStage.IsStored, Oracle.proceed]
  · simpa [CallStage.Fits, Oracle.proceed] using hle

theorem Sound.proceed (hs : s.Sound h.calls h.begun durable) (hcall : h.calls call = some stage)
    (hmay : s.mayProceed stage = true) :
    s.MovesOn h durable call stage (s.oracle.proceed stage).1 (s.oracle.proceed stage).2 := by
  cases stage with
  | counted time => exact hs.proceed_counted hcall
  | waiting time =>
    have hle : time ≤ Timestamp.greatest := hs.fits hcall
    apply hs.movesOn_quietly hcall hmay
    · exact fun _ => .inr ⟨time, rfl⟩
    · exact fun _ htime => htime
    · simp [CallStage.IsStored]
    · simp [CallStage.IsStored, Oracle.proceed]
    · exact hle
  | admitted time => exact hs.proceed_admitted hcall
  | storing time => exact hs.proceed_storing hcall
  | stored time => exact ⟨fun _ htime => htime, durable, UInt64.le_refl _, hs.publish hcall⟩
  | leaving result => exact hs.proceed_leaving hcall
  | granted time => exact hs.proceed_granted hcall
  | ended result => cases hmay

/-- The counter does not wrap: it began below `2 ^ 63` and served fewer than `2 ^ 63` calls. -/
theorem Sound.supply_pos (hs : s.Sound h.calls h.begun durable)
    (hserved : h.begun + 1 - s.first < 2 ^ 63) : 0 < s.oracle.supply := by
  have hfirst := hs.first_le
  have hlt := hs.counter_lt
  unfold Oracle.supply
  omega

theorem Sound.begin (hs : s.Sound h.calls h.begun durable) (hnew : h.calls h.begun = none)
    (hsupply : 0 < s.oracle.supply) :
    s.oracle.counter < s.oracle.count.counter ∧
      { s with oracle := s.oracle.count }.Sound
        (h.put h.begun (.counted s.oracle.count.counter)).calls (h.begun + 1) durable := by
  have hfirst := hs.first_le
  have hlt := hs.counter_lt
  have hcounter : s.oracle.count.counter.toNat = s.oracle.counter.toNat + 1 :=
    Oracle.toNat_counter_succ hsupply
  have hup : s.oracle.counter < s.oracle.count.counter := by
    rw [UInt64.lt_iff_toNat_lt]
    omega
  refine ⟨hup, ⟨hs.load, hs.reserved_le, hs.durable_le, Nat.le_succ_of_le hfirst, ?_,
    fun hcall htime => ?_, fun {call stage} hcall => ?_, fun hcall hturn => ?_, fun hnone => ?_,
    hs.ascending, hs.stores_le⟩⟩
  · show s.oracle.count.counter.toNat + 1 < 2 ^ 63 + (h.begun + 1 - s.first)
    omega
  · simp only [Host.put] at hcall
    split at hcall
    · cases hcall
      cases htime
      exact UInt64.le_refl _
    · exact UInt64.le_trans (hs.counted hcall htime) (UInt64.le_of_lt hup)
  · simp only [Host.put] at hcall
    split at hcall
    · cases hcall
      trivial
    · have hfits := hs.fits hcall
      cases stage <;> exact hfits
  · simp only [Host.put] at hcall
    split at hcall
    · cases hcall
      cases hturn
    · exact hs.turn hcall hturn
  · refine hs.settled fun call stage hcall => hnone call stage ((if_neg ?_).trans hcall)
    intro hsame
    rw [hsame, hnew] at hcall
    cases hcall

end Session

/-! ## All sessions -/

namespace Host

structure Sound (h : Host) : Prop where
  numbered {call : Nat} {stage : CallStage} (hcall : h.calls call = some stage) : call < h.begun
  positive {call : Nat} {stage : CallStage} {time : Timestamp} (hcall : h.calls call = some stage)
    (htime : stage.time? = some time) : 0 < time
  ordered {call call' : Nat} {stage stage' : CallStage} {time time' : Timestamp}
    (hcall : h.calls call = some stage) (hcall' : h.calls call' = some stage')
    (htime : stage.time? = some time) (htime' : stage'.time? = some time') (hlt : call < call') :
    time < time'
  /-- After a crash only ended calls remain. -/
  resting (hsession : h.session = none) {call : Nat} {stage : CallStage}
    (hcall : h.calls call = some stage) :
    ∃ result, stage = .ended result ∧ ∀ time, result = .ok time →
      time ≤ Timestamp.greatest ∧ ∃ durable, h.mark.load = .ok durable ∧ time ≤ durable
  serving {s : Session} (hsession : h.session = some s) :
    ∃ durable, s.Sound h.calls h.begun durable

/-- The mark does not decrease, and returned timestamps stay returned. -/
structure Goes (h h' : Host) : Prop where
  durable {value : Timestamp} (hload : h.durable = .ok value) :
    ∃ value', h'.durable = .ok value' ∧ value ≤ value'
  returned {call : Nat} {time : Timestamp} (hcall : h.Returned call time) : h'.Returned call time

theorem Goes.refl (h : Host) : h.Goes h := ⟨fun hload => ⟨_, hload, UInt64.le_refl _⟩, fun h => h⟩

theorem Goes.trans {h h' h'' : Host} (hgoes : h.Goes h') (hgoes' : h'.Goes h'') : h.Goes h'' where
  durable hload := by
    obtain ⟨value', hload', hle⟩ := hgoes.durable hload
    obtain ⟨value'', hload'', hle'⟩ := hgoes'.durable hload'
    exact ⟨value'', hload'', UInt64.le_trans hle hle'⟩
  returned hcall := hgoes'.returned (hgoes.returned hcall)

variable {h : Host}

theorem Sound.put (hsound : h.Sound) {call : Nat} {stage stage' : CallStage}
    (hcall : h.calls call = some stage)
    (htime : ∀ time, stage'.time? = some time → stage.time? = some time) {s : Session}
    {durable : Timestamp} (hs : s.Sound (h.put call stage').calls h.begun durable) :
    ((h.put call stage').within s).Sound := by
  have hback : ∀ {other : Nat} {now : CallStage}, ((h.put call stage').within s).calls other =
      some now → ∃ was, h.calls other = some was ∧
        ∀ time, now.time? = some time → was.time? = some time := by
    intro other now hnow
    simp only [within, Host.put] at hnow
    split at hnow
    · rename_i hother
      cases hnow
      exact ⟨stage, hother ▸ hcall, htime⟩
    · exact ⟨now, hnow, fun _ htime => htime⟩
  refine ⟨fun hnow => ?_, fun hnow ht => ?_, fun hnow hnow' ht ht' hlt => ?_, nofun, ?_⟩
  · obtain ⟨was, hwas, -⟩ := hback hnow
    exact hsound.numbered hwas
  · obtain ⟨was, hwas, hkept⟩ := hback hnow
    exact hsound.positive hwas (hkept _ ht)
  · obtain ⟨was, hwas, hkept⟩ := hback hnow
    obtain ⟨was', hwas', hkept'⟩ := hback hnow'
    exact hsound.ordered hwas hwas' (hkept _ ht) (hkept' _ ht') hlt
  · rintro _ ⟨⟩
    exact ⟨durable, hs⟩

theorem returned_put {call : Nat} {stage : CallStage} (hcall : h.calls call = some stage)
    (hended : stage.isEnded = false) (stage' : CallStage) (s : Session) {other : Nat}
    {time : Timestamp} (hother : h.Returned other time) :
    ((h.put call stage').within s).Returned other time := by
  have hne : other ≠ call := by
    intro hsame
    subst hsame
    cases hcall.symm.trans hother
    cases hended
  exact (if_neg hne).trans hother

theorem step_start (hsound : h.Sound) (blockSize : UInt64) :
    (h.step (.start blockSize)).Sound ∧ h.Goes (h.step (.start blockSize)) := by
  simp only [step]
  split
  · rename_i oracle hsession hstart
    simp only [Oracle.start, Except.bind_eq_ok_iff] at hstart
    obtain ⟨value, hload, hstart⟩ := hstart
    split at hstart
    · cases hstart
    · rename_i hgreatest
      cases hstart
      have hlt : value < Timestamp.greatest := by simpa using hgreatest
      -- Only ended calls remain, and their timestamps are below the mark.
      have hrest : ∀ {call stage}, h.calls call = some stage → ∃ result, stage = .ended result ∧
          ∀ time, result = .ok time → time ≤ value := by
        intro call stage hcall
        obtain ⟨result, rfl, hresult⟩ := hsound.resting hsession hcall
        refine ⟨result, rfl, fun time htime => ?_⟩
        obtain ⟨-, durable, hdurable, hle⟩ := hresult time htime
        cases hload.symm.trans hdurable
        exact hle
      refine ⟨⟨hsound.numbered, hsound.positive, hsound.ordered, nofun, ?_⟩, ⟨?_, fun h => h⟩⟩
      · rintro _ ⟨⟩
        refine ⟨value, ⟨hload, UInt64.le_refl _, UInt64.le_of_lt hlt, Nat.le_refl _, ?_, ?_, ?_, ?_,
          fun _ => rfl, .nil, nofun⟩⟩
        · have hnat : value.toNat < 2 ^ 63 - 1 := UInt64.lt_iff_toNat_lt.1 hlt
          show value.toNat + 1 < _
          omega
        · intro call stage time hcall htime
          obtain ⟨result, rfl, hresult⟩ := hrest hcall
          cases result with
          | ok time' =>
            cases htime
            exact hresult _ rfl
          | error e => cases htime
        · intro call stage hcall
          obtain ⟨result, rfl, hresult⟩ := hrest hcall
          exact hresult
        · intro call stage hcall hturn
          obtain ⟨result, rfl, -⟩ := hrest hcall
          cases hturn
      · intro before hbefore
        simp only [Host.durable, hsession] at hbefore
        exact ⟨before, hbefore, UInt64.le_refl _⟩
  · exact ⟨hsound, .refl h⟩

theorem step_crash (hsound : h.Sound) : (h.step .crash).Sound ∧ h.Goes (h.step .crash) := by
  simp only [step]
  split
  · rename_i s hsession
    obtain ⟨durable, hs⟩ := hsound.serving hsession
    have hkept : ∀ {call stage}, (h.calls call).filter CallStage.isEnded = some stage →
        h.calls call = some stage ∧ stage.isEnded = true := by
      intro call stage hcall
      exact Option.filter_eq_some_iff.1 hcall
    refine ⟨⟨fun hcall => hsound.numbered (hkept hcall).1,
      fun hcall => hsound.positive (hkept hcall).1,
      fun hcall hcall' => hsound.ordered (hkept hcall).1 (hkept hcall').1, fun _ => ?_, nofun⟩,
      ⟨?_, fun hcall => Option.filter_eq_some_iff.2 ⟨hcall, rfl⟩⟩⟩
    · intro call stage hcall
      obtain ⟨hcall, hended⟩ := hkept hcall
      cases stage with
      | ended result =>
        refine ⟨result, rfl, fun time htime => ?_⟩
        have hle := UInt64.le_trans (hs.fits hcall time htime) hs.reserved_le
        exact ⟨UInt64.le_trans hle hs.durable_le, durable, hs.load, hle⟩
      | _ => cases hended
    · intro value hload
      simp only [Host.durable, hsession] at hload
      exact ⟨value, hload, UInt64.le_refl _⟩
  · exact ⟨hsound, .refl h⟩

/-- The oracle that is asked has not used up its supply. -/
def Supplied (h : Host) : Prop := ∀ s, h.session = some s → 0 < s.oracle.supply

theorem Sound.supplied (hsound : h.Sound) (hserved : (h.step .call).served < 2 ^ 63) :
    h.Supplied := by
  intro s hsession
  obtain ⟨durable, hs⟩ := hsound.serving hsession
  apply hs.supply_pos
  simpa only [step, hsession, served, within] using hserved

theorem step_call (hsound : h.Sound) (hsupplied : h.Supplied) :
    (h.step .call).Sound ∧ h.Goes (h.step .call) := by
  simp only [step]
  split
  · rename_i s hsession
    obtain ⟨durable, hs⟩ := hsound.serving hsession
    have hnew : h.calls h.begun = none := by
      cases hcall : h.calls h.begun with
      | none => rfl
      | some stage => exact absurd (hsound.numbered hcall) (Nat.lt_irrefl _)
    obtain ⟨hup, hs'⟩ := hs.begin hnew (hsupplied s hsession)
    have hcases : ∀ {call stage}, (h.put h.begun (.counted s.oracle.count.counter)).calls call =
        some stage → call = h.begun ∧ stage = .counted s.oracle.count.counter ∨
          call < h.begun ∧ h.calls call = some stage := by
      intro call stage hcall
      simp only [Host.put] at hcall
      split at hcall
      · rename_i hnew
        exact .inl ⟨hnew, (Option.some.inj hcall).symm⟩
      · exact .inr ⟨hsound.numbered hcall, hcall⟩
    refine ⟨⟨fun hcall => ?_, fun hcall htime => ?_, fun hcall hcall' htime htime' hlt => ?_, nofun,
      ?_⟩, ⟨fun hload => ?_, fun hcall => ?_⟩⟩
    · rcases hcases hcall with ⟨rfl, -⟩ | ⟨hold, -⟩
      · exact Nat.lt_succ_self _
      · exact Nat.lt_succ_of_lt hold
    · rcases hcases hcall with ⟨-, rfl⟩ | ⟨-, hold⟩
      · cases htime
        exact UInt64.lt_of_le_of_lt (UInt64.zero_le ..) hup
      · exact hsound.positive hold htime
    · rcases hcases hcall with ⟨rfl, -⟩ | ⟨hold, hcall⟩
      · rcases hcases hcall' with ⟨rfl, -⟩ | ⟨hold', -⟩
        · exact absurd hlt (Nat.lt_irrefl _)
        · exact absurd (Nat.lt_trans hlt hold') (Nat.lt_irrefl _)
      · rcases hcases hcall' with ⟨-, rfl⟩ | ⟨-, hcall'⟩
        · cases htime'
          exact UInt64.lt_of_le_of_lt (hs.counted hcall htime) hup
        · exact hsound.ordered hcall hcall' htime htime' hlt
    · rintro _ ⟨⟩
      exact ⟨durable, hs'⟩
    · simp only [Host.durable, hsession] at hload
      exact ⟨_, hload, UInt64.le_refl _⟩
    · have hne := Nat.ne_of_lt (hsound.numbered hcall)
      exact (if_neg hne).trans hcall
  · exact ⟨hsound, .refl h⟩

theorem step_proceed (hsound : h.Sound) (call : Nat) :
    (h.step (.proceed call)).Sound ∧ h.Goes (h.step (.proceed call)) := by
  simp only [step]
  split
  · rename_i s stage hsession hcall
    split
    · rename_i hmay
      obtain ⟨durable, hs⟩ := hsound.serving hsession
      obtain ⟨htime, durable', hle, hs'⟩ := hs.proceed hcall hmay
      refine ⟨hsound.put hcall htime hs', ⟨fun hload => ?_, fun hother => ?_⟩⟩
      · simp only [Host.durable, hsession] at hload
        cases hload.symm.trans hs.load
        exact ⟨durable', hs'.load, hle⟩
      · have hended : stage.isEnded = false := by cases stage <;> first | rfl | cases hmay
        exact returned_put hcall hended _ _ hother
    · exact ⟨hsound, .refl h⟩
  · exact ⟨hsound, .refl h⟩

theorem step_refuse (hsound : h.Sound) (call : Nat) (e : TimestampError) :
    (h.step (.refuse call e)).Sound ∧ h.Goes (h.step (.refuse call e)) := by
  simp only [step]
  split
  · rename_i s time hsession hcall
    obtain ⟨durable, hs⟩ := hsound.serving hsession
    have htime : ∀ time', (CallStage.leaving (.error e)).time? = some time' →
        (CallStage.storing time).time? = some time' := nofun
    have hs' := hs.follow_quietly hcall rfl (fun _ => .inl rfl) htime rfl rfl rfl rfl nofun nofun
      nofun
    refine ⟨hsound.put hcall htime hs', ⟨fun hload => ?_, returned_put hcall rfl _ _⟩⟩
    simp only [Host.durable, hsession] at hload
    exact ⟨_, hload, UInt64.le_refl _⟩
  · exact ⟨hsound, .refl h⟩

/-! ## Runs -/

/-- No oracle serves as many as `2 ^ 63` calls. -/
def Moderate : Host → List Event → Prop
  | _, [] => True
  | h, event :: events => (h.step event).served < 2 ^ 63 ∧ Moderate (h.step event) events

instance decidableModerate : ∀ (h : Host) (events : List Event), Decidable (h.Moderate events)
  | _, [] => isTrue trivial
  | h, event :: events =>
    have := decidableModerate (h.step event) events
    inferInstanceAs (Decidable (_ ∧ _))

theorem Sound.step (hsound : h.Sound) (event : Event) (hserved : (h.step event).served < 2 ^ 63) :
    (h.step event).Sound ∧ h.Goes (h.step event) := by
  cases event with
  | start blockSize => exact step_start hsound blockSize
  | crash => exact step_crash hsound
  | call => exact step_call hsound (hsound.supplied hserved)
  | proceed call => exact step_proceed hsound call
  | refuse call e => exact step_refuse hsound call e

theorem Sound.run {events : List Event} (hsound : h.Sound) (hmoderate : h.Moderate events) :
    (h.run events).Sound ∧ h.Goes (h.run events) := by
  induction events generalizing h with
  | nil => exact ⟨hsound, .refl h⟩
  | cons event events ih =>
    obtain ⟨hserved, hlater⟩ := hmoderate
    obtain ⟨hsound', hgoes⟩ := hsound.step event hserved
    obtain ⟨hsound'', hgoes'⟩ := ih hsound' hlater
    exact ⟨hsound'', hgoes.trans hgoes'⟩

theorem moderate_append {before later : List Event} (h' : h.Moderate (before ++ later)) :
    h.Moderate before ∧ (h.run before).Moderate later := by
  induction before generalizing h with
  | nil => exact ⟨trivial, h'⟩
  | cons event before ih =>
    obtain ⟨hserved, hrest⟩ := h'
    obtain ⟨hbefore, hlater⟩ := ih hrest
    exact ⟨⟨hserved, hbefore⟩, hlater⟩

theorem sound_closed (mark : Mark) : (closed mark).Sound where
  numbered := nofun
  positive := nofun
  ordered := nofun
  resting _ := nofun
  serving := nofun

/-- A returned timestamp is not returned again after a restart. -/
theorem Sound.returned (hsound : h.Sound) {call : Nat} {time : Timestamp}
    (hcall : h.Returned call time) : 0 < time ∧ time ≤ Timestamp.greatest ∧
      ∃ durable, h.durable = .ok durable ∧ time ≤ durable := by
  refine ⟨hsound.positive hcall rfl, ?_⟩
  cases hsession : h.session with
  | none =>
    obtain ⟨_, ⟨⟩, hresult⟩ := hsound.resting hsession hcall
    simpa only [Host.durable, hsession] using hresult time rfl
  | some s =>
    obtain ⟨durable, hs⟩ := hsound.serving hsession
    have hle := UInt64.le_trans (hs.fits hcall time rfl) hs.reserved_le
    refine ⟨UInt64.le_trans hle hs.durable_le, durable, ?_, hle⟩
    simpa only [Host.durable, hsession] using hs.load

/-- Over any number of oracles opened one after another on one mark, with calls interleaved stage by
stage, failing stores and crashes, as long as no oracle serves `2 ^ 63` calls: returned timestamps
are distinct, between one and the greatest timestamp, and bounded by the durable mark then and
later; the stores of one oracle ascend; the mark never decreases; and a call that begins after
another one returned gets a greater timestamp. -/
theorem returned_ascending (mark : Mark) (events : List Event)
    (hmoderate : (closed mark).Moderate events) :
    (∀ call call' time, ((closed mark).run events).Returned call time →
      ((closed mark).run events).Returned call' time → call = call') ∧
    (∀ call time, ((closed mark).run events).Returned call time →
      0 < time ∧ time ≤ Timestamp.greatest ∧
        ∃ durable, ((closed mark).run events).durable = .ok durable ∧ time ≤ durable) ∧
    (∀ s, ((closed mark).run events).session = some s → s.stores.Pairwise (· > ·)) ∧
    ∀ before later, events = before ++ later →
      ((closed mark).run before).Goes ((closed mark).run events) ∧
      ∀ call call' time time', ((closed mark).run before).Returned call time →
        ((closed mark).run before).begun ≤ call' →
        ((closed mark).run events).Returned call' time' → time < time' := by
  obtain ⟨hsound, -⟩ := (sound_closed mark).run hmoderate
  refine ⟨fun call call' time hcall hcall' => ?_, fun _ _ => hsound.returned, fun s hsession => ?_,
    fun before later hevents => ?_⟩
  · rcases Nat.lt_trichotomy call call' with hlt | heq | hlt
    · have hless := hsound.ordered hcall hcall' rfl rfl hlt
      exact absurd hless (UInt64.lt_irrefl _)
    · exact heq
    · have hless := hsound.ordered hcall' hcall rfl rfl hlt
      exact absurd hless (UInt64.lt_irrefl _)
  · obtain ⟨durable, hs⟩ := hsound.serving hsession
    exact hs.ascending
  · subst hevents
    obtain ⟨hbefore, hlater⟩ := moderate_append hmoderate
    obtain ⟨hmiddle, -⟩ := (sound_closed mark).run hbefore
    obtain ⟨-, hgoes⟩ := hmiddle.run hlater
    have happend : (closed mark).run (before ++ later) = ((closed mark).run before).run later :=
      List.foldl_append
    rw [happend] at hsound ⊢
    refine ⟨hgoes, fun call call' time time' hcall hbegun hcall' => ?_⟩
    have hlt : call < call' := Nat.lt_of_lt_of_le (hmiddle.numbered hcall) hbegun
    exact hsound.ordered (hgoes.returned hcall) hcall' rfl rfl hlt

/-- Three calls, of which the second reserves for the first as well and returns. -/
def beforeCrash : List Event :=
  [.start 2, .call, .call, .call, .proceed 0, .proceed 1, .proceed 1, .proceed 1, .proceed 1,
    .proceed 1, .proceed 1, .proceed 1, .proceed 0, .proceed 0]

/-- The first call returns, the third is cut off, the store of the fourth fails, the fifth
returns. -/
def afterwards : List Event :=
  [.proceed 0, .proceed 0, .proceed 2, .crash, .start 5, .call, .call, .proceed 3, .proceed 3,
    .proceed 3, .refuse 3 .closed, .proceed 3, .proceed 3, .proceed 4, .proceed 4, .proceed 4,
    .proceed 4, .proceed 4, .proceed 4, .proceed 4]

theorem returned_ascending_across_crash :
    (closed (.memory (.startingAt 0))).Moderate (beforeCrash ++ afterwards) ∧
      ((closed (.memory (.startingAt 0))).run beforeCrash).Returned 1 2 ∧
      ((closed (.memory (.startingAt 0))).run (beforeCrash ++ afterwards)).Returned 4 5 ∧
      (2 : Timestamp) < 5 := by
  have hmoderate : (closed (.memory (.startingAt 0))).Moderate (beforeCrash ++ afterwards) := by
    decide
  have hfirst : ((closed (.memory (.startingAt 0))).run beforeCrash).Returned 1 2 := rfl
  have hlast : ((closed (.memory (.startingAt 0))).run (beforeCrash ++ afterwards)).Returned 4 5 :=
    rfl
  have hbegun : ((closed (.memory (.startingAt 0))).run beforeCrash).begun ≤ 4 := by decide
  have hlaw := returned_ascending (.memory (.startingAt 0)) (beforeCrash ++ afterwards) hmoderate
  have hlater := (hlaw.2.2.2 beforeCrash afterwards rfl).2
  exact ⟨hmoderate, hfirst, hlast, hlater 1 4 2 5 hfirst hbegun hlast⟩

end Host

end Mvcc

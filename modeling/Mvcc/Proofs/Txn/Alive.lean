import Mvcc.Proofs.Txn.Finality
import Mvcc.Proofs.Txn.Rows

/-!
# Live transactions

A transaction whose keep-alive timestamp is within the timeout resolves as active, can be kept alive
and is not refused a commit as timed out. With available storage only its end changes this.
-/

namespace Mvcc

namespace Register

variable {τ : Type} [TimestampSource τ] {r r' : Register τ} {id : TxnId} {txn : Txn}

theorem Entered.records_eq {parent : Option TxnId} {isolation : Option Isolation}
    {additive : Option Bool} (h : r.Entered parent isolation additive r') (hfresh : r.Fresh)
    (hrecord : r.records id = some txn) : r'.records id = some txn := by
  cases h with
  | rejected h => rw [h.records, hrecord]
  | unused h hdraw => exact (congrFun h.records id).trans hrecord
  | @enter middle h time source hdraw keepAlive =>
    have hsource : middle.source = r.source := by rw [h.1]
    rw [hsource] at hdraw
    have hne : id ≠ time := by
      intro hid
      rw [hid, hfresh time source hdraw] at hrecord
      cases hrecord
    refine (if_neg hne).trans ?_
    exact (congrFun h.records id).trans hrecord

theorem Starved.records_eq (h : r.Starved r') : r'.records = r.records := by
  obtain ⟨middle, e, source, hremembers, -, rfl⟩ := h
  exact hremembers.records

end Register

namespace Ledger

open TxnM

variable {τ : Type} {s s' : Ledger τ} {id : TxnId} {time : Nat}

/-- The record of a transaction is active, and its keep-alive timestamp is at least `time`. -/
def ShowsSince (s : Ledger τ) (id : TxnId) (time : Nat) : Prop :=
  ∃ txn, s.partition.record? id = some txn ∧ txn.state = .active ∧ time ≤ txn.keepAlive.toNat

/-- No more than the timeout has passed since `time`. -/
def Near (s : Ledger τ) (time : Nat) : Prop := s.now.toNat ≤ time + s.settings.timeout.toNat

theorem Near.not_silent (h : s.Near time) {keepAlive : UInt64} (hle : time ≤ keepAlive.toNat) :
    s.isSilent keepAlive = false := by
  have hnow : s.now.toNat ≤ time + s.settings.timeout.toNat := h
  have hlt := s.settings.timeout.toNat_lt
  have hlimit := Word.addCapped_toNat s.settings.timeout s.settings.timeoutSlack
  have hsince := Word.subFloored_toNat s.now keepAlive
  have hsize : UInt64.size = 18446744073709551616 := rfl
  apply decide_eq_false
  rw [UInt64.lt_iff_toNat_lt]
  omega

theorem ShowsSince.mono {earlier : Nat} (h : s.ShowsSince id time) (hle : earlier ≤ time) :
    s.ShowsSince id earlier := by
  obtain ⟨txn, hrecord, hactive, hshown⟩ := h
  exact ⟨txn, hrecord, hactive, Nat.le_trans hle hshown⟩

theorem ShowsSince.of_within {written : TxnId → Prop} (h : s.ShowsSince id time)
    (hwithin : s.Within written s') (hid : ¬ written id) : s'.ShowsSince id time := by
  obtain ⟨txn, hrecord, hactive, hle⟩ := h
  exact ⟨txn, (hwithin.record hid).trans hrecord, hactive, hle⟩

theorem ShowsSince.of_eq (h : s.ShowsSince id time) (hsame : s'.partition = s.partition) :
    s'.ShowsSince id time := by
  unfold ShowsSince
  rw [hsame]
  exact h

/-- Steps that write nothing preserve keep-alive timestamps, and do not fail with a timeout. -/
theorem Confined.shows {α : Type} {steps : TxnM (Ledger τ) α}
    (h : Confined (fun _ => False) steps) (hwritable : s.Writable)
    (hshows : s.ShowsSince id time) :
    Ends steps s (fun _ s' => s'.Writable ∧ s'.ShowsSince id time)
      fun e s' => e ≠ .timeout id ∧ s'.ShowsSince id time := by
  refine (h s).mono ?_ ?_
  · intro _ s' hwithin
    exact ⟨hwithin.writable hwritable, hshows.of_within hwithin not_false⟩
  · intro e s' hfailed
    exact ⟨hfailed.2 id, hshows.of_within hfailed.1 not_false⟩

theorem loadExisting_partition :
    Leaves (loadExisting id) s fun s' => s'.partition = s.partition := by
  refine ends_bind.2 (load_partition.mono ?_ fun _ _ h => h)
  intro found s₁ hloaded
  cases found <;> exact hloaded

/-- A sound ledger over storage that accepts writes. -/
structure Healthy [TimestampSource τ] [AscendingSource τ] (s : Ledger τ) : Prop where
  legible : s.Legible
  sound : s.register.Sound
  faithful : s.register.Faithful
  writable : s.Writable

section Live

variable [TimestampSource τ] [AscendingSource τ] {txn : Txn}

theorem Healthy.loadExisting_ends (h : s.Healthy) (hrecord : s.partition.record? id = some txn) :
    Ends (loadExisting id) s (fun found s' => s' = s ∧ found = txn) fun _ _ => False := by
  have hserving : s.register.serving = true := serving_iff.2 h.writable.available
  refine (Ledger.loadExisting_ends h.legible).mono ?_ ?_
  · intro found s₁ hloaded
    obtain ⟨rfl, hfound⟩ := hloaded
    cases hfound.symm.trans hrecord
    exact ⟨rfl, rfl⟩
  · intro e s₁ hfailed
    obtain ⟨rfl, hunavailable | hnone⟩ := hfailed
    · cases hserving.symm.trans hunavailable
    · cases hnone.symm.trans hrecord

theorem Healthy.find_active (h : s.Healthy) (hshows : s.ShowsSince id time) (hnear : s.Near time) :
    ∃ found s', find id s = .ok (some found) s' ∧ found.state = .active := by
  obtain ⟨txn, hrecord, hactive, hle⟩ := hshows
  have hlive : s.register.isSilent txn = false := hnear.not_silent hle
  have hstanding : s.register.standing? id = some txn := by
    rw [Register.standing?_of_record hrecord, Register.current_of_live hlive]
  obtain ⟨hanswers, hanswered⟩ := find_of_standing h.legible h.faithful hstanding
  obtain ⟨found, s', hfind⟩ := hanswers h.writable.available
  have hfound := hanswered found s' hfind
  subst hfound
  exact ⟨txn, s', hfind, hactive⟩

/-- Keeping the transaction alive succeeds and stores the current time. -/
theorem Healthy.keepAlive_shows (h : s.Healthy) (hshows : s.ShowsSince id time)
    (hnear : s.Near time) :
    Ends (keepAlive id) s
      (fun alive s' => alive = true ∧ s'.ShowsSince id (max s.now.toNat time))
      fun _ _ => False := by
  obtain ⟨txn, hrecord, hactive, hle⟩ := hshows
  have hlive := hnear.not_silent hle
  unfold keepAlive
  refine ends_bind.2 ((h.loadExisting_ends hrecord).mono ?_ fun _ _ h => h)
  intro found s₁ hloaded
  obtain ⟨rfl, rfl⟩ := hloaded
  simp only [hactive, ne_eq, not_true_eq_false, if_false, ends_bind, ends_get, hlive,
    Bool.false_eq_true, ends_pure, true_and]
  refine ((putSlot_writable h.writable _ _ _).and (putSlot_partition _ _)).mono ?_
    fun _ _ h => h.1
  intro _ s₂ hput
  refine ⟨{ found with keepAlive := max s₁.now found.keepAlive }, ?_, hactive, ?_⟩
  · rw [hput.2]
    exact Partition.record?_withCell
      (Slot.decode_insert_keepAlive (Partition.record?_eq_some_iff.1 hrecord) _)
  · have hmax := Word.toNat_max s₁.now found.keepAlive
    dsimp only
    omega

theorem Healthy.commit_ends (h : s.Healthy) (hshows : s.ShowsSince id time) (hnear : s.Near time) :
    Ends (commit id) s (fun _ _ => True)
      fun e s' => e ≠ .timeout id ∧ s'.ShowsSince id time := by
  have hcheck : Ends (checkCommit id) s (fun _ s' => s'.Writable ∧ s'.ShowsSince id time)
      fun e s' => e ≠ .timeout id ∧ s'.ShowsSince id time := by
    obtain ⟨txn, hrecord, hactive, hle⟩ := hshows
    have hlive := hnear.not_silent hle
    unfold checkCommit
    refine ends_bind.2 ((h.loadExisting_ends hrecord).mono ?_ fun _ _ h => h.elim)
    intro found s₁ hloaded
    obtain ⟨rfl, rfl⟩ := hloaded
    simp only [hactive, ends_bind, ends_get, hlive, Bool.false_eq_true, if_false]
    have hshows : s₁.ShowsSince id time := ⟨found, hrecord, hactive, hle⟩
    cases found.parent with
    | none => exact ⟨h.writable, hshows⟩
    | some parent =>
      refine ends_bind.2 (((confined_resolve parent).shows h.writable hshows).mono ?_
        fun _ _ h => h)
      intro view s₂ hresolved
      split
      · exact ⟨by simp, hresolved.2⟩
      · exact hresolved
  unfold commit
  refine ends_bind.2 (hcheck.mono ?_ fun _ _ h => h)
  intro found s₁ hchecked
  cases found with
  | some time => trivial
  | none =>
    refine ends_bind.2 ((confined_draw.shows hchecked.1 hchecked.2).mono ?_ fun _ _ h => h)
    intro time s₂ hdrawn
    refine ends_bind.2 ((putSlot_writable hdrawn.1 _ _ _).mono ?_ fun _ _ h => h.elim)
    intro _ s₃ hwritable
    refine ends_bind.2 ((putSlot_writable hwritable _ _ _).mono ?_ fun _ _ h => h.elim)
    intro _ s₄ _
    trivial

/-- A transaction that is not timed out: it is found active, keeping it alive succeeds, and
committing it does not fail with a timeout. -/
structure IsLive (s : Ledger τ) (id : TxnId) : Prop where
  find : ∃ txn s', find id s = .ok (some txn) s' ∧ txn.state = .active
  keepAlive : ∃ s', keepAlive id s = .ok true s'
  commit (s' : Ledger τ) : commit id s ≠ .error (.timeout id) s'

theorem Healthy.isLive (h : s.Healthy) (hshows : s.ShowsSince id time) (hnear : s.Near time) :
    s.IsLive id where
  find := h.find_active hshows hnear
  keepAlive := by
    have hends := h.keepAlive_shows hshows hnear
    cases hkept : Ledger.keepAlive id s with
    | ok alive s' =>
      obtain ⟨rfl, -⟩ := hends.of_ok hkept
      exact ⟨s', rfl⟩
    | error e s' => exact (hends.of_error hkept).elim
  commit s' hcommit := ((h.commit_ends hshows hnear).of_error hcommit).1 rfl

end Live

theorem rollback_partition :
    Ends (rollback id) s (fun _ _ => True) fun _ s' => s'.partition = s.partition := by
  unfold rollback
  refine ends_bind.2 (loadExisting_partition.mono ?_ fun _ _ h => h)
  intro txn s₁ hloaded
  cases txn.state with
  | rolledBack => trivial
  | committed => exact hloaded
  | active =>
    refine ends_bind.2 ((putSlot_partition _ _).mono ?_ fun _ _ h => h.trans hloaded)
    intro _ s₂ _
    trivial

theorem recordGlobalCommit_partition {commitTime : Timestamp} :
    Ends (recordGlobalCommit id commitTime) s (fun _ _ => True)
      fun _ s' => s'.partition = s.partition := by
  unfold recordGlobalCommit
  refine ends_bind.2 (loadExisting_partition.mono ?_ fun _ _ h => h)
  intro txn s₁ hloaded
  dsimp only
  split
  · exact hloaded
  · refine ends_bind.2 ((putSlot_partition _ _).mono ?_ fun _ _ h => h.trans hloaded)
    intro _ s₂ _
    trivial

section Live

variable [TimestampSource τ] [AscendingSource τ]

theorem Healthy.recordDestination_shows (h : s.Healthy) (hshows : s.ShowsSince id time)
    (table : String) :
    Leaves (recordDestination id table) s fun s' => s'.ShowsSince id time := by
  obtain ⟨txn, hrecord, hactive, hle⟩ := hshows
  unfold recordDestination
  refine ends_bind.2 ((h.loadExisting_ends hrecord).mono ?_ fun _ _ h => h.elim)
  intro found s₁ hloaded
  obtain ⟨rfl, rfl⟩ := hloaded
  have hshows : s₁.ShowsSince id time := ⟨found, hrecord, hactive, hle⟩
  simp only [ends_bind, ends_get]
  split
  · exact hshows
  · split
    · exact hshows
    · simp only [ends_bind, ends_ofExcept]
      cases hslot : Slot.encodeDestinations (found.destinations.add table) with
      | error fault => exact hshows
      | ok slot =>
        refine (putSlot_partition _ _).mono ?_ fun _ _ hsame => hshows.of_eq hsame
        intro _ s₂ hput
        refine ⟨{ found with destinations := found.destinations.add table }, ?_, hactive, hle⟩
        rw [hput]
        exact Partition.record?_withCell
          (Slot.decode_insert_destinations (Partition.record?_eq_some_iff.1 hrecord) hslot)

/-! ## Operations -/

/-- Whether an operation is to bring a transaction to its end. -/
def Operation.decides : Operation → TxnId → Prop
  | .commit other, id | .rollback other, id | .recordGlobalCommit other _, id => other = id
  | _, _ => False

/-- The operation brings a transaction to its end, and succeeds. -/
def Operation.Closes (op : Operation) (id : TxnId) (s : Ledger τ) : Prop :=
  op.decides id ∧ ∃ s', op.steps s = .ok () s'

omit [AscendingSource τ] in
theorem after_of_not_ok {op : Operation} {p : Ledger τ → Prop}
    (h : Ends op.steps s (fun _ _ => True) fun _ s' => p s')
    (hfails : ¬ ∃ s', op.steps s = .ok () s') : p (s.after op) := by
  apply after_of_ends
  refine .of_forall ?_ ?_
  · intro _ s' hsteps
    exact absurd ⟨s', hsteps⟩ hfails
  · intro e s' hsteps
    exact h.of_error hsteps

variable {op : Operation}

theorem Healthy.effect (h : s.Healthy) (hsupplied : op.Supplied s.register) :
    op.Effect s.register (s.after op).register :=
  (effect_after h.legible op fun hasks => h.sound.fresh (hsupplied hasks)).2

/-- An operation leaves the signs of life of a transaction that it does not bring to its end. -/
theorem Healthy.shows_after (h : s.Healthy) (hsteady : op.isSteady = true)
    (hsupplied : op.Supplied s.register) (hshows : s.ShowsSince id time) (hnear : s.Near time)
    (hopen : ¬ op.Closes id s) : (s.after op).ShowsSince id time := by
  by_cases hrow : op.rows id
  · cases op with
    | create parent isolation additive =>
      obtain ⟨txn, hrecord, hactive, hle⟩ := hshows
      have hfresh := h.sound.fresh (hsupplied rfl)
      refine ⟨txn, ?_, hactive, hle⟩
      cases h.effect hsupplied with
      | inl hentered => exact hentered.records_eq hfresh hrecord
      | inr hstarved => exact (congrFun hstarved.records_eq id).trans hrecord
    | commit other =>
      cases (show id = other from hrow)
      have hends := (h.commit_ends hshows hnear).mono (fun _ _ h => h) fun _ _ h => h.2
      exact after_of_not_ok (ends_map.2 hends) fun hok => hopen ⟨rfl, hok⟩
    | rollback other =>
      cases (show id = other from hrow)
      have hsame : (s.after (.rollback id)).partition = s.partition :=
        after_of_not_ok (p := fun s' => s'.partition = s.partition) rollback_partition
          fun hok => hopen ⟨rfl, hok⟩
      exact hshows.of_eq hsame
    | keepAlive other =>
      cases (show id = other from hrow)
      have hends := h.keepAlive_shows hshows hnear
      refine after_of_ends (p := fun s' => s'.ShowsSince id time) (ends_map.2 (hends.mono ?_
        fun _ _ h => h.elim))
      intro alive s' hkept
      exact hkept.2.mono (Nat.le_max_right _ _)
    | recordDestination other table =>
      cases (show id = other from hrow)
      exact after_of_ends (p := fun s' => s'.ShowsSince id time)
        (h.recordDestination_shows hshows table)
    | recordGlobalCommit other time =>
      cases (show id = other from hrow)
      have hsame : (s.after (.recordGlobalCommit id time)).partition = s.partition :=
        after_of_not_ok (p := fun s' => s'.partition = s.partition) recordGlobalCommit_partition
          fun hok => hopen ⟨rfl, hok⟩
      exact hshows.of_eq hsame
    | clock => cases hsteady
    | outage => cases hsteady
    | limit => cases hsteady
    | _ => exact hrow.elim
  · exact hshows.of_within (within_after hsteady) hrow

/-- A ledger stays in good order while its storage answers and its clock does not go back. -/
theorem Healthy.after (h : s.Healthy) (hsupplied : op.Supplied s.register)
    (hforward : s.now ≤ op.clockAfter s.now) (hstorage : op.keepsStorage = true) :
    (s.after op).Healthy := by
  have hready : Ready ([op] ++ []) s := ⟨h.legible, h.sound, hsupplied, trivial⟩
  have hfaithful : (s.run [op]).register.Faithful :=
    faithful_run hready h.faithful ⟨hforward, trivial⟩
  exact
    { legible := hready.after.legible
      sound := hready.after.sound
      faithful := hfaithful
      writable := writable_after hstorage h.writable }

omit [TimestampSource τ] [AscendingSource τ] in
theorem Operation.clockAfter_of_steady (h : op.isSteady = true) (now : UInt64) :
    op.clockAfter now = now := by
  cases op with
  | clock => cases h
  | _ => rfl

omit [TimestampSource τ] [AscendingSource τ] in
theorem Operation.keepsStorage_of_steady (h : op.isSteady = true) : op.keepsStorage = true := by
  cases op with
  | outage | limit => cases h
  | _ => rfl

theorem Operation.supplied_of_not_asks {r : Register τ} (h : op.asks = false) : op.Supplied r := by
  intro hasks
  rw [h] at hasks
  cases hasks

theorem Healthy.after_steady (h : s.Healthy) (hsupplied : op.Supplied s.register)
    (hsteady : op.isSteady = true) : (s.after op).Healthy := by
  have hforward : s.now ≤ op.clockAfter s.now := by
    rw [Operation.clockAfter_of_steady hsteady]
    exact UInt64.le_refl _
  exact h.after hsupplied hforward (Operation.keepsStorage_of_steady hsteady)

end Live

end Ledger

end Mvcc

import Mvcc.Proofs.Txn.Roots
import Mvcc.Proofs.Txn.Simulation
import Mvcc.Proofs.Txn.Supply
import Mvcc.Txn.CommitStage

/-!
# Stages of a commit

A commit changes its own transaction only. All stages but one are steps of whole operations. The
exception stores the commit timestamp: it was drawn before, and later ones may have been drawn
since.
-/

namespace Mvcc

open TxnM

namespace Register

variable {τ : Type} {r r' : Register τ} {id : TxnId} {time : Timestamp}

/-! ## Unaffected transactions -/

/-- A transaction that may still commit. -/
def Live (r : Register τ) (id : TxnId) : Prop :=
  ∃ txn, r.records id = some txn ∧ txn.state = .active ∧ r.isSilent txn = false

/-- A transaction is unchanged, unless it has just begun. -/
structure Spares (r r' : Register τ) (id : TxnId) : Prop where
  conditions : r'.conditions = r.conditions
  record : r'.records id = r.records id ∨
    r.records id = none ∧ ∃ txn, r'.records id = some txn ∧ txn.state = .active

theorem isSilent_of_conditions (h : r'.conditions = r.conditions) :
    r'.isSilent = r.isSilent := by
  have hnow : r'.now = r.now := congrArg Prod.fst h
  have hsettings : r'.settings = r.settings := congrArg (·.2.1) h
  funext txn
  rw [isSilent, isSilent, hnow, hsettings]

theorem outcome?_of_record (h : r'.conditions = r.conditions)
    (hrecord : r'.records id = r.records id) : r'.outcome? id = r.outcome? id := by
  have hcurrent : r'.current = r.current := by
    funext txn
    rw [current, current, isSilent_of_conditions h]
  rw [outcome?, outcome?, standing?, standing?, hrecord, hcurrent]

theorem Spares.live (h : r.Spares r' id) (hlive : r.Live id) : r'.Live id := by
  obtain ⟨txn, hrecord, hactive, hsilent⟩ := hlive
  rcases h.record with hsame | ⟨hnone, -⟩
  · refine ⟨txn, hsame.trans hrecord, hactive, ?_⟩
    rw [isSilent_of_conditions h.conditions]
    exact hsilent
  · cases hnone.symm.trans hrecord

theorem outcome?_of_active {txn : Txn} (hrecord : r.records id = some txn)
    (hactive : txn.state = .active) : r.outcome? id ≠ some (.committed time) := by
  have hstate : (r.current txn).state ≠ .committed := by
    rw [ne_eq, current_committed_iff, hactive]
    decide
  rw [outcome?, standing?_of_record hrecord, Option.bind_some, outcome_alone]
  cases hcurrent : (r.current txn).state with
  | committed => exact absurd hcurrent hstate
  | active | rolledBack => simp

theorem Spares.committed_iff (h : r.Spares r' id) :
    r'.outcome? id = some (.committed time) ↔ r.outcome? id = some (.committed time) := by
  rcases h.record with hsame | ⟨hnone, txn, hrecord, hactive⟩
  · rw [outcome?_of_record h.conditions hsame]
  · have hbefore : r.outcome? id = none := by
      rw [outcome?, standing?, hnone]
      rfl
    rw [hbefore]
    exact iff_of_false (outcome?_of_active hrecord hactive) (Option.some_ne_none _).symm

section Begin

variable [TimestampSource τ]

theorem Entered.spares {parent : Option TxnId} {isolation : Option Isolation}
    {additive : Option Bool} (h : r.Entered parent isolation additive r') (hfresh : r.Fresh)
    (id : TxnId) : r.Spares r' id := by
  refine ⟨h.served.conditions, ?_⟩
  cases h with
  | rejected hlooked => exact .inl (congrFun hlooked.records id)
  | unused hlooked hdraw => exact .inl (congrFun hlooked.records id)
  | @enter r₁ hlooked time source hdraw keepAlive =>
    by_cases hid : id = time
    · subst hid
      exact .inr ⟨hfresh id source (hlooked.steps.source ▸ hdraw), _, if_pos rfl, rfl⟩
    · exact .inl ((if_neg hid).trans (congrFun hlooked.records id))

theorem Starved.records (h : r.Starved r') : r'.records = r.records := by
  obtain ⟨r₁, e, source, hlooked, -, rfl⟩ := h
  exact hlooked.records

end Begin

/-! ## Commits -/

variable [TimestampSource τ] [AscendingSource τ]

/-- A transaction that was not committed before commits at a later timestamp than all earlier ones.
-/
theorem Plain.committed_of_proceeds (h : r.Plain) (hproceeds : r.Proceeds (· = none) r')
    (hcommitted : r'.outcome? id = some (.committed time)) :
    r.outcome? id = some (.committed time) ∨ r.latest < time := by
  cases houtcome : r.outcome? id with
  | some stamp =>
    have hkept := hproceeds.settles.outcome? houtcome
    exact .inl (hkept.symm.trans hcommitted)
  | none =>
    refine .inr ?_
    cases hrecord : r.records id with
    | some txn => exact h.latest_lt hproceeds (by rw [hrecord]; rfl) houtcome hcommitted
    | none =>
      obtain ⟨txn, hrecord', -⟩ := (h.proceeds hproceeds).outcome?_eq_committed_iff.1 hcommitted
      have hbegan := (hproceeds.advances.born hrecord hrecord').1
      have hafter := ((h.proceeds hproceeds).lt_of_committed hcommitted).1
      exact UInt64.lt_trans hbegan hafter

theorem Plain.put_committed (h : r.Plain) {txn : Txn} (hrecord : r.records id = some txn)
    (hactive : txn.state = .active) (hlive : r.isSilent txn = false) (hlt : id < time)
    (hle : time ≤ r.latest) :
    (r.put id { txn with commitTime := some time, state := .committed }).Plain ∧
      r.Settles (r.put id { txn with commitTime := some time, state := .committed }) := by
  have hsettles : r.Settles (r.put id { txn with commitTime := some time, state := .committed }) :=
    settles_put_live hrecord hactive hlive r.source
  refine ⟨⟨?_, ?_, ?_⟩, hsettles⟩
  · have hlatest : r.latest ≤ AscendingSource.latest r.source := UInt64.le_refl _
    refine h.sound.put_active hrecord hactive hlatest rfl (by simp) ?_
    rintro _ ⟨⟩
    exact ⟨hlt, hle⟩
  · exact h.faithful.of_settles hsettles fun _ _ hrecalled => .inl hrecalled
  · intro other found hfound
    simp only [put] at hfound
    split at hfound
    · cases hfound
      have hroot := h.root hrecord
      exact hroot
    · exact h.root hfound

end Register

/-! ## Stages -/

namespace CommitStage

/-- Only the call that draws the time of the commit asks for a timestamp. -/
def asks : CommitStage → Bool
  | .checked => true
  | _ => false

section

variable {τ : Type} [TimestampSource τ] [AscendingSource τ] {r r' : Register τ} {id : TxnId}
  {stage stage' : CommitStage}

/-- The invariant of the transaction whose commit is at this stage. -/
def Fits (r : Register τ) (id : TxnId) : CommitStage → Prop
  | .begun | .ended _ => True
  | .checked => r.Live id
  | .drawn time => r.Live id ∧ id < time ∧ time ≤ r.latest
  | .dated time => r.outcome? id = some (.committed time)

theorem Fits.of_spares (h : stage.Fits r id) (hspares : r.Spares r' id)
    (hlatest : r.latest ≤ r'.latest) : stage.Fits r' id := by
  cases stage with
  | begun | ended => trivial
  | checked => exact hspares.live h
  | drawn time =>
    obtain ⟨hlive, hlt, hle⟩ := h
    exact ⟨hspares.live hlive, hlt, UInt64.le_trans hle hlatest⟩
  | dated time => exact hspares.committed_iff.2 h

/-- The effect of one call of the commit of `id`. -/
structure Carries (id : TxnId) (stage stage' : CommitStage) (r r' : Register τ) : Prop where
  plain : r'.Plain
  settles : r.Settles r'
  endures : r.Endures r'
  latest_le : r.latest ≤ r'.latest
  conditions : r'.conditions = r.conditions
  others {other : TxnId} (h : other ≠ id) : r'.records other = r.records other
  fits : stage'.Fits r' id
  /-- A past commit time was drawn for its transaction. -/
  committed {other : TxnId} {time : Timestamp} (h : r'.outcome? other = some (.committed time)) :
    r.outcome? other = some (.committed time) ∨ other = id ∧ stage = .drawn time ∨ r.latest < time
  drawn {time : Timestamp} (h : stage' = .drawn time) : r.latest < time
  supply_le : AscendingSource.supply r.source ≤
    AscendingSource.supply r'.source + if stage.asks then 1 else 0

theorem Carries.spares (h : Carries id stage stage' r r') {other : TxnId} (hother : other ≠ id) :
    r.Spares r' other :=
  ⟨h.conditions, .inl (h.others hother)⟩

theorem Carries.of_proceeds (h : r.Plain) (hproceeds : r.Proceeds (· = none) r')
    (hconditions : r'.conditions = r.conditions)
    (hothers : ∀ other, other ≠ id → r'.records other = r.records other)
    (hfits : stage'.Fits r' id) (hdrawn : ∀ time, stage' = .drawn time → r.latest < time)
    (hsupply : AscendingSource.supply r.source ≤
      AscendingSource.supply r'.source + if stage.asks then 1 else 0) :
    Carries id stage stage' r r' where
  plain := h.proceeds hproceeds
  settles := hproceeds.settles
  endures := hproceeds.advances.endures
  latest_le := hproceeds.advances.latest_le
  conditions := hconditions
  others := hothers _
  fits := hfits
  committed hcommitted := (h.committed_of_proceeds hproceeds hcommitted).imp_right .inr
  drawn := hdrawn _
  supply_le := hsupply

theorem Carries.of_steps (h : r.Plain) (hsteps : r.Steps r')
    (hothers : ∀ other, other ≠ id → r'.records other = r.records other)
    (hfits : stage'.Fits r' id) (hdrawn : ∀ time, stage' ≠ .drawn time) :
    Carries id stage stage' r r' := by
  refine .of_proceeds h (hsteps.proceeds _ h.sound) (congrArg Prod.snd hsteps.surroundings) hothers
    hfits (fun time htime => absurd htime (hdrawn time)) ?_
  rw [hsteps.source]
  exact Nat.le_add_right ..

theorem Carries.refl (h : r.Plain) (hfits : stage'.Fits r id)
    (hdrawn : ∀ time, stage' ≠ .drawn time) : Carries id stage stage' r r :=
  .of_steps h .refl (fun _ _ => rfl) hfits hdrawn

theorem Carries.date (h : r.Plain) {time : Timestamp} (hlt : id < time) (hle : time ≤ r.latest)
    {txn : Txn} (hrecord : r.records id = some txn) (hactive : txn.state = .active)
    (hlive : r.isSilent txn = false) :
    Carries id (.drawn time) (.dated time) r
      (r.put id { txn with commitTime := some time, state := .committed }) := by
  obtain ⟨hplain, hsettles⟩ := h.put_committed hrecord hactive hlive hlt hle
  have hspares : ∀ other, other ≠ id →
      r.Spares (r.put id { txn with commitTime := some time, state := .committed }) other :=
    fun other hother => ⟨rfl, .inl (if_neg hother)⟩
  have hdated : (r.put id { txn with commitTime := some time, state := .committed }).outcome? id =
      some (.committed time) :=
    hplain.outcome?_eq_committed_iff.2 ⟨_, if_pos rfl, rfl, rfl⟩
  refine ⟨hplain, hsettles, ?_, UInt64.le_refl _, rfl, fun hother => if_neg hother, hdated,
    ?_, nofun, Nat.le_add_right ..⟩
  · intro other found hfound
    by_cases hother : other = id
    · subst hother
      cases hrecord.symm.trans hfound
      exact ⟨_, if_pos rfl, rfl⟩
    · exact ⟨found, (if_neg hother).trans hfound, rfl⟩
  · intro other later hcommitted
    by_cases hother : other = id
    · subst hother
      cases hdated.symm.trans hcommitted
      exact .inr (.inl ⟨rfl, rfl⟩)
    · exact .inl (((hspares other hother).committed_iff).1 hcommitted)

end

theorem of_ends {σ α : Type} {steps : TxnM σ α} {s : σ} {next : α → CommitStage}
    {p : CommitStage → σ → Prop}
    (h : Ends steps s (fun answer s' => p (next answer) s') fun e s' => p (.ended (.error e)) s') :
    p (onceAnswered next (steps s)).1 (onceAnswered next (steps s)).2 := by
  unfold Ends at h
  cases hsteps : steps s <;> rwa [hsteps] at h

end CommitStage

/-! ## Calls -/

namespace Ledger

variable {τ : Type} {s : Ledger τ} {id : TxnId}

theorem putState_others (hs : s.Legible) {txn : Txn} (h : s.register.records id = some txn)
    (state : TxnState) :
    Leaves (putSlot id Slot.state (Slot.encodeState state)) s
      fun s' => ∀ other, other ≠ id → s'.register.records other = s.register.records other := by
  have hdecode := Slot.decode_insert_state (records_eq_some_iff.1 h) state
  refine (putSlot_ends hs hdecode).mono ?_ ?_
  · rintro _ s' ⟨-, hregister⟩ other hother
    rw [hregister]
    exact if_neg hother
  · rintro _ s' ⟨-, hregister⟩ other -
    rw [hregister]

theorem writeTimeout_others (hs : s.Legible) {txn : Txn} (h : s.register.records id = some txn) :
    Leaves (writeTimeout id) s
      fun s' => ∀ other, other ≠ id → s'.register.records other = s.register.records other := by
  simp only [writeTimeout, count, ends_bind, ends_modify, ends_tryCatch, ends_pure]
  let counted : Ledger τ := { s with tally := { s.tally with timeouts := s.tally.timeouts + 1 } }
  exact putState_others (s := counted) hs h .rolledBack

theorem checkCommit_others (hs : s.Legible) :
    Leaves (checkCommit id) s
      fun s' => ∀ other, other ≠ id → s'.register.records other = s.register.records other := by
  unfold checkCommit
  refine ends_bind.2 ((loadExisting_ends hs).mono ?_ ?_)
  · rintro txn s ⟨rfl, hrecord⟩
    cases txn.state with
    | committed => cases (txn.commitTime <|> txn.globalCommitTime) <;> exact fun _ _ => rfl
    | rolledBack => exact fun _ _ => rfl
    | active =>
      simp only [ends_bind, ends_get]
      split
      · simp only [ends_bind, ends_throw]
        exact writeTimeout_others hs hrecord
      · cases txn.parent with
        | none => exact fun _ _ => rfl
        | some parent =>
          simp only [ends_bind]
          refine (resolve_ends hs).mono ?_ ?_
          · rintro view s' ⟨hlooked, -⟩
            split <;> exact fun other _ => congrFun hlooked.2.records other
          · exact fun _ _ hlooked other _ => congrFun hlooked.2.records other
  · rintro e s ⟨rfl, -⟩ other -
    rfl

/-- Writing the committed state of a dated transaction changes no standing. -/
theorem concludeCommit_looked (hs : s.Legible) {txn : Txn} (h : s.register.records id = some txn)
    (hstate : txn.state = .committed) (htime : txn.commitTime.isSome) :
    Leaves (concludeCommit id) s s.Looked := by
  have hsettled : { txn with state := txn.settled .committed } = txn := by
    simp [Txn.settled, htime, ← hstate]
  have hsame : s.register.put id txn = s.register := by
    have hrecords : (s.register.put id txn).records = s.register.records := by
      funext other
      by_cases hother : other = id
      · subst hother
        exact (if_pos rfl).trans h.symm
      · exact if_neg hother
    exact congrArg (fun records => { s.register with records := records }) hrecords
  have hdecode := Slot.decode_insert_state (records_eq_some_iff.1 h) .committed
  rw [hsettled] at hdecode
  simp only [concludeCommit, writeCommitted, ends_bind, count, ends_modify]
  refine (putSlot_ends hs hdecode).mono ?_ ?_
  · rintro _ s' ⟨hs', hregister⟩
    let counted : Ledger τ :=
      { s' with tally := { s'.tally with committed := s'.tally.committed + 1 } }
    have hcounted : s.Looked counted := by
      refine ⟨hs', ?_⟩
      have hkept : counted.register = s.register := hregister.trans hsame
      rw [hkept]
    exact (forget_ends (s := counted) hs').mono (fun _ _ hforgot => hcounted.trans hforgot)
      fun _ _ h => h.elim
  · rintro e s' ⟨hs', hregister⟩
    refine ⟨hs', ?_⟩
    rw [hregister]

variable [TimestampSource τ] [AscendingSource τ] {stage : CommitStage}

def Carried (id : TxnId) (stage : CommitStage) (s : Ledger τ) (stage' : CommitStage)
    (s' : Ledger τ) : Prop :=
  s'.Legible ∧ stage.Carries id stage' s.register s'.register

theorem Carried.of_looked {s s' : Ledger τ} (h : s.register.Plain) (hlooked : s.Looked s')
    {stage' : CommitStage} (hfits : stage'.Fits s'.register id)
    (hdrawn : ∀ time, stage' ≠ .drawn time) : Carried id stage s stage' s' :=
  ⟨hlooked.1, .of_steps h hlooked.2.steps (fun other _ => congrFun hlooked.2.records other) hfits
    hdrawn⟩

theorem carried_of_begun (hs : s.Legible) (h : s.register.Plain) :
    Ends (checkCommit id) s (fun found s' => Carried id .begun s (.ofCheck found) s')
      fun e s' => Carried id .begun s (.ended (.error e)) s' := by
  refine ((checkCommit_ends hs).and (checkCommit_others hs)).mono ?_ ?_
  · rintro found s' ⟨⟨hlooked, hfound⟩, -⟩
    cases found with
    | some time => exact .of_looked h hlooked trivial nofun
    | none =>
      have hspares : s.register.Spares s'.register id :=
        ⟨congrArg Prod.snd hlooked.2.steps.surroundings,
          .inl (congrFun hlooked.2.records id)⟩
      exact .of_looked h hlooked (hspares.live hfound) nofun
  · rintro e s' ⟨hstepped, hothers⟩
    exact ⟨hstepped.1, .of_steps h hstepped.2 hothers trivial nofun⟩

theorem carried_of_checked (hs : s.Legible) (h : s.register.Plain)
    (hlive : s.register.Live id) (hsupply : 0 < AscendingSource.supply s.source) :
    Ends draw s (fun time s' => Carried id .checked s (.drawn time) s')
      fun e s' => Carried id .checked s (.ended (.error e)) s' := by
  refine (draw_ends hs).mono ?_ ?_
  · rintro time s' ⟨hpartition, source, hdraw, hregister⟩
    obtain ⟨hlt, hle, hsupply'⟩ := AscendingSource.drawn hsupply hdraw
    have hproceeds : s.register.Proceeds (· = none) s'.register := by
      rw [hregister]
      exact Register.Drawn.proceeds h.sound hsupply (.unused hdraw)
    have hrecords : s'.register.records = s.register.records := by
      rw [hregister]
      rfl
    have hspares : s.register.Spares s'.register id :=
      ⟨by rw [hregister]; rfl, .inl (congrFun hrecords id)⟩
    have hbegan : id ≤ s.register.latest := by
      obtain ⟨txn, hrecord, -⟩ := hlive
      exact (h.sound.known hrecord).2.2
    refine ⟨fun other => hpartition ▸ hs other, .of_proceeds h hproceeds hspares.conditions
      (fun other _ => congrFun hrecords other) ⟨hspares.live hlive, ?_, ?_⟩ ?_ ?_⟩
    · exact UInt64.lt_of_le_of_lt hbegan hlt
    · rw [hregister]
      exact hle
    · rintro _ ⟨⟩
      exact hlt
    · rw [hregister]
      exact hsupply'
  · rintro e s' ⟨hs', hstarved, -⟩
    refine ⟨hs', .of_proceeds h (hstarved.proceeds _ h.sound hsupply) hstarved.conditions
      (fun other _ => congrFun hstarved.records other) trivial nofun ?_⟩
    exact hstarved.supply_le hsupply

theorem carried_of_drawn (hs : s.Legible) (h : s.register.Plain) {time : Timestamp}
    (hfits : (CommitStage.drawn time).Fits s.register id) :
    Ends (writeCommitTime id time) s (fun _ s' => Carried id (.drawn time) s (.dated time) s')
      fun e s' => Carried id (.drawn time) s (.ended (.error e)) s' := by
  obtain ⟨⟨txn, hrecord, hactive, hlive⟩, hlt, hle⟩ := hfits
  have hdecode := Slot.decode_insert_commit (records_eq_some_iff.1 hrecord) time
  refine (putSlot_ends hs hdecode).mono ?_ ?_
  · rintro _ s' ⟨hs', hregister⟩
    refine ⟨hs', ?_⟩
    rw [hregister]
    exact .date h hlt hle hrecord hactive hlive
  · rintro e s' ⟨hs', hregister⟩
    refine ⟨hs', ?_⟩
    rw [hregister]
    exact .refl h trivial nofun

theorem carried_of_dated (hs : s.Legible) (h : s.register.Plain) {time : Timestamp}
    (hfits : (CommitStage.dated time).Fits s.register id) :
    Ends (concludeCommit id) s
      (fun _ s' => Carried id (.dated time) s (.ended (.ok time)) s')
      fun e s' => Carried id (.dated time) s (.ended (.error e)) s' := by
  obtain ⟨txn, hrecord, hstate, htime⟩ := h.outcome?_eq_committed_iff.1 hfits
  refine (concludeCommit_looked hs hrecord hstate (by rw [htime]; rfl)).mono ?_ ?_
  · exact fun _ s' hlooked => .of_looked h hlooked trivial nofun
  · exact fun _ s' hlooked => .of_looked h hlooked trivial nofun

/-- Every call of a commit establishes the invariant of its stage, on success and on failure. -/
theorem proceed_carried (hs : s.Legible) (h : s.register.Plain)
    (hfits : stage.Fits s.register id)
    (hsupply : stage.asks = true → 0 < AscendingSource.supply s.source) :
    Carried id stage s (proceed id stage s).1 (proceed id stage s).2 := by
  cases stage with
  | begun => exact CommitStage.of_ends (carried_of_begun hs h)
  | checked => exact CommitStage.of_ends (carried_of_checked hs h hfits (hsupply rfl))
  | drawn time => exact CommitStage.of_ends (carried_of_drawn hs h hfits)
  | dated time => exact CommitStage.of_ends (carried_of_dated hs h hfits)
  | ended result => exact ⟨hs, .refl h trivial nofun⟩

theorem supply_pos_of_drawn (hsupply : 0 < AscendingSource.supply s.source)
    (hanswered : ∀ refusal source, TimestampSource.draw s.source ≠ .error refusal source) :
    0 < AscendingSource.supply (proceed id .checked s).2.source := by
  simp only [proceed, draw]
  cases hdraw : TimestampSource.draw s.source with
  | ok time source => exact AscendingSource.answered hsupply hdraw
  | error refusal source => exact absurd hdraw (hanswered refusal source)

/-! ## One call after another -/

def carry (id : TxnId) : Nat → CommitStage × Ledger τ → CommitStage × Ledger τ
  | 0, commit => commit
  | calls + 1, commit => carry id calls (proceed id commit.1 commit.2)

omit [AscendingSource τ] in
@[simp] theorem carry_ended (id : TxnId) (calls : Nat) (result : Except TxnError Timestamp)
    (s : Ledger τ) : carry id calls (.ended result, s) = (.ended result, s) := by
  induction calls with
  | zero => rfl
  | succ calls ih => exact ih

omit [AscendingSource τ] in
/-- Without interleaving, the calls of a commit are `commit`. -/
theorem carry_eq_commit (id : TxnId) (s : Ledger τ) :
    carry id 4 (.begun, s) =
      match commit id s with
      | .ok time s' => (.ended (.ok time), s')
      | .error e s' => (.ended (.error e), s') := by
  have hnext : ∀ (calls : Nat) (stage : CommitStage) (s : Ledger τ),
      carry id (calls + 1) (stage, s) = carry id calls (proceed id stage s) := fun _ _ _ => rfl
  simp only [commit, bind, EStateM.bind]
  rw [hnext, proceed]
  cases checkCommit id s with
  | error e s₁ => exact carry_ended id 3 (.error e) s₁
  | ok found s₁ =>
    cases found with
    | some time => exact carry_ended id 3 (.ok time) s₁
    | none =>
      simp only [CommitStage.onceAnswered, CommitStage.ofCheck, EStateM.bind]
      rw [hnext, proceed]
      cases draw s₁ with
      | error e s₂ => exact carry_ended id 2 (.error e) s₂
      | ok time s₂ =>
        simp only [CommitStage.onceAnswered]
        rw [hnext, proceed]
        cases writeCommitTime id time s₂ with
        | error e s₃ => exact carry_ended id 1 (.error e) s₃
        | ok _ s₃ =>
          simp only [CommitStage.onceAnswered]
          rw [hnext, proceed]
          simp only [concludeCommit, bind, EStateM.bind]
          cases writeCommitted id s₃ <;> rfl

end Ledger

end Mvcc

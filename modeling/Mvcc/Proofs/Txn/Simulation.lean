import Mvcc.Proofs.Txn.Lineage

/-!
# Ledgers simulate registers

Every operation of a ledger is a sequence of steps of its register, also if it fails between two
slot writes or at a refused timestamp.
-/

namespace Mvcc.Ledger

open TxnM

variable {τ : Type} {s : Ledger τ} {id : TxnId}

/-- The steps lead from `s` to a legible ledger, through register steps without a timestamp. -/
def Stepped (s s' : Ledger τ) : Prop := s'.Legible ∧ s.register.Steps s'.register

theorem Looked.stepped {s s' : Ledger τ} (h : s.Looked s') : s.Stepped s' := ⟨h.1, h.2.steps⟩

theorem Stepped.refl (hs : s.Legible) : s.Stepped s := ⟨hs, .refl⟩

theorem Stepped.trans {s s' s'' : Ledger τ} (h : s.Stepped s') (h' : s'.Stepped s'') :
    s.Stepped s'' :=
  ⟨h'.1, h.2.trans h'.2⟩

/-- The steps lead from `s` to a legible ledger, with at most one timestamp drawn. -/
def Served [TimestampSource τ] (s s' : Ledger τ) : Prop :=
  s'.Legible ∧ s.register.Served (fun _ => False) s'.register

/-- The steps lead from `s` to a legible ledger, where a transaction may have begun. -/
def Entered [TimestampSource τ] (parent : Option TxnId) (isolation : Option Isolation)
    (additive : Option Bool) (s s' : Ledger τ) : Prop :=
  s'.Legible ∧ s.register.Entered parent isolation additive s'.register

/-- The steps fail for want of a timestamp. -/
def Starved [TimestampSource τ] (s : Ledger τ) (e : TxnError) (s' : Ledger τ) : Prop :=
  s'.Legible ∧ s.register.Starved s'.register ∧ ∃ refusal, e = .timestamp refusal

theorem Stepped.served [TimestampSource τ] {s s' : Ledger τ} (h : s.Stepped s') : s.Served s' :=
  ⟨h.1, .inl h.2⟩

theorem Looked.entered [TimestampSource τ] {parent : Option TxnId} {isolation : Option Isolation}
    {additive : Option Bool} {s s' : Ledger τ} (h : s.Looked s') :
    s.Entered parent isolation additive s' :=
  ⟨h.1, .rejected h.2⟩

theorem Starved.of_looked [TimestampSource τ] {s s' s'' : Ledger τ} {e : TxnError}
    (h : s.Looked s') (h' : s'.Starved e s'') : s.Starved e s'' := by
  obtain ⟨hs'', ⟨r, refusal, source, hremembers, hdraw, hr⟩, he⟩ := h'
  exact ⟨hs'', ⟨r, refusal, source, h.2.trans hremembers, hdraw, hr⟩, he⟩

/-! ## Operations without a timestamp -/

/-- A record stored as active has no commit, so its state slot counts. -/
theorem settled_of_active {txn : Txn} (h : s.register.records id = some txn)
    (hactive : txn.state = .active) (written : TxnState) : txn.settled written = written := by
  have hcommitted := Slot.committed_of_decode (records_eq_some_iff.1 h)
  rw [hactive] at hcommitted
  unfold Txn.settled
  split
  · rename_i htime
    exact nomatch hcommitted (by simpa using htime)
  · rfl

theorem putSlot_stepped (hs : s.Legible) {slot value : Bytes} {txn : Txn}
    (hdecode : Slot.decode id
      ((s.partition.columns (Slot.rowKey id)).insert slot value).entries = .ok txn)
    (hstep : s.register.Step (s.register.put id txn)) :
    Leaves (putSlot id slot value) s s.Stepped := by
  refine (putSlot_ends hs hdecode).mono ?_ ?_
  · intro _ s' h
    exact ⟨h.1, h.2 ▸ .single hstep⟩
  · intro _ s' h
    exact ⟨h.1, h.2 ▸ .refl⟩

/-- Steps that begin by loading a record continue with it, or end there. -/
theorem loadExisting_bind_ends {α : Type} {next : Txn → TxnM (Ledger τ) α}
    {good : α → Ledger τ → Prop} (hs : s.Legible)
    (hnext : ∀ txn, s.register.records id = some txn →
      Ends (next txn) s good fun _ s' => s.Stepped s') :
    Ends (loadExisting id >>= next) s good fun _ s' => s.Stepped s' := by
  rw [ends_bind]
  refine (loadExisting_ends hs).mono ?_ ?_
  · rintro txn s ⟨rfl, h⟩
    exact hnext txn h
  · rintro e s ⟨rfl, -⟩
    exact .refl hs

theorem putRolledBack_ends (hs : s.Legible) {txn : Txn} (h : s.register.records id = some txn)
    (hactive : txn.state = .active) :
    Leaves (putSlot id Slot.state (Slot.encodeState .rolledBack)) s s.Stepped := by
  have hdecode := Slot.decode_insert_state (records_eq_some_iff.1 h) .rolledBack
  rw [settled_of_active h hactive] at hdecode
  exact putSlot_stepped hs hdecode (.rollBack h hactive)

theorem writeTimeout_ends (hs : s.Legible) {txn : Txn} (h : s.register.records id = some txn)
    (hactive : txn.state = .active) :
    Leaves (writeTimeout id) s s.Stepped := by
  simp only [writeTimeout, count, ends_bind, ends_modify, ends_tryCatch, ends_pure]
  exact putRolledBack_ends (s := { s with tally := _ }) hs h hactive

theorem rollback_ends (hs : s.Legible) :
    Leaves (rollback id) s s.Stepped := by
  unfold rollback
  refine loadExisting_bind_ends hs fun txn h => ?_
  cases hstate : txn.state with
  | active =>
    simp only [ends_bind, count, ends_modify]
    exact putRolledBack_ends hs h hstate
  | committed => exact .refl hs
  | rolledBack => exact .refl hs

theorem keepAlive_ends (hs : s.Legible) :
    Leaves (keepAlive id) s s.Stepped := by
  unfold keepAlive
  refine loadExisting_bind_ends hs fun txn h => ?_
  by_cases hactive : txn.state = .active
  · simp only [hactive, ne_eq, not_true_eq_false, if_false, ends_bind, ends_get]
    cases hsilent : s.isSilent txn.keepAlive with
    | true =>
      simp only [if_true, ends_bind, ends_pure]
      exact writeTimeout_ends hs h hactive
    | false =>
      simp only [Bool.false_eq_true, if_false, ends_bind, ends_get, ends_pure]
      have hdecode := Slot.decode_insert_keepAlive (records_eq_some_iff.1 h)
        (max s.now txn.keepAlive)
      exact putSlot_stepped hs hdecode (.beat h hactive hsilent _)
  · simp only [hactive, ne_eq, not_false_eq_true, if_true, ends_pure]
    exact .refl hs

theorem recordDestination_ends (hs : s.Legible) (table : String) :
    Leaves (recordDestination id table) s s.Stepped := by
  unfold recordDestination
  refine loadExisting_bind_ends hs fun txn h => ?_
  simp only [ends_bind, ends_get]
  by_cases hcurrent : s.currentState txn.state txn.keepAlive = .active
  · obtain ⟨hactive, hlive⟩ := (Register.current_active_iff (r := s.register)).1 hcurrent
    simp only [hcurrent, ne_eq, not_true_eq_false, if_false]
    split
    · exact .refl hs
    · simp only [ends_bind, ends_ofExcept]
      cases hslot : Slot.encodeDestinations (txn.destinations.add table) with
      | error fault => exact .refl hs
      | ok slot =>
        have hdecode := Slot.decode_insert_destinations (records_eq_some_iff.1 h) hslot
        exact putSlot_stepped hs hdecode (.note h hactive hlive _)
  · simp only [hcurrent, ne_eq, not_false_eq_true, if_true]
    exact .refl hs

/-! ## Operations that draw a timestamp -/

/-- A check that leaves the commit to be done has found a live transaction; one that answers a time
has found it stored. -/
theorem checkCommit_ends (hs : s.Legible) :
    Ends (checkCommit id) s
      (fun found s' => s.Looked s' ∧
        match found with
        | some time => s.register.CommittedAt id time
        | none => ∃ txn, s.register.records id = some txn ∧ txn.state = .active ∧
            s.register.isSilent txn = false)
      fun _ s' => s.Stepped s' := by
  unfold checkCommit
  refine loadExisting_bind_ends hs fun txn h => ?_
  cases hstate : txn.state with
  | committed =>
    cases htime : (txn.commitTime <|> txn.globalCommitTime) with
    | none => exact .refl hs
    | some time => exact ⟨.refl hs, txn, h, hstate, htime⟩
  | rolledBack => exact .refl hs
  | active =>
    simp only [ends_bind, ends_get]
    cases hsilent : s.isSilent txn.keepAlive with
    | true =>
      simp only [if_true, ends_bind, ends_throw]
      exact writeTimeout_ends hs h hstate
    | false =>
      simp only [Bool.false_eq_true, if_false]
      have hlive : ∃ txn, s.register.records id = some txn ∧ txn.state = .active ∧
          s.register.isSilent txn = false := ⟨txn, h, hstate, hsilent⟩
      cases txn.parent with
      | none => exact ⟨.refl hs, hlive⟩
      | some parent =>
        simp only [ends_bind]
        refine (resolve_ends hs).mono ?_ (fun _ _ h => h.stepped)
        rintro view s₁ ⟨hlooked, -⟩
        split
        · exact hlooked.stepped
        · exact ⟨hlooked, hlive⟩

theorem forget_ends (hs : s.Legible) :
    Ends (forget id) s (fun _ s' => s.Looked s') fun _ _ => False := by
  refine ⟨hs, rfl, fun other txn htxn => .inl ?_⟩
  have hrecall : (s.completed.remove id).remembered? other = some txn := htxn
  rw [ExpiringCache.remembered?_remove] at hrecall
  split at hrecall
  · cases hrecall
  · exact hrecall

theorem checkParent_ends (hs : s.Legible) :
    Ends (checkParent id) s (fun view s' => s.Looked s' ∧ s.register.Lineage id view.chain)
      fun _ s' => s.Looked s' := by
  simp only [checkParent, ends_bind]
  refine (resolve_ends hs).mono ?_ (fun _ _ h => h)
  rintro view s₁ ⟨hlooked, hchain⟩
  split
  · exact hlooked
  · exact ⟨hlooked, hchain⟩

theorem mapM_checkParent_ends (hs : s.Legible) (parent : Option TxnId) :
    Leaves (parent.mapM checkParent) s s.Looked := by
  cases parent with
  | none => exact .refl hs
  | some id =>
    rw [Option.mapM_some]
    exact ends_map.2 ((checkParent_ends hs).mono (fun _ _ h => h.1) (fun _ _ h => h))

/-- The core slot of a new record makes it a record without a keep-alive timestamp. -/
theorem putCore_ends (txn : Txn) (hs : s.Legible) (h : s.register.records txn.id = none) :
    Ends (putSlot txn.id Slot.core (Slot.encodeCore txn)) s
      (fun _ s' => s'.Legible ∧ s'.register = s.register.put txn.id txn.origin)
      fun _ s' => s'.Legible ∧ s'.register = s.register := by
  refine putSlot_ends hs ?_
  rcases hs txn.id with hempty | ⟨stored, hstored⟩
  · rw [SortedMap.eq_empty_of_isEmpty hempty]
    exact Slot.decode_insert_core txn
  · rw [records_eq_some_iff.2 hstored] at h
    cases h

theorem records_of_put {r : Register τ} {txn : Txn} (h : s.register = r.put id txn) :
    s.register.records id = some txn := by
  rw [h]
  exact if_pos rfl

theorem listActive_ends (listing : Listing) :
    Leaves (listActive listing) s fun s' => s' = s := by
  simp only [listActive, ends_bind, ends_get, ends_ofExcept]
  cases s.partition.scan [] with
  | error e => trivial
  | ok rows =>
    cases hfound : rows.mapM (s.activeIn listing) with
    | error fault => simp only [hfound]
    | ok found => simp only [hfound, ends_pure]

/-- A global commit is not recorded at all, or commits a transaction that is not stored as rolled
back. -/
theorem recordGlobalCommit_ends (hs : s.Legible) (time : Timestamp) :
    Ends (recordGlobalCommit id time) s
      (fun _ s' => s'.Legible ∧ s.register.Adopted id time s'.register)
      fun _ s' => s'.Legible ∧ s'.register = s.register := by
  simp only [recordGlobalCommit, ends_bind]
  refine (loadExisting_ends hs).mono ?_ ?_
  · rintro txn s ⟨rfl, h⟩
    by_cases hstate : txn.state = .rolledBack
    · simp only [hstate, if_true]
      exact ⟨hs, rfl⟩
    · simp only [hstate, if_false, ends_bind]
      refine (putSlot_ends hs
        (Slot.decode_insert_globalCommit (records_eq_some_iff.1 h) time)).mono ?_ (fun _ _ h => h)
      rintro _ s₁ ⟨hs₁, hregister⟩
      refine ⟨hs₁, ?_⟩
      have hforgot : (s₁.recalling (s₁.completed.remove id)).register =
          { s₁.register with
            recalled := fun other => if other = id then none else s₁.register.recalled other } := by
        simp only [register, recalling, Register.mk.injEq, true_and, and_true]
        funext other
        exact ExpiringCache.remembered?_remove ..
      change s.register.Adopted id time (s₁.recalling (s₁.completed.remove id)).register
      rw [hforgot, hregister]
      exact .intro h hstate
  · rintro e s ⟨rfl, -⟩
    exact ⟨hs, rfl⟩

section Draw

variable [TimestampSource τ]

theorem draw_ends (hs : s.Legible) :
    Ends draw s
      (fun time s' => s'.partition = s.partition ∧ ∃ source,
        TimestampSource.draw s.source = .ok time source ∧
        s'.register = s.register.withSource source)
      fun e s' => s.Starved e s' := by
  unfold Ends draw
  cases hdraw : TimestampSource.draw s.source with
  | ok time source => exact ⟨rfl, source, rfl, rfl⟩
  | error refusal source => exact ⟨hs, ⟨_, refusal, source, .refl _, hdraw, rfl⟩, refusal, rfl⟩

theorem Looked.fresh {s s' : Ledger τ} (h : s.Looked s') (hfresh : s.register.Fresh) :
    s'.register.Fresh := by
  rw [h.2.1]
  exact hfresh

/-- A transaction answered by `create` has just begun. A failure between two slots may leave a
record too. -/
theorem create_begins (hs : s.Legible) (hfresh : s.register.Fresh) (parent : Option TxnId)
    (isolation : Option Isolation) (additive : Option Bool) :
    Ends (create parent isolation additive) s
      (fun txn s' => s'.Legible ∧
        s.register.Begun parent isolation additive txn s'.register)
      fun e s' => s.Entered parent isolation additive s' ∨ s.Starved e s' := by
  simp only [create, ends_bind]
  refine (mapM_checkParent_ends hs parent).mono ?_ (fun _ _ h => .inl h.entered)
  intro _ s₁ hlooked
  refine (draw_ends hlooked.1).mono ?_ (fun _ _ h => .inr (h.of_looked hlooked))
  rintro time s₂ ⟨hpartition, source, hdraw, hregister⟩
  have hs₂ : s₂.Legible := fun id => hpartition ▸ hlooked.1 id
  have hnone : s₂.register.records time = none := by
    rw [hregister]
    exact hlooked.fresh hfresh time source hdraw
  have hunused : s.register.Entered parent isolation additive s₂.register := by
    rw [hregister]
    exact .unused hlooked.2 hdraw
  have hentered : ∀ keepAlive, s.register.Entered parent isolation additive
      (s₂.register.put time (.entered time keepAlive parent isolation additive)) := by
    rw [hregister]
    exact fun keepAlive => .enter hlooked.2 hdraw keepAlive
  simp only [ends_get]
  refine (putCore_ends (.entered time s₂.now parent isolation additive) hs₂ hnone).mono
    ?_ fun _ s₃ h => .inl ⟨h.1, h.2 ▸ hunused⟩
  rintro _ s₃ ⟨hs₃, hput₃⟩
  have hregister₃ : s₃.register =
      s₂.register.put time (.entered time 0 parent isolation additive) := hput₃
  refine (putSlot_ends hs₃ (Slot.decode_insert_keepAlive
    (records_eq_some_iff.1 (records_of_put hregister₃)) s₂.now)).mono ?_
    fun _ s₄ h => .inl ⟨h.1, h.2 ▸ hregister₃ ▸ hentered 0⟩
  rintro _ s₄ ⟨hs₄, hput₄⟩
  have hregister₄ : s₄.register =
      s₂.register.put time (.entered time s₂.now parent isolation additive) := by
    rw [hput₄, hregister₃, Register.put_put]
    rfl
  refine (putSlot_ends hs₄ (Slot.decode_insert_state
    (records_eq_some_iff.1 (records_of_put hregister₄)) .active)).mono ?_
    fun _ s₅ h => .inl ⟨h.1, h.2 ▸ hregister₄ ▸ hentered s₂.now⟩
  rintro _ s₅ ⟨hs₅, hput₅⟩
  have hregister₅ : s₅.register =
      s₂.register.put time (.entered time s₂.now parent isolation additive) := by
    rw [hput₅, hregister₄, Register.put_put]
    rfl
  have hnow : s₂.now = s.register.now := by
    rw [show s₂.now = s₂.register.now from rfl, hregister, hlooked.2.1]
    rfl
  exact ⟨hs₅, s₁.register, source, hlooked.2, hdraw, hnow ▸ rfl,
    hregister ▸ hregister₅⟩

theorem create_ends (hs : s.Legible) (hfresh : s.register.Fresh) (parent : Option TxnId)
    (isolation : Option Isolation) (additive : Option Bool) :
    Ends (create parent isolation additive) s
      (fun txn s' => s.Entered parent isolation additive s' ∧
        s'.register.records txn.id = some txn ∧ txn.parent = parent)
      fun e s' => s.Entered parent isolation additive s' ∨ s.Starved e s' := by
  refine (create_begins hs hfresh parent isolation additive).mono ?_ fun _ _ h => h
  rintro txn s' ⟨hs', r₁, source, hremembers, hdraw, htxn, hregister⟩
  refine ⟨⟨hs', ?_⟩, records_of_put hregister, congrArg Txn.parent htxn⟩
  rw [hregister, htxn]
  exact .enter hremembers hdraw _

theorem beginReadOnly_ends (hs : s.Legible) (parent : Option TxnId)
    (isolation : Option Isolation) :
    Ends (beginReadOnly parent isolation) s (fun _ s' => s.Served s')
      fun e s' => s.Served s' ∨ s.Starved e s' := by
  simp only [beginReadOnly, ends_bind]
  refine (mapM_checkParent_ends hs parent).mono ?_ (fun _ _ h => .inl h.stepped.served)
  intro _ s₁ hlooked
  refine (draw_ends hlooked.1).mono ?_ (fun _ _ h => .inr (h.of_looked hlooked))
  rintro time s₂ ⟨hpartition, source, hdraw, hregister⟩
  have hs₂ : s₂.Legible := fun id => hpartition ▸ hlooked.1 id
  exact ⟨hs₂, .inr ⟨_, _, hlooked.2.steps, .unused hdraw, by rw [hregister]⟩⟩

theorem commit_ends (hs : s.Legible) :
    Ends (commit id) s (fun time s' => s.Served s' ∧ s'.register.CommittedAt id time)
      fun e s' => s.Served s' ∨ s.Starved e s' := by
  simp only [commit, ends_bind]
  refine (checkCommit_ends hs).mono ?_ (fun _ _ h => .inl h.served)
  rintro found s₁ ⟨hlooked, hfound⟩
  cases found with
  | some time =>
    refine ⟨hlooked.stepped.served, ?_⟩
    rw [Register.CommittedAt, hlooked.2.records]
    exact hfound
  | none =>
    obtain ⟨txn, h, hactive, hlive⟩ := hfound
    simp only [ends_bind]
    refine (draw_ends hlooked.1).mono ?_ (fun _ _ h => .inr (h.of_looked hlooked))
    rintro time s₂ ⟨hpartition, source, hdraw, hregister⟩
    have hs₂ : s₂.Legible := fun id => hpartition ▸ hlooked.1 id
    have h₁ : s₁.register.records id = some txn := by rw [hlooked.2.1]; exact h
    have hlive₁ : s₁.register.isSilent txn = false := by rw [hlooked.2.1]; exact hlive
    have h₂ : s₂.register.records id = some txn := by rw [hregister]; exact h₁
    have hunused : s.register.Served (fun _ => False) s₂.register :=
      .inr ⟨_, _, hlooked.2.steps, .unused hdraw, by rw [hregister]⟩
    have hcommitted : s.register.Served (fun _ => False)
        (s₂.register.put id { txn with commitTime := some time, state := .committed }) :=
      .inr ⟨_, _, hlooked.2.steps, .commit hdraw h₁ hactive hlive₁, by rw [hregister]⟩
    refine (putSlot_ends hs₂
      (Slot.decode_insert_commit (records_eq_some_iff.1 h₂) time)).mono ?_
      fun _ s₃ h => .inl ⟨h.1, h.2 ▸ hunused⟩
    rintro _ s₃ ⟨hs₃, hregister₃⟩
    refine (putSlot_ends hs₃ (Slot.decode_insert_state
      (records_eq_some_iff.1 (records_of_put hregister₃)) .committed)).mono ?_
      fun _ s₄ h => .inl ⟨h.1, h.2 ▸ hregister₃ ▸ hcommitted⟩
    rintro _ s₄ ⟨hs₄, hput₄⟩
    have hregister₄ : s₄.register =
        s₂.register.put id { txn with commitTime := some time, state := .committed } := by
      rw [hput₄, hregister₃, Register.put_put]
      rfl
    simp only [count, ends_modify, ends_pure]
    have hcounted : Legible
        { s₄ with tally := { s₄.tally with committed := s₄.tally.committed + 1 } } := hs₄
    refine (forget_ends hcounted).mono ?_ (fun _ _ h => h.elim)
    intro _ s₅ hforgot
    refine ⟨⟨hforgot.1, ?_⟩, ?_⟩
    · exact (show s.register.Served _ s₄.register from hregister₄ ▸ hcommitted).steps
        hforgot.2.steps
    · rw [Register.CommittedAt, hforgot.2.records]
      exact ⟨_, records_of_put hregister₄, rfl, rfl⟩

end Draw

end Mvcc.Ledger

import Mvcc.Proofs.Txn.Run

/-!
# Changes of slots

Operations write the ledger's partition one slot at a time. Which slots of a row may be written
depends on the record stored there, and there are no other changes, however an operation ends.
-/

namespace Mvcc

namespace Partition

variable {p : Partition} {id : TxnId}

/-- A change of the records of a partition. -/
inductive Change (p : Partition) : Partition → Prop where
  /-- A record is created in an empty row, with or without a parent. -/
  | core (txn : Txn) (hempty : (p.columns (Slot.rowKey txn.id)).isEmpty = true)
    (hparent : ∀ parent, txn.parent = some parent →
      (p.record? parent).isSome ∧ parent < txn.id) :
    Change p (p.withCell (Slot.rowKey txn.id) Slot.core (Slot.encodeCore txn))
  | keepAlive {id : TxnId} {txn : Txn} (h : p.record? id = some txn)
    (hactive : txn.state = .active) {time : UInt64} (hle : txn.keepAlive ≤ time) :
    Change p (p.withCell (Slot.rowKey id) Slot.keepAlive (BigEndian.ofWord time))
  | destinations {id : TxnId} {txn : Txn} (h : p.record? id = some txn)
    (hactive : txn.state = .active) {tables : SortedSet String} {slot : Bytes}
    (hslot : Slot.encodeDestinations tables = .ok slot)
    (hgrows : ∀ table, txn.destinations.contains table → tables.contains table) :
    Change p (p.withCell (Slot.rowKey id) Slot.destinations slot)
  /-- A state is written to an active record, or the same state again. -/
  | state {id : TxnId} {txn : Txn} (h : p.record? id = some txn) {written : TxnState}
    (hwritten : txn.state = .active ∨ txn.settled written = txn.state) :
    Change p (p.withCell (Slot.rowKey id) Slot.state (Slot.encodeState written))
  | commit {id : TxnId} {txn : Txn} (h : p.record? id = some txn) (hactive : txn.state = .active)
    (time : Timestamp) :
    Change p (p.withCell (Slot.rowKey id) Slot.commit (BigEndian.ofWord time))
  | globalCommit {id : TxnId} {txn : Txn} (h : p.record? id = some txn)
    (hstate : txn.state ≠ .rolledBack) (time : Timestamp) :
    Change p (p.withCell (Slot.rowKey id) Slot.globalCommit (BigEndian.ofWord time))
  /-- The partition becomes unavailable or available. -/
  | serving (unavailable : Bool) : Change p { p with unavailable := unavailable }

abbrev Changes : Partition → Partition → Prop := Relation.ReflTransGen Change

theorem record?_withCell {slot value : Bytes} {txn : Txn}
    (h : Slot.decode id ((p.columns (Slot.rowKey id)).insert slot value).entries = .ok txn) :
    (p.withCell (Slot.rowKey id) slot value).record? id = some txn := by
  rw [record?_eq_some_iff, columns_withCell, if_pos rfl, h]

theorem record?_withCell_core (txn : Txn)
    (hempty : (p.columns (Slot.rowKey txn.id)).isEmpty = true) :
    (p.withCell (Slot.rowKey txn.id) Slot.core (Slot.encodeCore txn)).record? txn.id =
      some txn.origin := by
  refine record?_withCell ?_
  rw [SortedMap.eq_empty_of_isEmpty hempty]
  exact Slot.decode_insert_core txn

end Partition

namespace Ledger

open TxnM

variable {τ α β : Type} {s : Ledger τ} {id : TxnId}

/-- The steps lead from `s` to a ledger over the same storage, with its records changed in order. -/
def Writes (s s' : Ledger τ) : Prop := s.partition.Changes s'.partition

theorem Writes.refl (s : Ledger τ) : s.Writes s := Relation.ReflTransGen.refl

theorem Writes.of_eq {s' : Ledger τ} (h : s'.partition = s.partition) : s.Writes s' := by
  unfold Writes
  rw [h]

theorem Writes.trans {s s' s'' : Ledger τ} (h : s.Writes s') (h' : s'.Writes s'') : s.Writes s'' :=
  Relation.ReflTransGen.trans h h'

theorem bind_writes {steps : TxnM (Ledger τ) α} {next : α → TxnM (Ledger τ) β}
    {good : α → Ledger τ → Prop}
    (h : Ends steps s (fun value s' => good value s' ∧ s.Writes s') fun _ s' => s.Writes s')
    (hnext : ∀ value s', good value s' → Leaves (next value) s' s'.Writes) :
    Leaves (steps >>= next) s s.Writes := by
  refine ends_bind.2 (h.mono ?_ fun _ _ h => h)
  intro value s' hgood
  exact (hnext value s' hgood.1).imp fun _ => hgood.2.trans

/-! ## Read-only operations -/

theorem load_partition : Leaves (load id) s fun s' => s'.partition = s.partition := by
  simp only [load, ends_bind, ends_get, ends_ofExcept]
  cases s.partition.getRow (Slot.rowKey id) with
  | error e => trivial
  | ok columns =>
    dsimp only
    split
    · rfl
    · rw [ends_map, ends_ofExcept]
      cases Slot.decode id columns.entries <;> rfl

theorem find_partition : Leaves (find id) s fun s' => s'.partition = s.partition := by
  simp only [find, ends_bind]
  have hrecollect : Leaves (recollect id) s fun s' => s'.partition = s.partition := rfl
  refine hrecollect.mono ?_ (fun _ _ h => h)
  intro found s₁ h₁
  cases found with
  | some txn => exact h₁
  | none =>
    rw [ends_bind]
    refine load_partition.mono ?_ fun _ _ h => h.trans h₁
    intro record s₂ h₂
    cases record with
    | none => exact h₂.trans h₁
    | some stored =>
      simp only [ends_bind, ends_get]
      split <;> exact h₂.trans h₁

theorem climb_partition (start : TxnId) (budget : Nat) (passed : List TxnId) (id : TxnId) :
    Leaves (View.climb start budget passed id) s fun s' => s'.partition = s.partition := by
  induction budget generalizing s passed id with
  | zero =>
    unfold View.climb
    split <;> rfl
  | succ budget ih =>
    unfold View.climb
    split
    · rfl
    · simp only [ends_bind]
      refine find_partition.mono ?_ fun _ _ h => h
      intro found s₁ h₁
      cases found with
      | none => exact h₁
      | some txn =>
        cases hparent : txn.parent with
        | none =>
          simp only [hparent, ends_pure]
          exact h₁
        | some parent =>
          simp only [hparent, ends_bind]
          exact (ih (id :: passed) parent).imp fun _ h => h.trans h₁

theorem resolve_partition :
    Leaves (View.resolve id) s fun s' => s'.partition = s.partition := by
  simp only [View.resolve, ends_bind]
  refine (climb_partition id longestChain [] id).mono ?_ fun _ _ h => h
  intro chain s₁ h₁
  cases chain <;> exact h₁

theorem draw_partition [TimestampSource τ] :
    Leaves draw s fun s' => s'.partition = s.partition := by
  unfold draw Leaves Ends
  cases hdraw : TimestampSource.draw s.source <;> simp only [hdraw]

/-! ## Writing -/

theorem putSlot_partition (slot value : Bytes) :
    Ends (putSlot id slot value) s
      (fun _ s' => s'.partition = s.partition.withCell (Slot.rowKey id) slot value)
      fun _ s' => s'.partition = s.partition := by
  unfold Ends putSlot
  by_cases hquota : s.quota = some 0
  · simp [hquota]
  · simp only [hquota, if_false, Partition.put, Partition.serve]
    cases s.partition.unavailable <;> rfl

theorem putSlot_writes {slot value : Bytes}
    (h : s.partition.Change (s.partition.withCell (Slot.rowKey id) slot value)) :
    Ends (putSlot id slot value) s
      (fun _ s' => s'.partition = s.partition.withCell (Slot.rowKey id) slot value ∧ s.Writes s')
      fun _ s' => s.Writes s' := by
  refine (putSlot_partition slot value).mono ?_ fun _ s' h' => .of_eq h'
  intro _ s' h'
  exact ⟨h', by rw [Writes, h']; exact .single h⟩

theorem loadExisting_bind_writes {next : Txn → TxnM (Ledger τ) β} (hs : s.Legible)
    (hnext : ∀ txn, s.partition.record? id = some txn → Leaves (next txn) s s.Writes) :
    Leaves (loadExisting id >>= next) s s.Writes := by
  refine ends_bind.2 ((loadExisting_ends hs).mono ?_ ?_)
  · rintro txn s ⟨rfl, h⟩
    exact hnext txn h
  · rintro e s ⟨rfl, -⟩
    exact .refl s

theorem putRolledBack_writes {txn : Txn} (h : s.partition.record? id = some txn)
    (hactive : txn.state = .active) :
    Leaves (putSlot id Slot.state (Slot.encodeState .rolledBack)) s s.Writes :=
  (putSlot_writes (.state h (.inl hactive))).mono (fun _ _ h => h.2) fun _ _ h => h

theorem writeTimeout_writes {txn : Txn} (h : s.partition.record? id = some txn)
    (hactive : txn.state = .active) : Leaves (writeTimeout id) s s.Writes := by
  simp only [writeTimeout, count, ends_bind, ends_modify, ends_tryCatch, ends_pure]
  exact putRolledBack_writes (s := { s with tally := _ }) h hactive

theorem rollback_writes (hs : s.Legible) : Leaves (rollback id) s s.Writes := by
  unfold rollback
  refine loadExisting_bind_writes hs fun txn h => ?_
  cases hstate : txn.state with
  | active =>
    simp only [ends_bind, count, ends_modify]
    exact putRolledBack_writes h hstate
  | committed => exact .refl s
  | rolledBack => exact .refl s

theorem keepAlive_writes (hs : s.Legible) : Leaves (keepAlive id) s s.Writes := by
  unfold keepAlive
  refine loadExisting_bind_writes hs fun txn h => ?_
  by_cases hactive : txn.state = .active
  · simp only [hactive, ne_eq, not_true_eq_false, if_false, ends_bind, ends_get]
    split
    · simp only [ends_bind, ends_pure]
      exact writeTimeout_writes h hactive
    · simp only [ends_bind, ends_get, ends_pure]
      have hle : txn.keepAlive ≤ max s.now txn.keepAlive := by
        rw [UInt64.le_iff_toNat_le, Word.toNat_max]
        omega
      exact (putSlot_writes (.keepAlive h hactive hle)).mono (fun _ _ h => h.2) fun _ _ h => h
  · simp only [hactive, ne_eq, not_false_eq_true, if_true, ends_pure]
    exact .refl s

theorem recordDestination_writes (hs : s.Legible) (table : String) :
    Leaves (recordDestination id table) s s.Writes := by
  unfold recordDestination
  refine loadExisting_bind_writes hs fun txn h => ?_
  simp only [ends_bind, ends_get]
  by_cases hcurrent : s.currentState txn.state txn.keepAlive = .active
  · obtain ⟨hactive, -⟩ := (Register.current_active_iff (r := s.register)).1 hcurrent
    simp only [hcurrent, ne_eq, not_true_eq_false, if_false]
    split
    · exact .refl s
    · simp only [ends_bind, ends_ofExcept]
      cases hslot : Slot.encodeDestinations (txn.destinations.add table) with
      | error fault => exact .refl s
      | ok slot =>
        have hgrows : ∀ other, txn.destinations.contains other →
            (txn.destinations.add table).contains other := by
          intro other hother
          rw [SortedSet.add, SortedMap.contains, SortedMap.get?_insert]
          split
          · rfl
          · exact hother
        exact (putSlot_writes (.destinations h hactive hslot hgrows)).mono (fun _ _ h => h.2)
          fun _ _ h => h
  · simp only [hcurrent, ne_eq, not_false_eq_true, if_true]
    exact .refl s

theorem recordGlobalCommit_writes (hs : s.Legible) (time : Timestamp) :
    Leaves (recordGlobalCommit id time) s s.Writes := by
  unfold recordGlobalCommit
  refine loadExisting_bind_writes hs fun txn h => ?_
  by_cases hstate : txn.state = .rolledBack
  · simp only [hstate, if_true]
    exact .refl s
  · simp only [hstate, if_false]
    refine bind_writes (putSlot_writes (.globalCommit h hstate time)) ?_
    intro _ s' _
    exact .refl s'

/-! ## Committing and beginning -/

theorem checkCommit_writes (hs : s.Legible) : Leaves (checkCommit id) s s.Writes := by
  unfold checkCommit
  refine loadExisting_bind_writes hs fun txn h => ?_
  cases hstate : txn.state with
  | committed => cases (txn.commitTime <|> txn.globalCommitTime) <;> exact .refl s
  | rolledBack => exact .refl s
  | active =>
    simp only [ends_bind, ends_get]
    split
    · simp only [ends_bind, ends_throw]
      exact writeTimeout_writes h hstate
    · cases txn.parent with
      | none => exact .refl s
      | some parent =>
        simp only [ends_bind]
        refine resolve_partition.mono ?_ fun _ s' h => .of_eq h
        intro view s₁ h₁
        split <;> exact .of_eq h₁

section Draw

variable [TimestampSource τ]

theorem commit_writes (hs : s.Legible) : Leaves (commit id) s s.Writes := by
  have hcheck : Ends (checkCommit id) s
      (fun found s' => (found = none →
        ∃ txn, s'.partition.record? id = some txn ∧ txn.state = .active) ∧ s.Writes s')
      fun _ s' => s.Writes s' := by
    refine ((checkCommit_ends hs).and (checkCommit_writes hs)).mono ?_ fun _ _ h => h.2
    rintro found s₁ ⟨⟨hlooked, hlive⟩, hwrites⟩
    refine ⟨?_, hwrites⟩
    rintro rfl
    obtain ⟨txn, h, hactive, -⟩ := hlive
    exact ⟨txn, (congrFun hlooked.2.records id).trans h, hactive⟩
  unfold commit
  refine bind_writes hcheck ?_
  intro found s₁ hfound
  cases found with
  | some time => exact .refl s₁
  | none =>
    obtain ⟨txn, h₁, hactive⟩ := hfound rfl
    have hdraw : Ends draw s₁ (fun _ s' => s'.partition = s₁.partition ∧ s₁.Writes s')
        fun _ s' => s₁.Writes s' :=
      draw_partition.mono (fun _ _ h => ⟨h, .of_eq h⟩) fun _ _ h => .of_eq h
    refine bind_writes hdraw ?_
    intro time s₂ h₂
    rw [← h₂] at h₁
    refine bind_writes (putSlot_writes (.commit h₁ hactive time)) ?_
    intro _ s₃ h₃
    have hdecode := Slot.decode_insert_commit (Partition.record?_eq_some_iff.1 h₁) time
    have hcommitted := h₃ ▸ Partition.record?_withCell hdecode
    refine bind_writes (putSlot_writes (.state hcommitted (.inr rfl))) ?_
    intro _ s₄ _
    exact .refl s₄

/-- A parent that was checked has a record, older than any later timestamp. -/
theorem mapM_checkParent_writes [AscendingSource τ] (hs : s.Legible) (hsound : s.register.Sound)
    (parent : Option TxnId) :
    Ends (parent.mapM checkParent) s
      (fun _ s' => (s.Looked s' ∧ s'.partition = s.partition ∧ ∀ above, parent = some above →
        (s.partition.record? above).isSome ∧ above ≤ s.register.latest) ∧ s.Writes s')
      fun _ s' => s.Writes s' := by
  cases parent with
  | none => exact ⟨⟨.refl hs, rfl, nofun⟩, .refl s⟩
  | some id =>
    have hpartition : Leaves (checkParent id) s fun s' => s'.partition = s.partition := by
      simp only [checkParent, ends_bind]
      refine resolve_partition.mono ?_ fun _ _ h => h
      intro view s' h
      split <;> exact h
    rw [Option.mapM_some]
    refine ends_map.2 (((checkParent_ends hs).and hpartition).mono ?_ fun _ _ h => .of_eq h.2)
    rintro view s₁ ⟨⟨hlooked, hchain⟩, h₁⟩
    refine ⟨⟨hlooked, h₁, ?_⟩, .of_eq h₁⟩
    rintro _ ⟨⟩
    obtain ⟨stored, hstored, -⟩ := hsound.record_of_answer hchain.head.1
    exact ⟨Option.isSome_iff_exists.2 ⟨stored, hstored⟩, (hsound.known hstored).2.2⟩

theorem create_writes [AscendingSource τ] (hs : s.Legible) (hsound : s.register.Sound)
    (hsupply : 0 < AscendingSource.supply s.source) (parent : Option TxnId)
    (isolation : Option Isolation) (additive : Option Bool) :
    Leaves (create parent isolation additive) s s.Writes := by
  unfold create
  refine bind_writes (mapM_checkParent_writes hs hsound parent) ?_
  rintro _ s₁ ⟨hlooked, h₁, hparent⟩
  have hdraw : Ends draw s₁ (fun time s' => (s'.partition = s.partition ∧
      s.register.latest < time ∧ s.register.records time = none) ∧ s₁.Writes s')
      fun _ s' => s₁.Writes s' := by
    refine ((draw_ends hlooked.1).and draw_partition).mono ?_ fun _ _ h => .of_eq h.2
    rintro time s₂ ⟨⟨-, source, hdraw, -⟩, h₂⟩
    have hsource : s₁.source = s.source := congrArg Register.source hlooked.2.1
    rw [hsource] at hdraw
    exact ⟨⟨h₂.trans h₁, (AscendingSource.drawn hsupply hdraw).1,
      hsound.fresh hsupply time source hdraw⟩, .of_eq h₂⟩
  refine bind_writes hdraw ?_
  rintro time s₂ ⟨h₂, hlatest, hnone⟩
  refine ends_bind.2 (ends_get.2 ?_)
  have hempty : (s₂.partition.columns (Slot.rowKey time)).isEmpty = true := by
    rw [h₂]
    rcases hs time with hempty | ⟨stored, hstored⟩
    · exact hempty
    · cases hnone.symm.trans (records_eq_some_iff.2 hstored)
  have hknown : ∀ above, parent = some above →
      (s₂.partition.record? above).isSome ∧ above < time := by
    intro above habove
    rw [h₂]
    exact ⟨(hparent above habove).1, UInt64.lt_of_le_of_lt (hparent above habove).2 hlatest⟩
  let txn := Txn.entered time s₂.now parent isolation additive
  refine bind_writes (putSlot_writes (.core txn hempty hknown)) ?_
  intro _ s₃ h₃
  have hcore : s₃.partition.record? time = some txn.origin := by
    rw [h₃]
    exact Partition.record?_withCell_core txn hempty
  refine bind_writes (putSlot_writes (.keepAlive hcore rfl (UInt64.zero_le ..))) ?_
  intro _ s₄ h₄
  have hdecode := Slot.decode_insert_keepAlive (Partition.record?_eq_some_iff.1 hcore) s₂.now
  have hbeat := h₄ ▸ Partition.record?_withCell hdecode
  refine bind_writes (putSlot_writes (.state hbeat (.inl rfl))) ?_
  intro _ s₅ _
  exact .refl s₅

end Draw

/-! ## Runs -/

/-- The writes of every operation are admissible changes, in order. -/
theorem Ready.writes [TimestampSource τ] [AscendingSource τ] {op : Operation}
    {ops : List Operation} (h : Ready (op :: ops) s) : s.Writes (s.after op) := by
  refine after_of_ends (p := s.Writes) ?_
  cases op with
  | create parent isolation additive =>
    exact ends_map.2 (create_writes h.legible h.sound (h.operation_supplied rfl) ..)
  | beginReadOnly parent isolation =>
    refine ends_map.2 ?_
    unfold beginReadOnly
    refine bind_writes (mapM_checkParent_writes h.legible h.sound parent) ?_
    rintro above s₁ -
    exact ends_bind.2 (draw_partition.mono (fun _ _ h => .of_eq h) fun _ _ h => .of_eq h)
  | commit id => exact ends_map.2 (commit_writes h.legible)
  | rollback id => exact rollback_writes h.legible
  | keepAlive id => exact ends_map.2 (keepAlive_writes h.legible)
  | recordDestination id table => exact recordDestination_writes h.legible table
  | recordGlobalCommit id time => exact recordGlobalCommit_writes h.legible time
  | find id => exact ends_map.2 (find_partition.imp fun _ => .of_eq)
  | view id => exact ends_map.2 (resolve_partition.imp fun _ => .of_eq)
  | listActive listing => exact ends_map.2 ((listActive_ends listing).imp fun _ h => h ▸ .refl s)
  | clock now => exact .refl s
  | expire id => exact .refl s
  | outage unavailable => exact .single (.serving unavailable)
  | limit quota => exact .refl s

theorem Ready.writes_run [TimestampSource τ] [AscendingSource τ] {ops : List Operation}
    (h : Ready ops s) : s.Writes (s.run ops) := by
  induction ops generalizing s with
  | nil => exact .refl s
  | cons op ops ih => exact h.writes.trans (ih h.after)

end Ledger

end Mvcc

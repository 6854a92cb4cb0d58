import Mvcc.Proofs.Txn.Lifecycle
import Mvcc.Proofs.Txn.Rows

/-!
# Footprints of operations

A successful operation changes at most its own slots in the row of one transaction. A failed one
changes nothing, except that a commit after the timeout stores the rollback. The availability of the
storage is assumed not to change during an operation.
-/

namespace Mvcc

namespace Partition

variable {p p' p'' : Partition} {id : TxnId} {slots : List Bytes}

/-- Nothing differs between two partitions but the given slots of one transaction. -/
structure Alters (p p' : Partition) (id : TxnId) (slots : List Bytes) : Prop where
  rows {row : Bytes} (h : row ≠ Slot.rowKey id) : p'.rows.get? row = p.rows.get? row
  others {slot : Bytes} (h : slot ∉ slots) : p'.slot? id slot = p.slot? id slot

theorem Alters.of_eq (h : p' = p) : p.Alters p' id slots := h ▸ ⟨fun _ => rfl, fun _ => rfl⟩

theorem Alters.trans (h : p.Alters p' id slots) (h' : p'.Alters p'' id slots) :
    p.Alters p'' id slots where
  rows hrow := (h'.rows hrow).trans (h.rows hrow)
  others hslot := (h'.others hslot).trans (h.others hslot)

theorem alters_withCell {slot : Bytes} (h : slot ∈ slots) (value : Bytes) :
    p.Alters (p.withCell (Slot.rowKey id) slot value) id slots where
  rows {row} hrow := by rw [withCell, SortedMap.get?_insert, if_neg hrow]
  others {other} hother := by
    rw [slot?_withCell, if_neg]
    rintro ⟨-, rfl⟩
    exact hother h

/-! ## Rows and records -/

def Recorded (p : Partition) : Prop :=
  ∀ row, (p.rows.get? row).isSome → ∃ id, row = Slot.rowKey id ∧ (p.record? id).isSome

theorem Recorded.absent (h : p.Recorded) (hnone : p.record? id = none) :
    p.rows.get? (Slot.rowKey id) = none := by
  cases hrow : p.rows.get? (Slot.rowKey id) with
  | none => rfl
  | some cells =>
    obtain ⟨other, hkey, hsome⟩ := h (Slot.rowKey id) (by rw [hrow]; rfl)
    obtain rfl : id = other := BigEndian.ofWord_inj.1 hkey
    rw [hnone] at hsome
    cases hsome

/-- A row present after a change was present before, or is that of the record written. -/
theorem Change.row (h : p.Change p') {row : Bytes} (hrow : (p'.rows.get? row).isSome) :
    (p.rows.get? row).isSome ∨ ∃ id, row = Slot.rowKey id ∧ (p'.record? id).isSome := by
  have hwritten {id : TxnId} {slot value : Bytes}
      (hrow : ((p.withCell (Slot.rowKey id) slot value).rows.get? row).isSome) :
      (p.rows.get? row).isSome ∨ row = Slot.rowKey id := by
    rw [withCell, SortedMap.get?_insert] at hrow
    split at hrow
    · exact .inr ‹_›
    · exact .inl hrow
  have hkept {id : TxnId} {txn : Txn} (hrecord : p.record? id = some txn) :
      (p'.record? id).isSome := by
    obtain ⟨txn', hrecord', -⟩ := h.continues id txn hrecord
    exact Option.isSome_iff_exists.2 ⟨txn', hrecord'⟩
  cases h with
  | core txn hempty =>
    refine (hwritten hrow).imp_right fun hkey => ⟨txn.id, hkey, ?_⟩
    rw [record?_withCell_core txn hempty]
    rfl
  | @keepAlive id _ hrecord | @destinations id _ hrecord | @state id _ hrecord
  | @commit id _ hrecord | @globalCommit id _ hrecord =>
    exact (hwritten hrow).imp_right fun hkey => ⟨id, hkey, hkept hrecord⟩
  | serving unavailable => exact .inl hrow

theorem Change.recorded (h : p.Change p') (hp : p.Recorded) : p'.Recorded := by
  intro row hrow
  rcases h.row hrow with hold | hnew
  · obtain ⟨id, hkey, hsome⟩ := hp row hold
    obtain ⟨txn, hrecord⟩ := Option.isSome_iff_exists.1 hsome
    obtain ⟨txn', hrecord', -⟩ := h.continues id txn hrecord
    exact ⟨id, hkey, Option.isSome_iff_exists.2 ⟨txn', hrecord'⟩⟩
  · exact hnew

theorem Changes.recorded (h : p.Changes p') (hp : p.Recorded) : p'.Recorded := by
  induction h with
  | refl => exact hp
  | tail _ hchange ih => exact hchange.recorded ih

end Partition

namespace Ledger

open TxnM

variable {τ : Type} {s s' : Ledger τ} {id : TxnId}

/-! ## Single steps -/

/-- That a transaction fell silent was written down, and nothing else. -/
structure TimesOut (id : TxnId) (s s' : Ledger τ) : Prop where
  silent : ∃ txn, s.partition.record? id = some txn ∧ txn.state = .active ∧
    s.isSilent txn.keepAlive = true
  partition : s'.partition =
    s.partition.withCell (Slot.rowKey id) Slot.state (Slot.encodeState .rolledBack)

/-- The steps failed without a timeout and wrote nothing. -/
def Spared (s : Ledger τ) (e : TxnError) (s' : Ledger τ) : Prop :=
  (∀ other, e ≠ .timeout other) ∧ s'.partition = s.partition

theorem ofStorage_ne_timeout (e : StorageError) (other : TxnId) :
    TxnError.ofStorage e ≠ .timeout other := by
  cases e <;> simp [TxnError.ofStorage]

theorem loadExisting_exact (hquota : s.quota = none) :
    Ends (loadExisting id) s
      (fun txn s' => s' = s ∧ s.Writable ∧ s.partition.record? id = some txn) s.Spared := by
  rw [loadExisting, ends_bind, Ends, load_eq]
  cases hstored : s.stored id with
  | ok found =>
    cases found with
    | none => exact ⟨by simp, rfl⟩
    | some txn =>
      obtain ⟨havailable, hrecord⟩ := decode_of_stored hstored
      exact ⟨rfl, ⟨havailable, hquota⟩, hrecord⟩
  | error e =>
    refine ⟨fun other => ?_, rfl⟩
    unfold stored at hstored
    split at hstored
    · cases hstored
      exact ofStorage_ne_timeout _ other
    · split at hstored
      · cases hstored
      · split at hstored <;> cases hstored
        simp [TxnError.ofSlot]

theorem putSlot_exact (h : s.Writable) (slot value : Bytes) :
    Ends (putSlot id slot value) s
      (fun _ s' => s'.Writable ∧
        s'.partition = s.partition.withCell (Slot.rowKey id) slot value)
      fun _ _ => False :=
  ((putSlot_writable h id slot value).and (putSlot_partition slot value)).mono (fun _ _ h => h)
    fun _ _ h => h.1

theorem putSlot_alters (h : s.Writable) (slots : List Bytes) {slot : Bytes} (hslot : slot ∈ slots)
    (value : Bytes) :
    Ends (putSlot id slot value) s
      (fun _ s' => s'.Writable ∧ s.partition.Alters s'.partition id slots) fun _ _ => False := by
  refine (putSlot_exact h slot value).mono (fun _ s' h' => ⟨h'.1, ?_⟩) fun _ _ h => h
  exact h'.2 ▸ Partition.alters_withCell hslot value

theorem putSlot_unlimited (hquota : s.quota = none) (slot value : Bytes) :
    Ends (putSlot id slot value) s
      (fun _ s' => s'.Writable ∧
        s'.partition = s.partition.withCell (Slot.rowKey id) slot value)
      fun _ s' => s'.partition = s.partition := by
  cases havailable : s.partition.unavailable with
  | false =>
    exact (putSlot_exact ⟨havailable, hquota⟩ slot value).mono (fun _ _ h => h) fun _ _ h => h.elim
  | true =>
    simp [Ends, putSlot, hquota, Partition.put, Partition.serve, havailable]

theorem writeTimeout_exact {txn : Txn} (h : s.Writable)
    (hrecord : s.partition.record? id = some txn)
    (hactive : txn.state = .active) (hsilent : s.isSilent txn.keepAlive = true) :
    Ends (writeTimeout id) s (fun _ s' => s.TimesOut id s') fun _ _ => False := by
  have hcount (change : LedgerTally → LedgerTally) :
      Ends (count change) s (fun _ s' => s.Alike s') fun _ _ => False :=
    ⟨rfl, rfl, rfl, rfl, rfl, rfl⟩
  rw [writeTimeout, ends_bind]
  refine (hcount _).mono (fun _ s₁ halike => ends_tryCatch.2 ?_) fun _ _ h => h
  refine (putSlot_exact (h.of_alike halike) _ _).mono (fun _ s₂ h₂ => ?_) fun _ _ h => h.elim
  exact ⟨⟨txn, hrecord, hactive, hsilent⟩, halike.partition ▸ h₂.2⟩

theorem resolve_spared : Ends (View.resolve id) s (fun _ s' => s.Alike s') s.Spared := by
  have hconfined : Confined (fun _ => False) (View.resolve id : TxnM (Ledger τ) View) :=
    confined_resolve id
  refine ((resolve_alike s id).and (hconfined s)).mono ?_ ?_
  · exact fun _ _ h => h.1
  · exact fun e s' h => ⟨h.2.2, h.1.partition⟩

theorem mapM_checkParent_spared (parent : Option TxnId) :
    Ends (parent.mapM checkParent) s (fun _ s' => s.Alike s') s.Spared := by
  cases parent with
  | none => exact .refl s
  | some id =>
    rw [Option.mapM_some, ends_map, checkParent, ends_bind]
    refine resolve_spared.mono (fun view s₁ halike => ?_) fun _ _ h => h
    split
    · exact ⟨by simp, halike.partition⟩
    · exact halike

theorem draw_spared [TimestampSource τ] :
    Ends draw s
      (fun time s' => (s'.partition = s.partition ∧ s'.quota = s.quota) ∧
        ∃ source, TimestampSource.draw s.source = .ok time source) s.Spared := by
  unfold Ends draw
  cases TimestampSource.draw s.source with
  | ok time source => exact ⟨⟨rfl, rfl⟩, source, rfl⟩
  | error e source => exact ⟨by simp, rfl⟩

/-! ## Operations on one transaction -/

theorem rollback_alters (hquota : s.quota = none) :
    Ends (rollback id) s (fun _ s' => s.partition.Alters s'.partition id [Slot.state])
      fun _ s' => s'.partition = s.partition := by
  rw [rollback, ends_bind]
  refine (loadExisting_exact hquota).mono ?_ fun _ _ h => h.2
  rintro txn s ⟨rfl, hwritable, -⟩
  cases txn.state with
  | rolledBack => exact .of_eq rfl
  | committed => exact rfl
  | active =>
    simp only [ends_bind, count, ends_modify]
    exact (putSlot_alters hwritable [_] List.mem_cons_self _).mono (fun _ _ h => h.2)
      fun _ _ h => h.elim

theorem keepAlive_alters (hquota : s.quota = none) :
    Ends (keepAlive id) s
      (fun alive s' => match alive with
        | true => s.partition.Alters s'.partition id [Slot.keepAlive]
        | false => s'.partition = s.partition ∨ s.TimesOut id s')
      fun _ s' => s'.partition = s.partition := by
  rw [keepAlive, ends_bind]
  refine (loadExisting_exact hquota).mono ?_ fun _ _ h => h.2
  rintro txn s ⟨rfl, hwritable, hrecord⟩
  by_cases hactive : txn.state = .active
  · simp only [hactive, ne_eq, not_true_eq_false, if_false, ends_bind, ends_get]
    by_cases hsilent : s.isSilent txn.keepAlive = true
    · simp only [hsilent, if_true, ends_bind]
      refine (writeTimeout_exact hwritable hrecord hactive hsilent).mono ?_ fun _ _ h => h.elim
      exact fun _ s₁ h₁ => .inr h₁
    · rw [if_neg hsilent]
      simp only [ends_bind, ends_get]
      exact (putSlot_alters hwritable [_] List.mem_cons_self _).mono (fun _ _ h => h.2)
        fun _ _ h => h.elim
  · simp only [hactive, ne_eq, not_false_eq_true, if_true]
    exact .inl rfl

theorem recordDestination_alters (hquota : s.quota = none) (table : String) :
    Ends (recordDestination id table) s
      (fun _ s' => s.partition.Alters s'.partition id [Slot.destinations])
      fun _ s' => s'.partition = s.partition := by
  rw [recordDestination, ends_bind]
  refine (loadExisting_exact hquota).mono ?_ fun _ _ h => h.2
  rintro txn s ⟨rfl, hwritable, -⟩
  simp only [ends_bind, ends_get]
  split
  · exact rfl
  · split
    · exact .of_eq rfl
    · simp only [ends_bind, ends_ofExcept]
      cases Slot.encodeDestinations (txn.destinations.add table) with
      | error fault => trivial
      | ok slot =>
        exact (putSlot_alters hwritable [_] List.mem_cons_self _).mono (fun _ _ h => h.2)
          fun _ _ h => h.elim

theorem recordGlobalCommit_alters (hquota : s.quota = none) (time : Timestamp) :
    Ends (recordGlobalCommit id time) s
      (fun _ s' => s.partition.Alters s'.partition id [Slot.globalCommit])
      fun _ s' => s'.partition = s.partition := by
  rw [recordGlobalCommit, ends_bind]
  refine (loadExisting_exact hquota).mono ?_ fun _ _ h => h.2
  rintro txn s ⟨rfl, hwritable, -⟩
  split
  · exact rfl
  · simp only [ends_bind]
    exact (putSlot_alters hwritable [_] List.mem_cons_self _).mono (fun _ _ h => h.2)
      fun _ _ h => h.elim

/-- The check of a commit writes nothing but a timeout, and if it passes the ledger can write. -/
theorem checkCommit_exact (hquota : s.quota = none) :
    Ends (checkCommit id) s (fun _ s' => s'.Writable ∧ s'.partition = s.partition)
      fun e s' => e = .timeout id ∧ s.TimesOut id s' ∨ s.Spared e s' := by
  rw [checkCommit, ends_bind]
  refine (loadExisting_exact hquota).mono ?_ fun _ _ h => .inr h
  rintro txn s ⟨rfl, hwritable, hrecord⟩
  cases hactive : txn.state with
  | committed =>
    cases (txn.commitTime <|> txn.globalCommitTime) with
    | none => exact .inr ⟨by simp, rfl⟩
    | some time => exact ⟨hwritable, rfl⟩
  | rolledBack => exact .inr ⟨by simp, rfl⟩
  | active =>
    simp only [ends_bind, ends_get]
    split
    · rename_i hsilent
      simp only [ends_bind]
      refine (writeTimeout_exact hwritable hrecord hactive hsilent).mono ?_ fun _ _ h => h.elim
      exact fun _ s₁ h₁ => .inl ⟨rfl, h₁⟩
    · cases txn.parent with
      | none => exact ⟨hwritable, rfl⟩
      | some parent =>
        simp only [ends_bind]
        refine resolve_spared.mono (fun view s₁ halike => ?_) fun _ _ h => .inr h
        split
        · exact .inr ⟨by simp, halike.partition⟩
        · exact ⟨hwritable.of_alike halike, halike.partition⟩

section Draw

variable [TimestampSource τ]

theorem commit_alters (hquota : s.quota = none) :
    Ends (commit id) s
      (fun _ s' => s.partition.Alters s'.partition id [Slot.commit, Slot.state])
      fun e s' => e = .timeout id ∧ s.TimesOut id s' ∨ s.Spared e s' := by
  rw [commit, ends_bind]
  refine (checkCommit_exact hquota).mono ?_ fun _ _ h => h
  rintro found s₁ ⟨hwritable, h₁⟩
  cases found with
  | some time => exact .of_eq h₁
  | none =>
    simp only [ends_bind]
    refine draw_spared.mono ?_ fun _ _ h => .inr ⟨h.1, h.2.trans h₁⟩
    rintro time s₂ ⟨⟨h₂, hquota₂⟩, -⟩
    have hwritable₂ : s₂.Writable :=
      ⟨h₂ ▸ hwritable.available, hquota₂.trans hwritable.unlimited⟩
    refine (putSlot_alters hwritable₂ [Slot.commit, Slot.state] (by simp) _).mono ?_
      fun _ _ h => h.elim
    rintro _ s₃ ⟨hwritable₃, h₃⟩
    refine (putSlot_alters hwritable₃ [Slot.commit, Slot.state] (by simp) _).mono ?_
      fun _ _ h => h.elim
    rintro _ s₄ ⟨-, h₄⟩
    rw [h₂, h₁] at h₃
    exact h₃.trans h₄

theorem beginReadOnly_partition (parent : Option TxnId) (isolation : Option Isolation) :
    Leaves (beginReadOnly parent isolation) s fun s' => s'.partition = s.partition := by
  rw [beginReadOnly, Leaves, ends_bind]
  refine (mapM_checkParent_spared parent).mono (fun above s₁ halike => ?_) fun _ _ h => h.2
  exact ends_bind.2 (draw_partition.mono (fun _ _ h => h.trans halike.partition)
    fun _ _ h => h.trans halike.partition)

theorem create_alters (hquota : s.quota = none) (hfresh : s.register.Fresh)
    (hrecorded : s.partition.Recorded) (parent : Option TxnId) (isolation : Option Isolation)
    (additive : Option Bool) :
    Ends (create parent isolation additive) s
      (fun txn s' => s.partition.rows.get? (Slot.rowKey txn.id) = none ∧
        s.partition.Alters s'.partition txn.id [Slot.core, Slot.keepAlive, Slot.state])
      fun _ s' => s'.partition = s.partition := by
  rw [create, ends_bind]
  refine (mapM_checkParent_spared parent).mono (fun above s₁ halike => ?_) fun _ _ h => h.2
  rw [ends_bind]
  refine draw_spared.mono ?_ fun _ _ h => h.2.trans halike.partition
  rintro time s₂ ⟨⟨h₂, hquota₂⟩, source, hdraw⟩
  replace h₂ : s₂.partition = s.partition := h₂.trans halike.partition
  rw [halike.source] at hdraw
  have habsent := hrecorded.absent (hfresh time source hdraw)
  simp only [ends_bind, ends_get]
  refine (putSlot_unlimited (hquota₂.trans (halike.quota.trans hquota)) _ _).mono ?_
    fun _ _ h => h.trans h₂
  rintro _ s₃ ⟨hwritable₃, h₃⟩
  have hcore : s.partition.Alters s₃.partition time [Slot.core, Slot.keepAlive, Slot.state] := by
    rw [h₃, h₂]
    exact Partition.alters_withCell (by simp) _
  refine (putSlot_alters hwritable₃ [Slot.core, Slot.keepAlive, Slot.state] (by simp) _).mono ?_
    fun _ _ h => h.elim
  rintro _ s₄ ⟨hwritable₄, h₄⟩
  refine (putSlot_alters hwritable₄ [Slot.core, Slot.keepAlive, Slot.state] (by simp) _).mono ?_
    fun _ _ h => h.elim
  rintro _ s₅ ⟨-, h₅⟩
  exact ⟨habsent, (hcore.trans h₄).trans h₅⟩

/-! ## Runs -/

/-- The slots an operation may change, by its result. -/
def Operation.Footprint (op : Operation) (s : Ledger τ) : Prop :=
  match op with
  | .create parent isolation additive =>
    Ends (Ledger.create parent isolation additive) s
      (fun txn s' => s.partition.rows.get? (Slot.rowKey txn.id) = none ∧
        s.partition.Alters s'.partition txn.id [Slot.core, Slot.keepAlive, Slot.state])
      fun _ s' => s'.partition = s.partition
  | .beginReadOnly parent isolation =>
    Leaves (Ledger.beginReadOnly parent isolation) s fun s' => s'.partition = s.partition
  | .commit id =>
    Ends (Ledger.commit id) s
      (fun _ s' => s.partition.Alters s'.partition id [Slot.commit, Slot.state])
      fun e s' => e = .timeout id ∧ s.TimesOut id s' ∨ s.Spared e s'
  | .rollback id =>
    Ends (Ledger.rollback id) s (fun _ s' => s.partition.Alters s'.partition id [Slot.state])
      fun _ s' => s'.partition = s.partition
  | .keepAlive id =>
    Ends (Ledger.keepAlive id) s
      (fun alive s' => match alive with
        | true => s.partition.Alters s'.partition id [Slot.keepAlive]
        | false => s'.partition = s.partition ∨ s.TimesOut id s')
      fun _ s' => s'.partition = s.partition
  | .recordDestination id table =>
    Ends (Ledger.recordDestination id table) s
      (fun _ s' => s.partition.Alters s'.partition id [Slot.destinations])
      fun _ s' => s'.partition = s.partition
  | .recordGlobalCommit id time =>
    Ends (Ledger.recordGlobalCommit id time) s
      (fun _ s' => s.partition.Alters s'.partition id [Slot.globalCommit])
      fun _ s' => s'.partition = s.partition
  | .find id => Leaves (Ledger.find id) s fun s' => s'.partition = s.partition
  | .view id => Leaves (View.resolve id) s fun s' => s'.partition = s.partition
  | .listActive listing => Leaves (Ledger.listActive listing) s fun s' => s'.partition = s.partition
  | .clock _ | .expire _ | .outage _ | .limit _ => (s.after op).partition.rows = s.partition.rows

omit [TimestampSource τ] in
theorem recorded_new {name : String} {source : τ} {now : UInt64} {settings : TxnSettings} :
    (new name source now settings).partition.Recorded := nofun

variable [AscendingSource τ] {ops later : List Operation}

theorem Ready.recorded_run (h : Ready (ops ++ later) s) (hs : s.partition.Recorded) :
    (s.run ops).partition.Recorded := by
  induction ops generalizing s with
  | nil => exact hs
  | cons op ops ih => exact ih h.after (Partition.Changes.recorded h.writes hs)

theorem Ready.footprint {op : Operation} (h : Ready (op :: ops) s)
    (hrecorded : s.partition.Recorded) (hquota : s.quota = none) : op.Footprint s := by
  cases op with
  | create => exact create_alters hquota (h.sound.fresh (h.operation_supplied rfl)) hrecorded ..
  | beginReadOnly => exact beginReadOnly_partition ..
  | commit => exact commit_alters hquota
  | rollback => exact rollback_alters hquota
  | keepAlive => exact keepAlive_alters hquota
  | recordDestination id table => exact recordDestination_alters hquota table
  | recordGlobalCommit id time => exact recordGlobalCommit_alters hquota time
  | find => exact find_partition
  | view => exact resolve_partition
  | listActive listing => exact (listActive_ends listing).imp fun _ h => h ▸ rfl
  | clock | expire | outage | limit => rfl

/-- In every reachable state, with any clock, outages and write limits: as long as the storage does
not change during an operation, it leaves the rows of all other transactions unchanged; on success
it changes at most its own slots; on failure it changes nothing, except that a commit after the
timeout stores the rollback. -/
theorem footprint_after_run (name : String) (source : τ) (now : UInt64) (settings : TxnSettings)
    (ops : List Operation) (op : Operation)
    (hsupplied : Supplied (new name source now settings) (ops ++ [op]))
    (hunlimited : (run (new name source now settings) ops).quota = none) :
    op.Footprint (run (new name source now settings) ops) := by
  have hready := ready_new_of_supplied hsupplied
  exact hready.run.footprint (hready.recorded_run recorded_new) hunlimited

end Draw

/-- A transaction falls silent, storage fails for a while, and then the transaction is to commit. -/
theorem footprint_after_run_too_late :
    let ops : List Operation :=
      [.create none none none, .limit (some 0), .keepAlive 1, .clock 1200000, .limit none]
    Supplied (fromZero .standard) (ops ++ [.commit 1]) ∧
      (run (fromZero .standard) ops).quota = none ∧
      (Operation.commit 1).Footprint (run (fromZero .standard) ops) := by
  intro ops
  have hample : Ample (fromZero .standard) (ops ++ [.commit 1]) := .inl (by decide)
  have hsupplied := hample.supplied (fun _ => .inl rfl) sound_new
  have hunlimited : (run (fromZero .standard) ops).quota = none := rfl
  exact ⟨hsupplied, hunlimited, footprint_after_run "stratum_txn" (fromZero .standard).source
    1000000 .standard ops (.commit 1) hsupplied hunlimited⟩

end Ledger

end Mvcc

import Mvcc.Proofs.Txn.Depth
import Mvcc.Proofs.Txn.Lifecycle

/-!
# Rows of other transactions

An operation on a transaction writes only that transaction's row, and reports a timeout only for
that transaction. Look-ups write nothing.
-/

namespace Mvcc.Ledger

open TxnM

variable {τ α β : Type} {s s' s'' : Ledger τ} {id : TxnId}

/-- Only records in `written` changed; writability and the conditions of silence are preserved. -/
structure Within (written : TxnId → Prop) (s s' : Ledger τ) : Prop where
  record {id : TxnId} (h : ¬ written id) : s'.partition.record? id = s.partition.record? id
  writable (h : s.Writable) : s'.Writable
  now : s'.now = s.now
  timeout : s'.settings.timeout = s.settings.timeout

variable {written : TxnId → Prop}

theorem Within.refl (s : Ledger τ) : s.Within written s := ⟨fun _ => rfl, fun h => h, rfl, rfl⟩

theorem Within.trans (h : s.Within written s') (h' : s'.Within written s'') :
    s.Within written s'' where
  record hid := (h'.record hid).trans (h.record hid)
  writable hs := h'.writable (h.writable hs)
  now := h'.now.trans h.now
  timeout := h'.timeout.trans h.timeout

theorem Within.mono {written' : TxnId → Prop} (h : s.Within written s')
    (himp : ∀ id, written id → written' id) : s.Within written' s' :=
  { h with record := fun hid => h.record fun hwritten => hid (himp _ hwritten) }

/-! ## Confined steps -/

/-- From any state the steps stay within the rows in `written`, and time out only transactions of
these rows. -/
def Confined (written : TxnId → Prop) (steps : TxnM (Ledger τ) α) : Prop :=
  ∀ s, Ends steps s (fun _ s' => s.Within written s') fun e s' =>
    s.Within written s' ∧ ∀ id, e = .timeout id → written id

theorem Confined.bind {steps : TxnM (Ledger τ) α} {next : α → TxnM (Ledger τ) β}
    (h : Confined written steps) (hnext : ∀ value, Confined written (next value)) :
    Confined written (steps >>= next) := by
  intro s
  refine ends_bind.2 ((h s).mono ?_ fun _ _ h => h)
  intro value s₁ h₁
  refine (hnext value s₁).mono ?_ ?_
  · exact fun _ _ h₂ => h₁.trans h₂
  · exact fun _ _ h₂ => ⟨h₁.trans h₂.1, h₂.2⟩

theorem Confined.map {steps : TxnM (Ledger τ) α} (h : Confined written steps) (f : α → β) :
    Confined written (f <$> steps) :=
  fun s => ends_map.2 (h s)

theorem Confined.mono {written' : TxnId → Prop} {steps : TxnM (Ledger τ) α}
    (h : Confined written steps) (himp : ∀ id, written id → written' id) :
    Confined written' steps := by
  intro s
  refine (h s).mono ?_ ?_
  · exact fun _ _ hwithin => hwithin.mono himp
  · exact fun _ _ hfailed => ⟨hfailed.1.mono himp, fun id he => himp id (hfailed.2 id he)⟩

theorem confined_pure (value : α) : Confined written (pure value : TxnM (Ledger τ) α) := .refl

theorem confined_get : Confined written (get : TxnM (Ledger τ) (Ledger τ)) := .refl

theorem confined_throw {e : TxnError} (h : ∀ id, e = .timeout id → written id) :
    Confined written (throw e : TxnM (Ledger τ) α) :=
  fun s => ⟨.refl s, h⟩

theorem confined_throw_bind {e : TxnError} (h : ∀ id, e = .timeout id → written id)
    (next : α → TxnM (Ledger τ) β) : Confined written (throw e >>= next) :=
  fun s => ends_bind.2 ⟨.refl s, h⟩

theorem confined_ofStorage (result : Except StorageError α) :
    Confined written (TxnM.ofExcept .ofStorage result : TxnM (Ledger τ) α) := by
  intro s
  cases result with
  | ok value => exact .refl s
  | error e => exact ⟨.refl s, by cases e <;> simp [TxnError.ofStorage]⟩

theorem confined_ofSlot (result : Except SlotFault α) :
    Confined written (TxnM.ofExcept .ofSlot result : TxnM (Ledger τ) α) := by
  intro s
  cases result with
  | ok value => exact .refl s
  | error e => exact ⟨.refl s, by simp [TxnError.ofSlot]⟩

theorem confined_count (change : LedgerTally → LedgerTally) :
    Confined written (count change : TxnM (Ledger τ) Unit) :=
  fun _ => ⟨fun _ => rfl, fun h => ⟨h.1, h.2⟩, rfl, rfl⟩

theorem confined_forget (id : TxnId) : Confined written (forget id : TxnM (Ledger τ) Unit) :=
  fun _ => ⟨fun _ => rfl, fun h => ⟨h.1, h.2⟩, rfl, rfl⟩

theorem confined_recollect (id : TxnId) :
    Confined written (recollect id : TxnM (Ledger τ) (Option Txn)) :=
  fun _ => ⟨fun _ => rfl, fun h => ⟨h.1, h.2⟩, rfl, rfl⟩

theorem confined_remember (txn : Txn) :
    Confined written (remember txn : TxnM (Ledger τ) Unit) :=
  fun _ => ⟨fun _ => rfl, fun h => ⟨h.1, h.2⟩, rfl, rfl⟩

/-! ## Read-only operations -/

theorem confined_load (id : TxnId) : Confined written (load id : TxnM (Ledger τ) (Option Txn)) := by
  unfold load
  refine confined_get.bind fun s => (confined_ofStorage _).bind fun columns => ?_
  split
  · exact confined_pure none
  · exact (confined_ofSlot _).map some

theorem confined_loadExisting (id : TxnId) :
    Confined written (loadExisting id : TxnM (Ledger τ) Txn) := by
  unfold loadExisting
  refine (confined_load id).bind fun found => ?_
  cases found with
  | none => exact confined_throw (by simp)
  | some txn => exact confined_pure txn

theorem confined_find (id : TxnId) : Confined written (find id : TxnM (Ledger τ) (Option Txn)) := by
  unfold find
  refine (confined_recollect id).bind fun found => ?_
  cases found with
  | some txn => exact (confined_count _).bind fun _ => confined_pure _
  | none =>
    refine (confined_load id).bind fun found => ?_
    cases found with
    | none => exact confined_pure none
    | some txn =>
      refine confined_get.bind fun s => ?_
      dsimp only
      split
      · exact (confined_remember _).bind fun _ => confined_pure _
      · exact confined_pure _

theorem confined_climb (start : TxnId) (budget : Nat) (passed : List TxnId) (id : TxnId) :
    Confined written (View.climb start budget passed id : TxnM (Ledger τ) (List Txn)) := by
  induction budget generalizing passed id with
  | zero =>
    unfold View.climb
    split <;> exact confined_throw (by simp)
  | succ budget ih =>
    unfold View.climb
    split
    · exact confined_throw (by simp)
    · refine (confined_find id).bind fun found => ?_
      cases found with
      | none => exact confined_throw (by simp)
      | some txn =>
        cases hparent : txn.parent with
        | none => simpa only [hparent] using confined_pure [txn]
        | some parent =>
          simp only [hparent]
          exact (ih (id :: passed) parent).bind fun above => confined_pure (txn :: above)

theorem confined_resolve (id : TxnId) :
    Confined written (View.resolve id : TxnM (Ledger τ) View) := by
  unfold View.resolve
  refine (confined_climb id longestChain [] id).bind fun chain => ?_
  cases View.ofChain? chain with
  | none => exact confined_throw (by simp)
  | some view => exact confined_pure view

theorem confined_mapM_checkParent (parent : Option TxnId) :
    Confined written (parent.mapM checkParent : TxnM (Ledger τ) (Option View)) := by
  cases parent with
  | none => exact confined_pure none
  | some id =>
    rw [Option.mapM_some]
    refine .map ?_ some
    unfold checkParent
    refine (confined_resolve id).bind fun view => ?_
    split
    · exact confined_throw_bind (by simp) _
    · exact confined_pure view

theorem confined_listActive (listing : Listing) :
    Confined written (listActive listing : TxnM (Ledger τ) (List TxnId)) := by
  unfold listActive
  refine confined_get.bind fun s => (confined_ofStorage _).bind fun rows => ?_
  exact (confined_ofSlot _).bind fun found => confined_pure _

/-! ## Writing one row -/

theorem confined_putSlot (id : TxnId) (slot value : Bytes) :
    Confined (· = id) (putSlot id slot value : TxnM (Ledger τ) Unit) := by
  intro s
  unfold Ends putSlot
  by_cases hquota : s.quota = some 0
  · simp only [hquota, if_true]
    exact ⟨.refl s, by simp⟩
  · simp only [hquota, if_false, Partition.put, Partition.serve]
    cases havailable : s.partition.unavailable with
    | true =>
      have hwritable : ¬ s.Writable := fun h => by simp [h.available] at havailable
      exact ⟨⟨fun _ => rfl, fun h => absurd h hwritable, rfl, rfl⟩, by simp [TxnError.ofStorage]⟩
    | false =>
      refine ⟨?_, ?_, rfl, rfl⟩
      · exact fun hother => Partition.record?_withCell_of_ne hother slot value
      · exact fun h => ⟨havailable, by simp [h.unlimited]⟩

theorem confined_writeTimeout (id : TxnId) :
    Confined (· = id) (writeTimeout id : TxnM (Ledger τ) Unit) := by
  unfold writeTimeout
  refine (confined_count _).bind fun _ s => ends_tryCatch.2 ?_
  exact (confined_putSlot id _ _ s).mono (fun _ _ h => h) fun _ _ h => h.1

theorem confined_rollback (id : TxnId) :
    Confined (· = id) (rollback id : TxnM (Ledger τ) Unit) := by
  unfold rollback
  refine (confined_loadExisting id).bind fun txn => ?_
  cases txn.state with
  | rolledBack => exact confined_pure ()
  | committed => exact confined_throw (by simp)
  | active => exact (confined_putSlot id _ _).bind fun _ => confined_count _

theorem confined_keepAlive (id : TxnId) :
    Confined (· = id) (keepAlive id : TxnM (Ledger τ) Bool) := by
  unfold keepAlive
  refine (confined_loadExisting id).bind fun txn => ?_
  split
  · exact confined_pure false
  · refine confined_get.bind fun s => ?_
    split
    · exact (confined_writeTimeout id).bind fun _ => confined_pure false
    · refine confined_get.bind fun s => ?_
      exact (confined_putSlot id _ _).bind fun _ => confined_pure true

theorem confined_recordDestination (id : TxnId) (table : String) :
    Confined (· = id) (recordDestination id table : TxnM (Ledger τ) Unit) := by
  unfold recordDestination
  refine (confined_loadExisting id).bind fun txn => confined_get.bind fun s => ?_
  dsimp only
  split
  · exact confined_throw_bind (by simp) _
  · split
    · exact confined_pure ()
    · exact (confined_ofSlot _).bind fun slot => confined_putSlot id _ slot

theorem confined_recordGlobalCommit (id : TxnId) (time : Timestamp) :
    Confined (· = id) (recordGlobalCommit id time : TxnM (Ledger τ) Unit) := by
  unfold recordGlobalCommit
  refine (confined_loadExisting id).bind fun txn => ?_
  split
  · exact confined_throw_bind (by simp) _
  · exact (confined_putSlot id _ _).bind fun _ => confined_forget id

theorem confined_checkCommit (id : TxnId) :
    Confined (· = id) (checkCommit id : TxnM (Ledger τ) (Option Timestamp)) := by
  unfold checkCommit
  refine (confined_loadExisting id).bind fun txn => ?_
  cases txn.state with
  | committed =>
    cases (txn.commitTime <|> txn.globalCommitTime) with
    | none => exact confined_throw (by simp)
    | some time => exact confined_pure (some time)
  | rolledBack => exact confined_throw (by simp)
  | active =>
    refine confined_get.bind fun s => ?_
    dsimp only
    split
    · refine (confined_writeTimeout id).bind fun _ => confined_throw_bind ?_ _
      intro other h
      cases h
      rfl
    · cases txn.parent with
      | none => exact confined_pure none
      | some parent =>
        refine (confined_resolve parent).bind fun view => ?_
        split
        · exact confined_throw_bind (by simp) _
        · exact confined_pure none

section Draw

variable [TimestampSource τ]

theorem confined_draw : Confined written (draw : TxnM (Ledger τ) Timestamp) := by
  intro s
  unfold Ends draw
  cases TimestampSource.draw s.source with
  | ok time source => exact ⟨fun _ => rfl, fun h => ⟨h.1, h.2⟩, rfl, rfl⟩
  | error e source => exact ⟨⟨fun _ => rfl, fun h => ⟨h.1, h.2⟩, rfl, rfl⟩, by simp⟩

theorem confined_commit (id : TxnId) :
    Confined (· = id) (commit id : TxnM (Ledger τ) Timestamp) := by
  unfold commit
  refine (confined_checkCommit id).bind fun found => ?_
  cases found with
  | some time => exact confined_pure time
  | none =>
    refine confined_draw.bind fun time => (confined_putSlot id _ _).bind fun _ => ?_
    refine (confined_putSlot id _ _).bind fun _ => (confined_count _).bind fun _ => ?_
    exact (confined_forget id).bind fun _ => confined_pure time

theorem confined_beginReadOnly (parent : Option TxnId) (isolation : Option Isolation) :
    Confined written (beginReadOnly parent isolation : TxnM (Ledger τ) View) := by
  unfold beginReadOnly
  refine (confined_mapM_checkParent parent).bind fun above => confined_draw.bind fun time => ?_
  exact confined_get.bind fun s => confined_pure _

theorem confined_create (parent : Option TxnId) (isolation : Option Isolation)
    (additive : Option Bool) :
    Confined (fun _ => True) (create parent isolation additive : TxnM (Ledger τ) Txn) := by
  have hput : ∀ id slot value,
      Confined (fun _ => True) (putSlot id slot value : TxnM (Ledger τ) Unit) :=
    fun id slot value => (confined_putSlot id slot value).mono fun _ _ => trivial
  unfold create
  refine (confined_mapM_checkParent parent).bind fun _ => confined_draw.bind fun time => ?_
  refine confined_get.bind fun s => (hput _ _ _).bind fun _ => (hput _ _ _).bind fun _ => ?_
  exact (hput _ _ _).bind fun _ => (confined_count _).bind fun _ => confined_pure _

/-! ## Operations -/

namespace Operation

/-- The operation changes neither clock nor storage. -/
def isSteady : Operation → Bool
  | .clock _ | .outage _ | .limit _ => false
  | _ => true

def keepsStorage : Operation → Bool
  | .outage _ | .limit _ => false
  | _ => true

/-- A superset of the rows an operation may write. -/
def rows : Operation → TxnId → Prop
  | .create .. => fun _ => True
  | .commit id | .rollback id | .keepAlive id | .recordDestination id _
  | .recordGlobalCommit id _ => (· = id)
  | _ => fun _ => False

theorem confined_steps {op : Operation} (h : op.isSteady = true) :
    Confined op.rows (op.steps : TxnM (Ledger τ) Unit) := by
  cases op with
  | create parent isolation additive => exact (confined_create parent isolation additive).map _
  | beginReadOnly parent isolation => exact (confined_beginReadOnly parent isolation).map _
  | commit id => exact (confined_commit id).map _
  | rollback id => exact confined_rollback id
  | keepAlive id => exact (confined_keepAlive id).map _
  | recordDestination id table => exact confined_recordDestination id table
  | recordGlobalCommit id time => exact confined_recordGlobalCommit id time
  | find id => exact (confined_find id).map _
  | view id => exact (confined_resolve id).map _
  | listActive listing => exact (confined_listActive listing).map _
  | clock => cases h
  | expire id => exact confined_forget id
  | outage => cases h
  | limit => cases h

end Operation

theorem within_after {op : Operation} (h : op.isSteady = true) : s.Within op.rows (s.after op) :=
  after_of_ends ((op.confined_steps h s).mono (fun _ _ h => h) fun _ _ h => h.1)

theorem timeout_after (op : Operation) :
    (s.after op).settings.timeout = s.settings.timeout := by
  cases hsteady : op.isSteady with
  | true => exact (within_after hsteady).timeout
  | false =>
    cases op with
    | clock | outage | limit => rfl
    | _ => cases hsteady

theorem writable_after {op : Operation} (h : op.keepsStorage = true) (hs : s.Writable) :
    (s.after op).Writable := by
  cases hsteady : op.isSteady with
  | true => exact (within_after hsteady).writable hs
  | false =>
    cases op with
    | clock => exact ⟨hs.available, hs.unlimited⟩
    | outage | limit => cases h
    | _ => cases hsteady

end Draw

end Mvcc.Ledger

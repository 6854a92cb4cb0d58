import Mvcc.Proofs.Txn.Changes

/-!
# Lifecycle of records

The parent of a record exists when the record is created. A record is active until it has an
outcome, and changes afterwards only in its coordinated commit timestamp. None of this depends on
the clock.
-/

namespace Mvcc

namespace Partition

variable {p p' p'' : Partition} {id : TxnId} {txn txn' : Txn}

/-! ## Successive records -/

def slot? (p : Partition) (id : TxnId) (slot : Bytes) : Option Bytes :=
  p.cell? (Slot.rowKey id) slot

/-- How a record of `p` may have changed in `p'`. -/
structure Pursues (p p' : Partition) (id : TxnId) (txn txn' : Txn) : Prop where
  state (h : txn.state ≠ .active) : txn'.state = txn.state
  core : p'.slot? id Slot.core = p.slot? id Slot.core
  commit {raw : Bytes} (h : p.slot? id Slot.commit = some raw) :
    p'.slot? id Slot.commit = some raw
  keepAlive_le : txn.keepAlive ≤ txn'.keepAlive
  keepAlive (h : txn.state ≠ .active) : p'.slot? id Slot.keepAlive = p.slot? id Slot.keepAlive
  destinations_grow {table : String} (h : txn.destinations.contains table) :
    txn'.destinations.contains table
  destinations (h : txn.state ≠ .active) : txn'.destinations = txn.destinations

/-- Every record of `p` is in `p'`, with an admissible change. -/
def Continues (p p' : Partition) : Prop :=
  ∀ id txn, p.record? id = some txn → ∃ txn', p'.record? id = some txn' ∧ p.Pursues p' id txn txn'

theorem Pursues.refl (p : Partition) (id : TxnId) (txn : Txn) : p.Pursues p id txn txn where
  state _ := rfl
  core := rfl
  commit h := h
  keepAlive_le := UInt64.le_refl _
  keepAlive _ := rfl
  destinations_grow h := h
  destinations _ := rfl

theorem Continues.refl (p : Partition) : p.Continues p := fun id txn h => ⟨txn, h, .refl p id txn⟩

theorem Pursues.trans {txn'' : Txn} (h : p.Pursues p' id txn txn')
    (h' : p'.Pursues p'' id txn' txn'') : p.Pursues p'' id txn txn'' := by
  have hfinal : txn.state ≠ .active → txn'.state ≠ .active := fun hstate => by
    rwa [h.state hstate]
  exact
    { state := fun hstate => (h'.state (hfinal hstate)).trans (h.state hstate)
      core := h'.core.trans h.core
      commit := fun hraw => h'.commit (h.commit hraw)
      keepAlive_le := UInt64.le_trans h.keepAlive_le h'.keepAlive_le
      keepAlive := fun hstate => (h'.keepAlive (hfinal hstate)).trans (h.keepAlive hstate)
      destinations_grow := fun htable => h'.destinations_grow (h.destinations_grow htable)
      destinations := fun hstate =>
        (h'.destinations (hfinal hstate)).trans (h.destinations hstate) }

theorem Continues.trans (h : p.Continues p') (h' : p'.Continues p'') : p.Continues p'' := by
  intro id txn hrecord
  obtain ⟨txn', hrecord', hpursues⟩ := h id txn hrecord
  obtain ⟨txn'', hrecord'', hpursues'⟩ := h' id txn' hrecord'
  exact ⟨txn'', hrecord'', hpursues.trans hpursues'⟩

/-! ## Slots of one row -/

theorem slot?_withCell (p : Partition) (id other : TxnId) (slot column value : Bytes) :
    (p.withCell (Slot.rowKey id) slot value).slot? other column =
      if other = id ∧ column = slot then some value else p.slot? other column := by
  simp only [slot?, cell?_withCell, Slot.rowKey, BigEndian.ofWord_inj]

theorem record?_withCell_of_ne {other : TxnId} (h : other ≠ id) (slot value : Bytes) :
    (p.withCell (Slot.rowKey id) slot value).record? other = p.record? other := by
  have hrow : Slot.rowKey other ≠ Slot.rowKey id := fun hrow => h (BigEndian.ofWord_inj.1 hrow)
  rw [record?, columns_withCell, if_neg hrow, record?]

theorem isSome_commit_iff (h : p.record? id = some txn) :
    (p.slot? id Slot.commit).isSome ↔ txn.commitTime.isSome := by
  have hspells := (Slot.decode_eq_ok_iff.1 (record?_eq_some_iff.1 h)).2
  rw [Except.isSome_of_option_mapM hspells.commitTime]
  rfl

theorem isSome_globalCommit_iff (h : p.record? id = some txn) :
    (p.slot? id Slot.globalCommit).isSome ↔ txn.globalCommitTime.isSome := by
  have hspells := (Slot.decode_eq_ok_iff.1 (record?_eq_some_iff.1 h)).2
  rw [Except.isSome_of_option_mapM hspells.globalCommitTime]
  rfl

theorem commit_eq_none_of_active (h : p.record? id = some txn) (hactive : txn.state = .active) :
    p.slot? id Slot.commit = none := by
  cases hslot : p.slot? id Slot.commit with
  | none => rfl
  | some raw =>
    have htime := (isSome_commit_iff h).1 (by rw [hslot]; rfl)
    have hcommitted := Slot.committed_of_decode (record?_eq_some_iff.1 h) (.inl htime)
    cases hactive.symm.trans hcommitted

/-! ## One change -/

/-- An active record may change its keep-alive and destinations slots, and commit. -/
theorem pursues_of_active (h : p.record? id = some txn) (hactive : txn.state = .active)
    {slot : Bytes} (hslot : slot ≠ Slot.core) (value : Bytes)
    (hle : txn.keepAlive ≤ txn'.keepAlive)
    (hgrows : ∀ table, txn.destinations.contains table → txn'.destinations.contains table) :
    p.Pursues (p.withCell (Slot.rowKey id) slot value) id txn txn' where
  state hfinal := absurd hactive hfinal
  core := by rw [slot?_withCell, if_neg fun hsame => hslot hsame.2.symm]
  commit hraw := by cases (commit_eq_none_of_active h hactive).symm.trans hraw
  keepAlive_le := hle
  keepAlive hfinal := absurd hactive hfinal
  destinations_grow := hgrows _
  destinations hfinal := absurd hactive hfinal

theorem pursues_of_outcome {slot : Bytes} (hslot : slot = Slot.state ∨ slot = Slot.globalCommit)
    (value : Bytes) (hstate : txn.state ≠ .active → txn'.state = txn.state)
    (hkeepAlive : txn'.keepAlive = txn.keepAlive)
    (hdestinations : txn'.destinations = txn.destinations) :
    p.Pursues (p.withCell (Slot.rowKey id) slot value) id txn txn' := by
  have hother : ∀ column, column ≠ Slot.state → column ≠ Slot.globalCommit →
      (p.withCell (Slot.rowKey id) slot value).slot? id column = p.slot? id column := by
    intro column hne hne'
    rw [slot?_withCell, if_neg]
    rintro ⟨-, rfl⟩
    exact hslot.elim hne hne'
  exact
    { state := hstate
      core := hother _ (by decide) (by decide)
      commit := fun hraw => (hother _ (by decide) (by decide)).trans hraw
      keepAlive_le := hkeepAlive ▸ UInt64.le_refl _
      keepAlive := fun _ => hother _ (by decide) (by decide)
      destinations_grow := fun htable => hdestinations ▸ htable
      destinations := fun _ => hdestinations }

/-- A record is unchanged, new, or changed admissibly. -/
def Fate (p p' : Partition) (id : TxnId) : Prop :=
  (p'.record? id = p.record? id ∧ ∀ slot, p'.slot? id slot = p.slot? id slot) ∨
  (p.record? id = none ∧ ∃ txn, p'.record? id = some txn ∧
    ∀ parent, txn.parent = some parent → (p.record? parent).isSome ∧ parent < id) ∨
  ∃ txn txn', p.record? id = some txn ∧ p'.record? id = some txn' ∧ txn'.parent = txn.parent ∧
    p.Pursues p' id txn txn'

theorem fate_withCell {slot value : Bytes} (h : p.record? id = some txn)
    (hdecode : Slot.decode id ((p.columns (Slot.rowKey id)).insert slot value).entries = .ok txn')
    (hparent : txn'.parent = txn.parent)
    (hpursues : p.Pursues (p.withCell (Slot.rowKey id) slot value) id txn txn') (other : TxnId) :
    p.Fate (p.withCell (Slot.rowKey id) slot value) other := by
  by_cases hother : other = id
  · rw [hother]
    exact .inr (.inr ⟨txn, txn', h, record?_withCell hdecode, hparent, hpursues⟩)
  · refine .inl ⟨record?_withCell_of_ne hother slot value, fun column => ?_⟩
    rw [slot?_withCell, if_neg fun hsame => hother hsame.1]

theorem Change.fate (h : p.Change p') (id : TxnId) : p.Fate p' id := by
  cases h with
  | core txn hempty hparent =>
    by_cases hid : id = txn.id
    · have hnone : p.record? id = none := by
        cases hrecord : p.record? id with
        | none => rfl
        | some found =>
          have hdecode := record?_eq_some_iff.1 hrecord
          rw [hid, SortedMap.eq_empty_of_isEmpty hempty] at hdecode
          cases hdecode
      subst hid
      exact .inr (.inl ⟨hnone, txn.origin, record?_withCell_core txn hempty, hparent⟩)
    · refine .inl ⟨record?_withCell_of_ne hid .., fun column => ?_⟩
      rw [slot?_withCell, if_neg fun hsame => hid hsame.1]
  | @keepAlive _ txn hrecord hactive time hle =>
    exact fate_withCell hrecord (Slot.decode_insert_keepAlive (record?_eq_some_iff.1 hrecord) time)
      rfl (pursues_of_active hrecord hactive (by decide) _ hle fun _ htable => htable) id
  | destinations hrecord hactive hslot hgrows =>
    exact fate_withCell hrecord
      (Slot.decode_insert_destinations (record?_eq_some_iff.1 hrecord) hslot) rfl
      (pursues_of_active hrecord hactive (by decide) _ (UInt64.le_refl _) hgrows) id
  | state hrecord hwritten =>
    refine fate_withCell hrecord (Slot.decode_insert_state (record?_eq_some_iff.1 hrecord) _) rfl
      (pursues_of_outcome (.inl rfl) _ (fun hfinal => ?_) rfl rfl) id
    exact hwritten.resolve_left hfinal
  | commit hrecord hactive time =>
    exact fate_withCell hrecord (Slot.decode_insert_commit (record?_eq_some_iff.1 hrecord) time)
      rfl (pursues_of_active hrecord hactive (by decide) _ (UInt64.le_refl _)
        fun _ htable => htable) id
  | @globalCommit _ txn hrecord hstate time =>
    refine fate_withCell hrecord
      (Slot.decode_insert_globalCommit (record?_eq_some_iff.1 hrecord) time) rfl
      (pursues_of_outcome (.inr rfl) _ (fun hfinal => ?_) rfl rfl) id
    cases hwritten : txn.state with
    | active => exact absurd hwritten hfinal
    | committed => rfl
    | rolledBack => exact absurd hwritten hstate
  | serving unavailable => exact .inl ⟨rfl, fun _ => rfl⟩

theorem Change.continues (h : p.Change p') : p.Continues p' := by
  intro id txn hrecord
  rcases h.fate id with ⟨hsame, hslots⟩ | ⟨hnone, -⟩ | ⟨_, txn', hrecord', hmoved, -, hpursues⟩
  · have hself := Pursues.refl p id txn
    refine ⟨txn, hsame.trans hrecord, ⟨hself.state, hslots _, fun hraw => ?_, hself.keepAlive_le,
      fun _ => hslots _, hself.destinations_grow, hself.destinations⟩⟩
    exact (hslots _).trans hraw
  · cases hnone.symm.trans hrecord
  · cases hrecord.symm.trans hrecord'
    exact ⟨txn', hmoved, hpursues⟩

/-- Every parent has a record and is older than its children. -/
def Descends (p : Partition) : Prop :=
  ∀ id txn parent, p.record? id = some txn → txn.parent = some parent →
    (p.record? parent).isSome ∧ parent < id

theorem Change.descends (h : p.Change p') (hp : p.Descends) : p'.Descends := by
  have hstays : ∀ id, (p.record? id).isSome → (p'.record? id).isSome := by
    intro id hsome
    obtain ⟨txn, hrecord⟩ := Option.isSome_iff_exists.1 hsome
    obtain ⟨txn', hrecord', -⟩ := h.continues id txn hrecord
    exact Option.isSome_iff_exists.2 ⟨txn', hrecord'⟩
  intro id txn parent hrecord hparent
  have hbefore : (p.record? parent).isSome ∧ parent < id := by
    rcases h.fate id with ⟨hsame, -⟩ | ⟨-, found, hfound, hknown⟩ | ⟨old, _, hold, hnew, heq, -⟩
    · exact hp id txn parent (hsame.symm.trans hrecord) hparent
    · cases hfound.symm.trans hrecord
      exact hknown parent hparent
    · cases hnew.symm.trans hrecord
      exact hp id old parent hold (heq.symm.trans hparent)
  exact ⟨hstays parent hbefore.1, hbefore.2⟩

/-! ## Many changes -/

theorem Changes.continues (h : p.Changes p') : p.Continues p' := by
  induction h with
  | refl => exact .refl p
  | tail _ hchange ih => exact ih.trans hchange.continues

theorem Changes.descends (h : p.Changes p') (hp : p.Descends) : p'.Descends := by
  induction h with
  | refl => exact hp
  | tail _ hchange ih => exact hchange.descends ih

structure Orderly (p : Partition) : Prop where
  readable (id : TxnId) :
    (p.columns (Slot.rowKey id)).isEmpty = true ∨ ∃ txn, p.record? id = some txn
  committed_iff {id : TxnId} {txn : Txn} (h : p.record? id = some txn) :
    txn.state = .committed ↔
      (p.slot? id Slot.commit).isSome ∨ (p.slot? id Slot.globalCommit).isSome
  parent {id parent : TxnId} {txn : Txn} (h : p.record? id = some txn)
    (hparent : txn.parent = some parent) : (p.record? parent).isSome ∧ parent < id

end Partition

namespace Ledger

open TxnM

variable {τ : Type} {s : Ledger τ} {id : TxnId}

/-! ## Commits are dated -/

/-- A failure of the steps is not due to a committed record without a commit time. -/
def Dated {α : Type} (steps : TxnM (Ledger τ) α) (s : Ledger τ) : Prop :=
  Ends steps s (fun _ _ => True) fun e _ => ∀ id, e ≠ .malformed (.commitTimeMissing id)

theorem Dated.bind {α β : Type} {steps : TxnM (Ledger τ) α} {next : α → TxnM (Ledger τ) β}
    (h : Dated steps s) (hnext : ∀ value s', Dated (next value) s') : Dated (steps >>= next) s :=
  ends_bind.2 (h.mono (fun value s' _ => hnext value s') fun _ _ h => h)

theorem dated_pure {α : Type} (value : α) : Dated (pure value) s := trivial

theorem dated_get : Dated get s := trivial

theorem dated_ofStorage {α : Type} (result : Except StorageError α) :
    Dated (ofExcept .ofStorage result) s := by
  unfold Dated
  rw [ends_ofExcept]
  cases result with
  | ok value => trivial
  | error e => cases e <;> simp [TxnError.ofStorage]

theorem load_dated : Dated (load id) s := by
  unfold load
  refine .bind dated_get fun s₁ s₂ => .bind (dated_ofStorage _) fun columns s₃ => ?_
  split
  · exact dated_pure none
  · refine ends_map.2 (ends_ofExcept.2 ?_)
    cases Slot.decode id columns.entries <;> simp [TxnError.ofSlot]

theorem find_dated : Dated (find id) s := by
  unfold find
  refine .bind (show Dated (recollect id) s from trivial) fun found s₁ => ?_
  cases found with
  | some txn => trivial
  | none =>
    refine .bind load_dated fun record s₂ => ?_
    cases record with
    | none => exact dated_pure none
    | some stored =>
      simp only [Dated, ends_bind, ends_get]
      split <;> trivial

theorem climb_dated (start : TxnId) (budget : Nat) (passed : List TxnId) (id : TxnId) :
    Dated (View.climb start budget passed id) s := by
  induction budget generalizing s passed id with
  | zero =>
    unfold View.climb Dated
    split <;> simp
  | succ budget ih =>
    unfold View.climb
    split
    · simp [Dated]
    · refine .bind find_dated fun found s₁ => ?_
      cases found with
      | none => simp [Dated]
      | some txn =>
        cases hparent : txn.parent with
        | none => simp only [hparent, Dated, ends_pure]
        | some parent =>
          simp only [hparent]
          exact .bind (ih (id :: passed) parent) fun above s₂ => dated_pure (txn :: above)

theorem resolve_dated : Dated (View.resolve id) s := by
  unfold View.resolve
  refine .bind (climb_dated id longestChain [] id) fun chain s₁ => ?_
  cases chain <;> simp [Dated, View.ofChain?]

theorem putSlot_dated (slot value : Bytes) : Dated (putSlot id slot value) s := by
  unfold Dated Ends putSlot
  by_cases hquota : s.quota = some 0
  · simp [hquota]
  · simp only [hquota, if_false, Partition.put, Partition.serve]
    cases s.partition.unavailable <;> simp [TxnError.ofStorage]

theorem writeTimeout_dated : Dated (writeTimeout id) s := by
  simp only [Dated, writeTimeout, count, ends_bind, ends_modify, ends_tryCatch]
  exact (putSlot_dated ..).mono (fun _ _ h => h) fun _ _ _ => trivial

theorem draw_dated [TimestampSource τ] : Dated draw s := by
  unfold Dated Ends draw
  cases TimestampSource.draw s.source <;> simp

theorem loadExisting_bind_dated {α : Type} {next : Txn → TxnM (Ledger τ) α} (hs : s.Legible)
    (hnext : ∀ txn, s.partition.record? id = some txn → Dated (next txn) s) :
    Dated (loadExisting id >>= next) s := by
  have hload : Dated (loadExisting id) s := by
    refine .bind load_dated fun found s₁ => ?_
    cases found <;> simp [Dated]
  refine ends_bind.2 (((loadExisting_ends hs).and hload).mono ?_ fun _ _ h => h.2)
  rintro txn s ⟨⟨rfl, h⟩, -⟩
  exact hnext txn h

theorem checkCommit_dated (hs : s.Legible)
    (hcommitted : ∀ txn, s.partition.record? id = some txn → txn.state = .committed →
      txn.commitTime.isSome ∨ txn.globalCommitTime.isSome) : Dated (checkCommit id) s := by
  unfold checkCommit
  refine loadExisting_bind_dated hs fun txn h => ?_
  cases hstate : txn.state with
  | committed =>
    cases htime : (txn.commitTime <|> txn.globalCommitTime) with
    | some time => exact dated_pure (some time)
    | none =>
      have hsome := hcommitted txn h hstate
      have hnone : txn.commitTime = none ∧ txn.globalCommitTime = none := by
        simpa using htime
      simp [hnone] at hsome
  | rolledBack => simp [Dated]
  | active =>
    refine .bind dated_get fun s₁ s₂ => ?_
    dsimp only
    split
    · exact .bind writeTimeout_dated fun _ s₃ => ends_bind.2 (by simp)
    · cases txn.parent with
      | none => exact dated_pure none
      | some parent =>
        refine .bind resolve_dated fun view s₃ => ?_
        split
        · exact ends_bind.2 (by simp)
        · exact dated_pure none

theorem commit_dated [TimestampSource τ] (hs : s.Legible)
    (hcommitted : ∀ txn, s.partition.record? id = some txn → txn.state = .committed →
      txn.commitTime.isSome ∨ txn.globalCommitTime.isSome) : Dated (commit id) s := by
  unfold commit
  refine .bind (checkCommit_dated hs hcommitted) fun found s₁ => ?_
  cases found with
  | some time => exact dated_pure time
  | none =>
    refine .bind draw_dated fun time s₂ => ?_
    refine .bind (putSlot_dated ..) fun _ s₃ => ?_
    exact .bind (putSlot_dated ..) fun _ s₄ => trivial

theorem commit_of_final [TimestampSource τ] (hs : s.Legible) {txn : Txn}
    (h : s.partition.record? id = some txn) (hfinal : txn.state ≠ .active) :
    Leaves (commit id) s fun s' => s'.partition = s.partition := by
  have hcheck : Ends (checkCommit id) s (fun found s' => found.isSome ∧ s'.partition = s.partition)
      fun _ s' => s'.partition = s.partition := by
    simp only [checkCommit, ends_bind]
    refine (loadExisting_ends hs).mono ?_ fun _ _ h => by rw [h.1]
    rintro found s ⟨rfl, hfound⟩
    cases h.symm.trans hfound
    cases hstate : txn.state with
    | active => exact absurd hstate hfinal
    | rolledBack => rfl
    | committed => cases (txn.commitTime <|> txn.globalCommitTime) <;> simp
  refine ends_bind.2 (hcheck.mono ?_ fun _ _ h => h)
  rintro found s₁ ⟨hsome, h₁⟩
  cases found with
  | none => cases hsome
  | some time => exact h₁

/-! ## Runs -/

variable [TimestampSource τ] [AscendingSource τ] {ops : List Operation}

theorem Ready.orderly {name : String} {source : τ} {now : UInt64} {settings : TxnSettings}
    (h : Ready ops (new name source now settings)) :
    ((new name source now settings).run ops).partition.Orderly := by
  have hend := h.run_whole
  have hdescends : (new name source now settings).partition.Descends := by
    intro id txn parent hrecord
    have hnone : (new name source now settings).register.records id = none := records_new id
    cases hnone.symm.trans hrecord
  have hparent := Partition.Changes.descends h.writes_run hdescends
  refine ⟨fun id => ?_, fun hrecord => ?_, fun hrecord => hparent _ _ _ hrecord⟩
  · rcases hend.legible id with hempty | ⟨txn, hdecode⟩
    · exact .inl hempty
    · exact .inr ⟨txn, Partition.record?_eq_some_iff.2 hdecode⟩
  · rw [Partition.isSome_commit_iff hrecord, Partition.isSome_globalCommit_iff hrecord]
    exact hend.sound.committed hrecord

/-- In every run, with any clock, failing storage, refused timestamps and global commits, as long as
timestamps ascend: every record can be read, is committed exactly if it has a commit or a global
commit slot, and has an older parent if any; a commit finds the time of an earlier one and does not
overwrite a final record; and between any two points of the run records change admissibly. -/
theorem records_orderly (name : String) (source : τ) (now : UInt64) (settings : TxnSettings)
    (ops : List Operation) (hsupplied : Supplied (new name source now settings) ops) :
    (run (new name source now settings) ops).partition.Orderly ∧
    (∀ id, Dated (commit id) (run (new name source now settings) ops)) ∧
    (∀ id txn, (run (new name source now settings) ops).partition.record? id = some txn →
      txn.state ≠ .active → Leaves (commit id) (run (new name source now settings) ops) fun s' =>
        s'.partition = (run (new name source now settings) ops).partition) ∧
    ∀ before later, ops = before ++ later →
      (run (new name source now settings) before).partition.Continues
        (run (new name source now settings) ops).partition := by
  have hready := ready_new_of_supplied hsupplied
  have hend := hready.run_whole
  refine ⟨hready.orderly, fun id => ?_, fun id txn hrecord hfinal => ?_, ?_⟩
  · exact commit_dated hend.legible fun txn hrecord => (hend.sound.committed hrecord).1
  · exact commit_of_final hend.legible hrecord hfinal
  · intro before later hops
    subst hops
    rw [run_append]
    exact Partition.Changes.continues (Ready.run hready).writes_run

/-- A child falls silent and is stored as rolled back; then the clock goes back, and its parent
commits while the storage fails in between. -/
theorem records_orderly_with_clock_back :
    let before : List Operation :=
      [.create none none none, .create (some 1) none none, .clock 1200000, .keepAlive 2]
    let later : List Operation :=
      [.clock 5, .commit 1, .outage true, .recordGlobalCommit 1 7, .outage false, .commit 1]
    Supplied (fromZero .standard) (before ++ later) ∧
      (run (fromZero .standard) (before ++ later)).partition.Orderly ∧
      (run (fromZero .standard) before).partition.Continues
        (run (fromZero .standard) (before ++ later)).partition := by
  intro before later
  have hample : Ample (fromZero .standard) (before ++ later) := .inl (by decide)
  have hsupplied := hample.supplied (fun _ => .inl rfl) sound_new
  have horderly := records_orderly "stratum_txn" (fromZero .standard).source 1000000 .standard
    (before ++ later) hsupplied
  exact ⟨hsupplied, horderly.1, horderly.2.2.2 before later rfl⟩

end Ledger

end Mvcc

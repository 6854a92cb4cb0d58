import Mvcc.Proofs.Cell.Partition
import Mvcc.Proofs.Data.ExpiringCache
import Mvcc.Proofs.Txn.Outcome
import Mvcc.Proofs.Txn.Register

/-!
# Storage of a register

The records of a ledger are the readable rows of its partition. If every row is readable, loads do
not fail, and a slot write changes one field of one record.
-/

namespace Mvcc

def Partition.record? (p : Partition) (id : TxnId) : Option Txn :=
  (Slot.decode id (p.columns (Slot.rowKey id)).entries).toOption

theorem Partition.record?_eq_some_iff {p : Partition} {id : TxnId} {txn : Txn} :
    p.record? id = some txn ↔
      Slot.decode id (p.columns (Slot.rowKey id)).entries = .ok txn := by
  rw [Partition.record?]
  cases Slot.decode id (p.columns (Slot.rowKey id)).entries <;> simp [Except.toOption]

namespace Ledger

variable {τ : Type}

/-- What a ledger knows. -/
def register (s : Ledger τ) : Register τ where
  records := s.partition.record?
  recalled := s.completed.remembered?
  source := s.source
  now := s.now
  settings := s.settings
  serving := !s.partition.unavailable

theorem serving_iff {s : Ledger τ} :
    s.register.serving = true ↔ s.partition.unavailable = false := by
  simp [register]

/-- Every row of a transaction is empty or holds a record. -/
def Legible (s : Ledger τ) : Prop :=
  ∀ id, (s.partition.columns (Slot.rowKey id)).isEmpty = true ∨
    ∃ txn, Slot.decode id (s.partition.columns (Slot.rowKey id)).entries = .ok txn

theorem records_eq_some_iff {s : Ledger τ} {id : TxnId} {txn : Txn} :
    s.register.records id = some txn ↔
      Slot.decode id (s.partition.columns (Slot.rowKey id)).entries = .ok txn :=
  Partition.record?_eq_some_iff

theorem id_of_record {s : Ledger τ} {id : TxnId} {txn : Txn}
    (h : s.register.records id = some txn) : txn.id = id :=
  (Slot.decode_eq_ok_iff.1 (records_eq_some_iff.1 h)).1

theorem records_of_isEmpty {s : Ledger τ} {id : TxnId}
    (h : (s.partition.columns (Slot.rowKey id)).isEmpty = true) : s.register.records id = none := by
  cases hrecord : s.register.records id with
  | none => rfl
  | some txn =>
    obtain ⟨-, hspells⟩ := Slot.decode_eq_ok_iff.1 (records_eq_some_iff.1 hrecord)
    obtain ⟨raw, hraw, -⟩ := hspells.core
    rw [SortedMap.isEmpty_iff.1 h] at hraw
    cases hraw

/-! ## Reading -/

open TxnM

variable {s : Ledger τ} {id : TxnId}

theorem load_ends (hs : s.Legible) :
    Ends (load id) s (fun found s' => s' = s ∧ found = s.register.records id)
      fun _ s' => s' = s ∧ s.register.serving = false := by
  simp only [load, ends_bind, ends_get, ends_ofExcept, Partition.getRow, Partition.serve]
  cases havailable : s.partition.unavailable with
  | true => simp [register, havailable]
  | false =>
    simp only [Bool.false_eq_true, if_false]
    rcases hs id with hempty | ⟨txn, htxn⟩
    · simp [hempty, records_of_isEmpty hempty]
    · have hrecord := records_eq_some_iff.2 htxn
      cases hempty : (s.partition.columns (Slot.rowKey id)).isEmpty with
      | true =>
        rw [records_of_isEmpty hempty] at hrecord
        cases hrecord
      | false => simp [ends_map, ends_ofExcept, htxn, hrecord]

theorem loadExisting_ends (hs : s.Legible) :
    Ends (loadExisting id) s (fun txn s' => s' = s ∧ s.register.records id = some txn)
      fun _ s' => s' = s ∧ (s.register.serving = false ∨ s.register.records id = none) := by
  simp only [loadExisting, ends_bind]
  refine (load_ends hs).mono ?_ ?_
  · rintro found s ⟨rfl, rfl⟩
    cases hrecord : s.register.records id <;> simp
  · rintro e s ⟨rfl, hserving⟩
    exact ⟨rfl, .inl hserving⟩

/-! ## Writing -/

/-- Writing a slot puts the record that can be read afterwards in place of the one before. -/
theorem putSlot_ends (hs : s.Legible) {slot value : Bytes} {txn : Txn}
    (h : Slot.decode id
      ((s.partition.columns (Slot.rowKey id)).insert slot value).entries = .ok txn) :
    Ends (putSlot id slot value) s
      (fun _ s' => s'.Legible ∧ s'.register = s.register.put id txn)
      fun _ s' => s'.Legible ∧ s'.register = s.register := by
  unfold Ends putSlot
  by_cases hquota : s.quota = some 0
  · simp [hquota, hs]
  · simp only [hquota, if_false, Partition.put, Partition.serve]
    cases havailable : s.partition.unavailable with
    | true => exact ⟨hs, rfl⟩
    | false =>
      have hcolumns : ∀ other, (s.partition.withCell (Slot.rowKey id) slot value).columns
          (Slot.rowKey other) = if other = id
            then (s.partition.columns (Slot.rowKey id)).insert slot value
            else s.partition.columns (Slot.rowKey other) := by
        intro other
        rw [Partition.columns_withCell]
        simp only [Slot.rowKey, BigEndian.ofWord_inj]
      simp only [Bool.false_eq_true, if_false]
      refine ⟨fun other => ?_, ?_⟩
      · rw [hcolumns]
        by_cases hother : other = id
        · subst hother
          simp [h]
        · rw [if_neg hother]
          exact hs other
      · simp only [register, Register.put, Register.mk.injEq, true_and]
        refine ⟨funext fun other => ?_, ?_⟩
        · simp only [Partition.record?]
          rw [hcolumns]
          by_cases hother : other = id
          · subst hother
            simp [h, Except.toOption]
          · simp [hother]
        · simp [havailable]

end Ledger

end Mvcc

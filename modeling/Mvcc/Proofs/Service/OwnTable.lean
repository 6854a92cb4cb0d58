import Mvcc.Proofs.Snapshot.Holder
import Mvcc.Proofs.Txn.Changes
import Mvcc.Service.Environment

/-!
# A ledger that is also a table

The partition of the ledger's records may be a table of versions too. Records are not versions, so
operations on versions leave the records unchanged.
-/

namespace Mvcc

open TxnM

namespace Ledger

variable {τ : Type} {s : Ledger τ} {id : TxnId}

/-- A key of a record is shorter than any key of a version. -/
theorem rowKey_ne_key (id : TxnId) (row : Bytes) (writer : TxnId) :
    Slot.rowKey id ≠ Version.key row writer := by
  intro h
  have hlength := congrArg List.length h
  simp [Slot.rowKey, Version.key, Version.stem] at hlength
  omega

theorem stored_retouched {p : Partition} (hp : s.partition.Retouched p) (id : TxnId) :
    ({ s with partition := p } : Ledger τ).stored id = s.stored id := by
  have hcolumns : p.columns (Slot.rowKey id) = s.partition.columns (Slot.rowKey id) :=
    hp.columns (rowKey_ne_key id)
  simp only [stored, Partition.getRow, Partition.serve, hp.name, hp.unavailable, hcolumns]

/-- Changing versions in the ledger's partition does not change its look-ups. -/
theorem find_retouched {p : Partition} (hp : s.partition.Retouched p)
    {good : Option Txn → Ledger τ → Prop} {bad : TxnError → Ledger τ → Prop}
    (h : Ends (find id) s good bad) :
    Ends (find id) { s with partition := p }
      (fun found t => ∃ s', good found s' ∧ t = { s' with partition := p })
      fun e t => ∃ s', bad e s' ∧ t = { s' with partition := p } := by
  have hrecollect : ∀ (s : Ledger τ) {good : Option Txn → Ledger τ → Prop}
      {bad : TxnError → Ledger τ → Prop}, Ends (recollect id) s good bad ↔
        good (s.completed.get id).1 { s with completed := (s.completed.get id).2 } :=
    fun _ => Iff.rfl
  rw [find, ends_bind, hrecollect] at h ⊢
  generalize hs₁ : { s with completed := (s.completed.get id).2 } = s₁ at h
  cases hrecalled : (s.completed.get id).1 with
  | some txn =>
    rw [hrecalled] at h
    subst hs₁
    exact ⟨_, h, rfl⟩
  | none =>
    rw [hrecalled] at h
    have hstate : ({ s with partition := p, completed := (s.completed.get id).2 } : Ledger τ) =
        { s₁ with partition := p } := by rw [← hs₁]
    have hstored : ({ s₁ with partition := p } : Ledger τ).stored id = s₁.stored id := by
      refine stored_retouched ?_ id
      rw [← hs₁]
      exact hp
    simp only [hstate, ends_bind] at h ⊢
    rw [Ends, load_eq] at h ⊢
    rw [hstored]
    cases hfound : s₁.stored id with
    | error e =>
      rw [hfound] at h
      exact ⟨_, h, rfl⟩
    | ok found =>
      rw [hfound] at h
      cases found with
      | none => exact ⟨_, h, rfl⟩
      | some txn =>
        have hcurrent : ({ s₁ with partition := p } : Ledger τ).current txn = s₁.current txn := rfl
        simp only [ends_bind, ends_get, hcurrent] at h ⊢
        by_cases hfinal : (s₁.current txn).state.isFinal = true
        · rw [if_pos hfinal] at h ⊢
          exact ⟨_, h, rfl⟩
        · rw [if_neg hfinal] at h ⊢
          exact ⟨_, h, rfl⟩

end Ledger

instance : SteadyCellHolder (Ledger Oracle) where
  region_withRegion _ _ := rfl
  lookup_region _ _ := Ledger.find_partition
  steady_withRegion {known p s} hs hp := by
    obtain ⟨hnamed, fits, hfits, hlasting⟩ := hs
    let fits' : Ledger Oracle → Prop := fun t =>
      ∃ s', fits s' ∧ s'.partition = s.partition ∧ t = { s' with partition := p }
    refine ⟨hnamed, fits', ⟨s, hfits, rfl, rfl⟩, ?_⟩
    rintro _ ⟨s', hs', hpartition, rfl⟩ id
    have hfound : Ends (Ledger.find id) s'
        (fun found s'' => (known id = .ok found ∧ fits s'') ∧ s''.partition = s'.partition)
        fun e s'' => (known id = .error e ∧ fits s'') ∧ s''.partition = s'.partition :=
      (hlasting s' hs' id).and Ledger.find_partition
    refine (Ledger.find_retouched (hpartition ▸ hp) hfound).mono ?_ ?_
    · rintro found _ ⟨s'', ⟨⟨hknown, hs''⟩, hkept⟩, rfl⟩
      exact ⟨hknown, s'', hs'', hkept.trans hpartition, rfl⟩
    · rintro e _ ⟨s'', ⟨⟨hknown, hs''⟩, hkept⟩, rfl⟩
      exact ⟨hknown, s'', hs'', hkept.trans hpartition, rfl⟩

end Mvcc

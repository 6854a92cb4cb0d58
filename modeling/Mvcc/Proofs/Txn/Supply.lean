import Mvcc.Proofs.Txn.Ancestry
import Mvcc.Proofs.Txn.Progress
import Mvcc.Proofs.Txn.Visibility

/-!
# Steady suppliers

A supplier caches look-ups. While its records and its clock do not change, a transaction that
resolved once resolves again with the same view.
-/

namespace Mvcc

open TxnM

section

variable {σ : Type} [Supplier σ] {known : TxnId → Except TxnError (Option Txn)} {s s' : σ}
  {id : TxnId}

namespace Supplier

/-- Every look-up in this supplier state gives what is `known`, and a record of the requested
transaction, however often it is repeated. -/
structure Steady (known : TxnId → Except TxnError (Option Txn)) (s : σ) : Prop where
  named {id : TxnId} {txn : Txn} (h : known id = .ok (some txn)) : txn.id = id
  lasting : ∃ fits : σ → Prop, fits s ∧ ∀ s, fits s → ∀ id,
    Ends (lookup id) s (fun found s' => known id = .ok found ∧ fits s')
      fun e s' => known id = .error e ∧ fits s'

def Shows (known : TxnId → Except TxnError (Option Txn)) (id : TxnId) (txn : Txn) : Prop :=
  known id = .ok (some txn)

theorem Steady.definite (hs : Steady known s) : Definite (Shows known) where
  id_eq h := hs.named h
  unique h h' := by
    cases h.symm.trans h'
    rfl

theorem Steady.lookup_ends (hs : Steady known s) (id : TxnId) :
    Ends (lookup id) s (fun found s' => known id = .ok found ∧ Steady known s')
      fun e s' => known id = .error e ∧ Steady known s' := by
  obtain ⟨fits, hfits, hlasting⟩ := hs.lasting
  refine (hlasting s hfits id).mono ?_ ?_
  · exact fun found s' h => ⟨h.1, hs.named, fits, h.2, hlasting⟩
  · exact fun e s' h => ⟨h.1, hs.named, fits, h.2, hlasting⟩

/-! ## Sequences of look-ups -/

/-- The result of the steps is determined by what is known. -/
def Determined {α : Type} (known : TxnId → Except TxnError (Option Txn)) (steps : TxnM σ α) :
    Prop :=
  ∃ result : Except TxnError α, ∀ s, Steady known s → Ends steps s
    (fun value s' => result = .ok value ∧ Steady known s')
    fun e s' => result = .error e ∧ Steady known s'

/-- Determined steps have the same answer in all steady states. -/
theorem Determined.answer_eq {α : Type} {steps : TxnM σ α} (h : Determined known steps)
    (hs : Steady known s) (hs' : Steady known s') : steps.answer s = steps.answer s' := by
  obtain ⟨result, hresult⟩ := h
  have hanswer : ∀ s, Steady known s → steps.answer s = result := fun s hs =>
    answer_of_ends ((hresult s hs).mono (fun _ _ h => h.1) fun _ _ h => h.1)
  rw [hanswer s hs, hanswer s' hs']

theorem determined_pure {α : Type} (value : α) : Determined known (pure value : TxnM σ α) :=
  ⟨.ok value, fun _ hs => ⟨rfl, hs⟩⟩

theorem determined_throw {α : Type} (e : TxnError) : Determined known (throw e : TxnM σ α) :=
  ⟨.error e, fun _ hs => ⟨rfl, hs⟩⟩

theorem determined_lookup (id : TxnId) : Determined known (lookup id : TxnM σ (Option Txn)) :=
  ⟨known id, fun _ hs => hs.lookup_ends id⟩

theorem Determined.bind {α β : Type} {steps : TxnM σ α} {next : α → TxnM σ β}
    (h : Determined known steps) (hnext : ∀ value, Determined known (next value)) :
    Determined known (steps >>= next) := by
  obtain ⟨result, hsteps⟩ := h
  cases result with
  | error e =>
    refine ⟨.error e, fun s hs => ends_bind.2 ((hsteps s hs).mono ?_ ?_)⟩
    · exact fun _ _ h => nomatch h.1
    · rintro _ s₁ ⟨⟨⟩, hs₁⟩
      exact ⟨rfl, hs₁⟩
  | ok value =>
    obtain ⟨result, hrest⟩ := hnext value
    refine ⟨result, fun s hs => ends_bind.2 ((hsteps s hs).mono ?_ ?_)⟩
    · rintro _ s₁ ⟨⟨⟩, hs₁⟩
      exact hrest s₁ hs₁
    · exact fun _ _ h => nomatch h.1

theorem determined_climb (start : TxnId) (budget : Nat) (passed : List TxnId) (id : TxnId) :
    Determined known (View.climb start budget passed id : TxnM σ (List Txn)) := by
  induction budget generalizing passed id with
  | zero =>
    unfold View.climb
    split <;> exact determined_throw _
  | succ budget ih =>
    unfold View.climb
    split
    · exact determined_throw _
    · refine (determined_lookup id).bind fun found => ?_
      cases found with
      | none => exact determined_throw _
      | some txn =>
        cases hparent : txn.parent with
        | none => simpa only [hparent] using determined_pure [txn]
        | some parent =>
          simp only [hparent]
          exact (ih (id :: passed) parent).bind fun above => determined_pure (txn :: above)

theorem determined_resolve (id : TxnId) :
    Determined known (View.resolve id : TxnM σ View) := by
  refine (determined_climb id longestChain [] id).bind fun chain => ?_
  cases View.ofChain? chain with
  | none => exact determined_throw _
  | some view => exact determined_pure view

theorem Steady.resolve_ends (hs : Steady known s) (id : TxnId) :
    Ends (View.resolve id) s
      (fun view s' => Lineage (Shows known) id view.chain ∧ Steady known s')
      fun _ s' => Steady known s' := by
  refine Supplier.resolve_ends (fun s hs id => (hs.lookup_ends id).mono ?_ fun _ _ h => h.2) hs id
  rintro found s₁ ⟨hknown, hs₁⟩
  refine ⟨?_, hs₁⟩
  rintro txn rfl
  exact hknown

theorem Steady.resolve_again (hs : Steady known s) (hs' : Steady known s') {view : View} {s₁ : σ}
    (h : View.resolve id s = .ok view s₁) :
    ∃ s₂, View.resolve id s' = .ok view s₂ ∧ Steady known s₂ := by
  obtain ⟨result, hresult⟩ := determined_resolve (σ := σ) id
  have hview := ((hresult s hs).of_ok h).1
  have hagain : Ends (View.resolve id) s' (fun found s₂ => found = view ∧ Steady known s₂)
      fun _ _ => False := by
    refine (hresult s' hs').mono ?_ ?_
    · rintro found s₂ ⟨hfound, hs₂⟩
      cases hview.symm.trans hfound
      exact ⟨rfl, hs₂⟩
    · rintro e s₂ ⟨he, -⟩
      cases hview.symm.trans he
  obtain ⟨_, s₂, hresolve, rfl, hs₂⟩ := hagain.exists_ok
  exact ⟨s₂, hresolve, hs₂⟩

end Supplier

/-- A view built over this supplier state. A read-only view has no record of its own; the chain of
its parent, if any, was resolved. -/
inductive View.Current (s : σ) (reader : View) : Prop where
  | stored {s' : σ} (h : View.resolve reader.id s = .ok reader s')
  | unstored (hunknown : ∀ txn s', Supplier.lookup reader.id s ≠ .ok (some txn) s')
    (habove : reader.ancestors = [] ∨
      ∃ parent above s', View.resolve parent s = .ok above s' ∧ reader.ancestors = above.chain)

theorem View.Current.stands {reader : View} (hs : Supplier.Steady known s)
    (h : reader.Current s) : reader.Stands (Supplier.Shows known) := by
  cases h with
  | stored h => exact .stored ((hs.resolve_ends reader.id).of_ok h).1
  | unstored hunknown habove =>
    refine .unstored ?_ ?_
    · intro txn htxn
      have hfound : Ends (Supplier.lookup reader.id) s (fun found _ => found = some txn)
          fun _ _ => False := by
        refine (hs.lookup_ends reader.id).mono ?_ ?_
        · rintro found s₁ ⟨hfound, -⟩
          cases htxn.symm.trans hfound
          rfl
        · rintro e s₁ ⟨he, -⟩
          cases htxn.symm.trans he
      obtain ⟨_, s₁, hlookup, rfl⟩ := hfound.exists_ok
      exact hunknown txn s₁ hlookup
    · rcases habove with hroot | ⟨parent, above, s₁, hresolve, hancestors⟩
      · exact .inl hroot
      · rw [hancestors]
        exact .inr ⟨parent, ((hs.resolve_ends parent).of_ok hresolve).1⟩

end

/-! ## Fixed records -/

theorem FixedRecords.steady (records : FixedRecords)
    (h : ∀ id txn, records.find? id = some txn → txn.id = id) :
    Supplier.Steady (fun id => .ok (records.find? id)) records where
  named hknown := h _ _ (Except.ok.inj hknown)
  lasting := ⟨(· = records), rfl, by
    rintro s rfl id
    exact ⟨rfl, rfl⟩⟩

theorem FixedRecords.steady_ofList (records : List Txn) :
    Supplier.Steady (fun id => .ok ((ofList records).find? id)) (ofList records) := by
  refine steady _ fun id txn h => ?_
  have hlookup : (records.map fun txn => (txn.id, txn)).reverse.lookup id = some txn := by
    rw [← SortedMap.get?_ofList]
    exact h
  obtain ⟨before, after, hsplit, -⟩ := List.lookup_eq_some_iff.1 hlookup
  have hmem : (id, txn) ∈ (records.map fun txn => (txn.id, txn)).reverse := by
    rw [hsplit]
    exact List.mem_append_right _ List.mem_cons_self
  obtain ⟨listed, -, hlisted⟩ := List.mem_map.1 (List.mem_reverse.1 hmem)
  cases hlisted
  rfl

/-! ## Ledgers -/

namespace Ledger

variable {τ : Type} {s : Ledger τ} {id : TxnId}

/-- The record in the row of a transaction, or what is wrong with the row. -/
def stored (s : Ledger τ) (id : TxnId) : Except TxnError (Option Txn) :=
  match s.partition.getRow (Slot.rowKey id) with
  | .error e => .error (.ofStorage e)
  | .ok columns =>
    if columns.isEmpty then .ok none
    else match Slot.decode id columns.entries with
      | .error fault => .error (.ofSlot fault)
      | .ok txn => .ok (some txn)

theorem load_eq (s : Ledger τ) (id : TxnId) :
    load id s = match s.stored id with
      | .ok found => .ok found s
      | .error e => .error e s := by
  have hgoal : Ends (load id) s (fun found s' => s.stored id = .ok found ∧ s' = s)
      fun e s' => s.stored id = .error e ∧ s' = s := by
    simp only [load, stored, ends_bind, ends_get, ends_ofExcept]
    cases s.partition.getRow (Slot.rowKey id) with
    | error e => exact ⟨rfl, trivial⟩
    | ok columns =>
      cases hempty : SortedMap.isEmpty columns with
      | true => simp [hempty]
      | false => cases hdecode : Slot.decode id columns.entries <;>
          simp [hempty, hdecode, ends_map, ends_ofExcept]
  cases hload : load id s with
  | ok found s' =>
    obtain ⟨hstored, rfl⟩ := hgoal.of_ok hload
    rw [hstored]
  | error e s' =>
    obtain ⟨hstored, rfl⟩ := hgoal.of_error hload
    rw [hstored]

theorem decode_of_stored {txn : Txn} (h : s.stored id = .ok (some txn)) :
    s.partition.unavailable = false ∧ s.register.records id = some txn := by
  unfold stored at h
  split at h
  · cases h
  · rename_i columns hrow
    obtain ⟨havailable, rfl⟩ := Partition.serve_eq_ok_iff.1 hrow
    split at h
    · cases h
    · split at h
      · cases h
      · rename_i found hdecode
        cases h
        exact ⟨havailable, records_eq_some_iff.2 hdecode⟩

theorem stored_of_record {txn : Txn} (havailable : s.partition.unavailable = false)
    (h : s.register.records id = some txn) : s.stored id = .ok (some txn) := by
  have hrow : s.partition.getRow (Slot.rowKey id) = .ok (s.partition.columns (Slot.rowKey id)) :=
    Partition.serve_of_available havailable _
  rw [stored, hrow]
  simp only
  split
  · rename_i hempty
    rw [records_of_isEmpty hempty] at h
    cases h
  · rw [records_eq_some_iff.1 h]

/-- The answer of a ledger: the cached record, else the standing of the stored one. -/
def known (s : Ledger τ) (id : TxnId) : Except TxnError (Option Txn) :=
  match s.register.recalled id with
  | some txn => .ok (some txn)
  | none => (s.stored id).map (·.map s.current)

theorem known_of_recalled {txn : Txn} (h : s.register.recalled id = some txn) :
    s.known id = .ok (some txn) := by
  rw [known, h]

/-- While the records can be read, the cache does not matter. -/
theorem known_of_available (hfaithful : s.register.Faithful)
    (havailable : s.partition.unavailable = false) (id : TxnId) :
    s.known id = (s.stored id).map (·.map s.current) := by
  unfold known
  cases hrecalled : s.register.recalled id with
  | none => rfl
  | some txn =>
    obtain ⟨stored, hrecord, rfl⟩ :=
      Register.standing?_eq_some_iff.1 (hfaithful id txn hrecalled).1
    rw [stored_of_record havailable hrecord]
    rfl

/-- Look-ups may have changed the caches, but nothing that is known. -/
structure StandsBy (s s' : Ledger τ) : Prop where
  partition : s'.partition = s.partition
  current : s'.current = s.current
  recalled {id : TxnId} {txn : Txn} (h : s'.register.recalled id = some txn) :
    s.known id = .ok (some txn)
  unrecalled {id : TxnId} (h : s'.register.recalled id = none) :
    s.known id = (s.stored id).map (·.map s.current)

theorem StandsBy.refl (s : Ledger τ) : s.StandsBy s where
  partition := rfl
  current := rfl
  recalled h := known_of_recalled h
  unrecalled h := by rw [known, h]

theorem StandsBy.remember {s' : Ledger τ} {txn : Txn} (h : s.StandsBy s')
    (hfaithful : s.register.Faithful) (havailable : s.partition.unavailable = false)
    (hknown : s.known txn.id = .ok (some txn)) :
    s.StandsBy { s' with completed := s'.completed.insert txn.id txn } where
  partition := h.partition
  current := h.current
  recalled {other found} hfound := by
    rcases ExpiringCache.remembered?_insert hfound with ⟨rfl, rfl⟩ | hold
    · exact hknown
    · exact h.recalled hold
  unrecalled _ := known_of_available hfaithful havailable _

theorem find_standsBy (hfaithful : s.register.Faithful) {s' : Ledger τ} (h : s.StandsBy s')
    (id : TxnId) :
    Ends (find id) s' (fun found s'' => s.known id = .ok found ∧ s.StandsBy s'')
      fun e s'' => s.known id = .error e ∧ s.StandsBy s'' := by
  have hrecollect : Ends (recollect id) s'
      (fun found s'' => s.StandsBy s'' ∧ found = s'.register.recalled id ∧
        s''.register.recalled id = found) fun _ _ => False := by
    have hkept : ∀ other, (s'.completed.get id).2.remembered? other =
        s'.completed.remembered? other := ExpiringCache.remembered?_get s'.completed id
    refine ⟨⟨h.partition, h.current, fun hfound => ?_, fun hfound => ?_⟩, rfl, hkept id⟩
    · exact h.recalled ((hkept _).symm.trans hfound)
    · exact h.unrecalled ((hkept _).symm.trans hfound)
  rw [find, ends_bind]
  refine hrecollect.mono ?_ (fun _ _ h => h.elim)
  rintro found s₁ ⟨hs₁, rfl, hsame⟩
  cases hrecalled : s'.register.recalled id with
  | some txn =>
    simp only [count, ends_bind, ends_modify, ends_pure]
    exact ⟨h.recalled hrecalled, ⟨hs₁.partition, hs₁.current, hs₁.recalled, hs₁.unrecalled⟩⟩
  | none =>
    have hknown := h.unrecalled hrecalled
    have hstored : s₁.stored id = s.stored id := by rw [stored, stored, hs₁.partition]
    simp only [ends_bind]
    rw [Ends, load_eq, hstored]
    cases hrow : s.stored id with
    | error e =>
      rw [hrow] at hknown
      exact ⟨hknown, hs₁⟩
    | ok record =>
      rw [hrow] at hknown
      cases record with
      | none => exact ⟨hknown, hs₁⟩
      | some txn =>
        obtain ⟨havailable, hrecord⟩ := decode_of_stored hrow
        have hid : txn.id = id := id_of_record hrecord
        simp only [ends_bind, ends_get, hs₁.current]
        split
        · exact ⟨hknown, hs₁.remember hfaithful havailable (hid ▸ hknown)⟩
        · exact ⟨hknown, hs₁⟩

/-- A ledger whose caches agree with its records is steady. -/
theorem steady (hfaithful : s.register.Faithful) : Supplier.Steady s.known s where
  named {id txn} h := by
    unfold known at h
    split at h
    · rename_i hrecalled
      cases h
      obtain ⟨stored, hrecord, rfl⟩ :=
        Register.standing?_eq_some_iff.1 (hfaithful _ _ hrecalled).1
      have hid : stored.id = id := id_of_record hrecord
      exact hid
    · cases hstored : s.stored id with
      | error e =>
        rw [hstored] at h
        cases h
      | ok found =>
        cases found with
        | none =>
          rw [hstored] at h
          cases h
        | some stored =>
          rw [hstored] at h
          cases h
          have hid : stored.id = id := id_of_record (decode_of_stored hstored).2
          exact hid
  lasting := ⟨s.StandsBy, .refl s, fun _ h => find_standsBy hfaithful h⟩

end Ledger

end Mvcc

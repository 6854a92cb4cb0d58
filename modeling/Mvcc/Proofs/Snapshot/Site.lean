import Mvcc.Proofs.Txn.Outcome
import Mvcc.Snapshot.Compaction

/-!
# Sites

The supplier of a site is separate from its partition. Operations on versions change the supplier
only by look-ups.
-/

namespace Mvcc

open TxnM

variable {σ : Type} [Supplier σ]

namespace Site

variable {site : Site σ}

theorem climb_ends_iff {start : TxnId} {budget : Nat} {passed : List TxnId} {id : TxnId}
    {good : List Txn → Site σ → Prop} {bad : TxnError → Site σ → Prop} :
    Ends (View.climb start budget passed id) site good bad ↔
      Ends (View.climb start budget passed id) site.supplier
        (fun chain s => good chain ⟨site.region, s⟩) fun e s => bad e ⟨site.region, s⟩ := by
  induction budget generalizing site passed id good with
  | zero =>
    unfold View.climb
    split <;> rfl
  | succ budget ih =>
    unfold View.climb
    split
    · rfl
    · rw [ends_bind, ends_bind]
      refine ends_within.trans (ends_congr (fun found s => ?_) fun _ _ => Iff.rfl)
      cases found with
      | none => rfl
      | some txn =>
        cases hparent : txn.parent with
        | none => simp only [hparent, ends_pure]
        | some parent =>
          simp only [hparent, ends_bind]
          exact @ih ⟨site.region, s⟩ _ _ _

theorem resolve_ends_iff {id : TxnId} {good : View → Site σ → Prop}
    {bad : TxnError → Site σ → Prop} :
    Ends (View.resolve id) site good bad ↔
      Ends (View.resolve id) site.supplier
        (fun view s => good view ⟨site.region, s⟩) fun e s => bad e ⟨site.region, s⟩ := by
  unfold View.resolve
  rw [ends_bind, ends_bind, climb_ends_iff]
  refine ends_congr (fun chain s => ?_) fun _ _ => Iff.rfl
  cases View.ofChain? chain <;> rfl

/-! ## The supplier -/

variable {fits : σ → Prop}

omit [Supplier σ] in
theorem alter_supplier {change : Partition → Except StorageError Partition} :
    Leaves (CellHolder.alter change) site fun site' => site'.supplier = site.supplier := by
  unfold Leaves Ends CellHolder.alter
  cases change (CellHolder.region site) <;> rfl

theorem resolve_keeps (hresolve : ∀ s, fits s → ∀ id, Leaves (View.resolve id) s fits)
    (h : fits site.supplier) (row : Bytes) (writer : TxnId) :
    fits (CellHolder.resolve row writer site).2.supplier := by
  have hlookup : Leaves (View.resolve writer) site fun site' => fits site'.supplier :=
    resolve_ends_iff.2 (hresolve site.supplier h writer)
  unfold CellHolder.resolve
  cases hresolved : View.resolve writer site with
  | error e site₁ => exact hlookup.of_error hresolved
  | ok view site₁ =>
    have h₁ := hlookup.of_ok hresolved
    cases houtcome : view.outcome with
    | none => simpa only [houtcome] using h₁
    | some stamp =>
      have hstamped : Leaves (CellHolder.alter (·.stampVersion row writer stamp)) site₁
          fun site' => fits site'.supplier :=
        alter_supplier.imp fun site' hsame => hsame ▸ h₁
      simp only [houtcome]
      cases halter : CellHolder.alter (·.stampVersion row writer stamp) site₁ with
      | error e site₂ => exact hstamped.of_error halter
      | ok _ site₂ => exact hstamped.of_ok halter

theorem compactVersions_keeps (hresolve : ∀ s, fits s → ∀ id, Leaves (View.resolve id) s fits)
    (h : fits site.supplier) (row : Bytes) (versions : List Version)
    (summary : CompactionSummary) :
    Leaves (CellHolder.compactVersions row versions summary) site
      fun site' => fits site'.supplier := by
  induction versions generalizing site summary with
  | nil => exact h
  | cons version older ih =>
    have hclassify : Leaves (classify version.writer version.stamp) site
        fun site' => fits site'.supplier := by
      match version.stamp with
      | some .rolledBack => exact h
      | some (.committed time) => exact h
      | none =>
        have hlookup : Leaves (View.resolve version.writer) site fun site' => fits site'.supplier :=
          resolve_ends_iff.2 (hresolve site.supplier h version.writer)
        exact ends_bind.2 (hlookup.mono (fun _ _ h₁ => h₁) fun _ _ h₁ => h₁)
    have happly : ∀ action, ∀ site₁ : Site σ, fits site₁.supplier →
        Leaves (CellHolder.apply row version.writer action) site₁
          fun site' => fits site'.supplier := by
      intro action site₁ h₁
      cases action with
      | keep => exact h₁
      | settle stamp => exact alter_supplier.imp fun site' hsame => hsame ▸ h₁
      | purge => exact alter_supplier.imp fun site' hsame => hsame ▸ h₁
    simp only [CellHolder.compactVersions, CellHolder.compactVersion, ends_bind]
    refine hclassify.mono (fun action site₁ h₁ => ?_) (fun _ _ h₁ => h₁)
    refine (happly action site₁ h₁).mono (fun _ site₂ h₂ => ?_) (fun _ _ h₂ => h₂)
    exact ih h₂ _

theorem compactRow_keeps (hresolve : ∀ s, fits s → ∀ id, Leaves (View.resolve id) s fits)
    (h : fits site.supplier) (row : Bytes) :
    Leaves (CellHolder.compactRow row) site fun site' => fits site'.supplier := by
  simp only [CellHolder.compactRow, ends_bind, ends_get, ends_ofExcept]
  cases (CellHolder.region site).versions row with
  | error fault => exact h
  | ok versions => exact compactVersions_keeps hresolve h row versions .zero

end Site

end Mvcc

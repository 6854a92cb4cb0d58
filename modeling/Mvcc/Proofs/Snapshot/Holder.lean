import Mvcc.Proofs.Cell.Stamping
import Mvcc.Proofs.Snapshot.Attested
import Mvcc.Proofs.Snapshot.Site

/-!
# Holders of versions

A holder is a supplier state that contains a partition of versions. Look-ups leave the partition
unchanged. If operations on versions do not affect look-ups either, the resolution of a version does
not depend on when it happens.
-/

namespace Mvcc

open TxnM

/-! ## Answers of look-ups -/

section

variable {σ : Type} [Supplier σ] {known : TxnId → Except TxnError (Option Txn)} {s s' : σ}

/-- What a look-up of each transaction answers in this state of a supplier. -/
def Supplier.answers (s : σ) (id : TxnId) : Except TxnError View := (View.resolve id).answer s

theorem Supplier.answers_eq_ok_iff {id : TxnId} {view : View} :
    answers s id = .ok view ↔ Finds s id view := answer_eq_ok_iff

theorem Supplier.Steady.answers_eq (hs : Steady known s) (hs' : Steady known s') :
    answers s = answers s' :=
  funext fun id => (determined_resolve id).answer_eq hs hs'

theorem Site.answers_eq (site : Site σ) :
    Supplier.answers site = Supplier.answers site.supplier := by
  funext id
  refine answer_of_ends (resolve_ends_iff.2 (.of_forall ?_ ?_)) <;>
    exact fun _ _ h => by rw [Supplier.answers, answer, h]

end

/-! ## Holders unchanged by look-ups -/

/-- Look-ups leave the partition of the holder unchanged, and replacing the partition replaces just
that. -/
class LawfulCellHolder (σ : Type) [CellHolder σ] [Supplier σ] : Prop where
  region_withRegion (p : Partition) (s : σ) :
    CellHolder.region (CellHolder.withRegion p s) = p
  lookup_region (s : σ) (id : TxnId) :
    Leaves (Supplier.lookup id) s fun s' => CellHolder.region s' = CellHolder.region s

instance {σ : Type} [Supplier σ] : LawfulCellHolder (Site σ) where
  region_withRegion _ _ := rfl
  lookup_region _ _ := ends_within.2 (.of_forall (fun _ _ _ => rfl) fun _ _ _ => rfl)

namespace CellHolder

variable {σ : Type} [CellHolder σ] [Supplier σ] [LawfulCellHolder σ] {s : σ} {row : Bytes}
  {writer : TxnId}

theorem resolve_region (s : σ) (id : TxnId) :
    Leaves (View.resolve id) s fun s' => region s' = region s := by
  have hlookup : ∀ s' : σ, region s' = region s → ∀ id, Ends (Supplier.lookup id) s'
      (fun found s'' => (∀ txn, found = some txn → True) ∧ region s'' = region s)
      fun _ s'' => region s'' = region s := by
    intro s' hs' id
    refine (LawfulCellHolder.lookup_region s' id).mono ?_ ?_
    · exact fun _ _ h => ⟨fun _ _ => trivial, h.trans hs'⟩
    · exact fun _ _ h => h.trans hs'
  have hresolve : Ends (View.resolve id) s
      (fun view s' => Lineage (fun _ _ => True) id view.chain ∧ region s' = region s)
      fun _ s' => region s' = region s := Supplier.resolve_ends hlookup rfl id
  exact hresolve.mono (fun _ _ h => h.2) fun _ _ h => h

/-- The result of resolving a version, and the holder afterwards. -/
inductive Resolved (row : Bytes) (writer : TxnId) (s : σ) : Resolution → σ → Prop where
  | stamped {view : View} {stamp : Stamp} {s₁ s' : σ} (hview : View.resolve writer s = .ok view s₁)
    (houtcome : view.outcome = some stamp)
    (hregion : region s' = (region s).stamped row writer stamp) :
    Resolved row writer s (.stamped stamp) s'
  | active {view : View} {s' : σ} (hview : View.resolve writer s = .ok view s')
    (houtcome : view.outcome = none) (hregion : region s' = region s) :
    Resolved row writer s .active s'
  /-- The writer's look-up failed, or the storage is unavailable. -/
  | failed {s' : σ} (hfailed : (∃ e, View.resolve writer s = .error e s') ∨
      (region s).unavailable = true) (hregion : region s' = region s) :
    Resolved row writer s .failed s'

theorem resolve_resolved (row : Bytes) (writer : TxnId) (s : σ) :
    Resolved row writer s (resolve row writer s).1 (resolve row writer s).2 := by
  have hlooked := resolve_region s writer
  unfold resolve
  cases hview : View.resolve writer s with
  | error e s₁ => exact .failed (.inl ⟨e, hview⟩) (hlooked.of_error hview)
  | ok view s₁ =>
    have hregion := hlooked.of_ok hview
    cases houtcome : view.outcome with
    | none =>
      simp only [houtcome]
      exact .active hview houtcome hregion
    | some stamp =>
      simp only [houtcome, alter]
      cases hstamp : (region s₁).stampVersion row writer stamp with
      | ok p =>
        obtain ⟨-, hstamped⟩ := Partition.stampVersion_eq_ok_iff.1 hstamp
        refine .stamped hview houtcome ?_
        rw [LawfulCellHolder.region_withRegion, hstamped, hregion]
      | error e =>
        refine .failed (.inr ?_) hregion
        cases havailable : (region s).unavailable with
        | true => rfl
        | false =>
          rw [← show region s₁ = region s from hregion] at havailable
          cases hstamp.symm.trans (Partition.stampVersion_of_available havailable row writer stamp)

/-- The result of resolving a version, from the look-up of its writer. -/
def due (unavailable : Bool) : Except TxnError View → Resolution
  | .error _ => .failed
  | .ok view =>
    match view.outcome with
    | none => .active
    | some stamp => if unavailable then .failed else .stamped stamp

theorem resolve_fst (row : Bytes) (writer : TxnId) (s : σ) :
    (resolve row writer s).1 = due (region s).unavailable (Supplier.answers s writer) := by
  have hlooked := resolve_region s writer
  unfold resolve Supplier.answers answer due
  cases hview : View.resolve writer s with
  | error e s₁ => rfl
  | ok view s₁ =>
    have hregion : region s₁ = region s := hlooked.of_ok hview
    cases houtcome : view.outcome with
    | none => simp only [houtcome]
    | some stamp =>
      simp only [houtcome, alter, hregion]
      cases havailable : (region s).unavailable with
      | false => simp [Partition.stampVersion_of_available havailable]
      | true =>
        cases hstamp : (region s).stampVersion row writer stamp with
        | error e => rfl
        | ok p =>
          cases havailable.symm.trans (Partition.stampVersion_eq_ok_iff.1 hstamp).1

end CellHolder

/-! ## Steady holders -/

/-- What is known of transactions does not depend on the versions in the holder. -/
class SteadyCellHolder (σ : Type) [CellHolder σ] [Supplier σ] : Prop
    extends LawfulCellHolder σ where
  steady_withRegion {known : TxnId → Except TxnError (Option Txn)} {p : Partition} {s : σ}
    (hs : Supplier.Steady known s) (hp : (CellHolder.region s).Retouched p) :
    Supplier.Steady known (CellHolder.withRegion p s)

section

variable {σ : Type} [Supplier σ] {known : TxnId → Except TxnError (Option Txn)}

theorem Site.steady_iff {site : Site σ} :
    Supplier.Steady known site ↔ Supplier.Steady known site.supplier := by
  constructor
  · rintro ⟨hnamed, fits, hfits, hlasting⟩
    refine ⟨hnamed, fun s => ∃ region, fits ⟨region, s⟩, ⟨_, hfits⟩, ?_⟩
    rintro s ⟨region, hs⟩ id
    have hends := ends_within.1 (hlasting ⟨region, s⟩ hs id)
    exact hends.mono (fun _ _ h => ⟨h.1, region, h.2⟩) fun _ _ h => ⟨h.1, region, h.2⟩
  · rintro ⟨hnamed, fits, hfits, hlasting⟩
    exact ⟨hnamed, fun site => fits site.supplier, hfits,
      fun site hs id => ends_within.2 (hlasting site.supplier hs id)⟩

instance : SteadyCellHolder (Site σ) where
  steady_withRegion hs _ :=
    have hsupplier := Site.steady_iff.1 hs
    Site.steady_iff.2 hsupplier

end

namespace CellHolder

variable {σ : Type} [CellHolder σ] [Supplier σ] [SteadyCellHolder σ]
  {known : TxnId → Except TxnError (Option Txn)} {s : σ}

theorem alter_steady (hs : Supplier.Steady known s)
    {change : Partition → Except StorageError Partition}
    (hchange : ∀ p, change (region s) = .ok p → (region s).Retouched p) :
    Leaves (alter change) s (Supplier.Steady known) := by
  unfold Leaves Ends alter
  cases hp : change (region s) with
  | error e => exact hs
  | ok p => exact SteadyCellHolder.steady_withRegion hs (hchange p hp)

theorem resolve_steady (hs : Supplier.Steady known s) (row : Bytes) (writer : TxnId) :
    Supplier.Steady known (resolve row writer s).2 := by
  have hlooked := hs.resolve_ends writer
  unfold resolve
  cases hview : View.resolve writer s with
  | error e s₁ => exact hlooked.of_error hview
  | ok view s₁ =>
    have hs₁ : Supplier.Steady known s₁ := (hlooked.of_ok hview).2
    cases houtcome : view.outcome with
    | none => simpa only [houtcome] using hs₁
    | some stamp =>
      have hstamped : Leaves (alter (·.stampVersion row writer stamp)) s₁
          (Supplier.Steady known) := by
        refine alter_steady hs₁ fun p hp => ?_
        rw [(Partition.stampVersion_eq_ok_iff.1 hp).2]
        exact Partition.retouched_stamped _ row writer stamp
      simp only [houtcome]
      cases halter : alter (·.stampVersion row writer stamp) s₁ with
      | error e s₂ => exact hstamped.of_error halter
      | ok _ s₂ => exact hstamped.of_ok halter

end CellHolder

end Mvcc

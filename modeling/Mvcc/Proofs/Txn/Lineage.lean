import Mvcc.Proofs.Txn.Storage

/-!
# Lineages

A look-up returns a cached record or the stored one as of the current clock, and caches nothing
else. A view is a chain of such answers that ends at a root.
-/

namespace Mvcc

/-- There is at most one answer to each look-up, and it is a record of that id. -/
structure Definite (answers : TxnId → Txn → Prop) : Prop where
  id_eq {id : TxnId} {txn : Txn} (h : answers id txn) : txn.id = id
  unique {id : TxnId} {txn txn' : Txn} (h : answers id txn) (h' : answers id txn') : txn = txn'

/-- A chain of answers from `id` up to a root. -/
inductive Lineage (answers : TxnId → Txn → Prop) : TxnId → List Txn → Prop where
  | root {id : TxnId} {txn : Txn} (h : answers id txn) (hparent : txn.parent = none) :
    Lineage answers id [txn]
  | child {id parent : TxnId} {txn : Txn} {above : List Txn} (h : answers id txn)
    (hparent : txn.parent = some parent) (habove : Lineage answers parent above) :
    Lineage answers id (txn :: above)

namespace Lineage

variable {answers : TxnId → Txn → Prop} {id : TxnId} {chain : List Txn}

theorem mono {answers' : TxnId → Txn → Prop} (h : Lineage answers id chain)
    (hanswers : ∀ id txn, answers id txn → answers' id txn) : Lineage answers' id chain := by
  induction h with
  | root hanswer hparent => exact .root (hanswers _ _ hanswer) hparent
  | child hanswer hparent _ ih => exact .child (hanswers _ _ hanswer) hparent ih

theorem head {txn : Txn} {above : List Txn} (h : Lineage answers id (txn :: above)) :
    answers id txn ∧ (txn.parent = none ∧ above = [] ∨
      ∃ parent, txn.parent = some parent ∧ above ≠ [] ∧ Lineage answers parent above) := by
  cases h with
  | root hanswer hparent => exact ⟨hanswer, .inl ⟨hparent, rfl⟩⟩
  | child hanswer hparent habove =>
    exact ⟨hanswer, .inr ⟨_, hparent, by cases habove <;> simp, habove⟩⟩

theorem suffix {below above : List Txn} {txn : Txn}
    (h : Lineage answers id (below ++ txn :: above)) :
    ∃ other, Lineage answers other (txn :: above) := by
  induction below generalizing id with
  | nil => exact ⟨id, h⟩
  | cons member below ih =>
    obtain ⟨-, ⟨-, hnil⟩ | ⟨parent, -, -, habove⟩⟩ := h.head
    · simp at hnil
    · exact ih habove

theorem answers_of_mem (h : Lineage answers id chain) :
    ∀ txn ∈ chain, ∃ other, answers other txn := by
  intro txn hmember
  obtain ⟨below, above, rfl⟩ := List.append_of_mem hmember
  obtain ⟨other, hother⟩ := h.suffix
  exact ⟨other, hother.head.1⟩

/-- Where each look-up has one answer there is only one chain. -/
theorem unique (hanswers : Definite answers) {chain' : List Txn} (h : Lineage answers id chain)
    (h' : Lineage answers id chain') : chain = chain' := by
  induction h generalizing chain' with
  | root hanswer hparent =>
    cases h' with
    | root hanswer' hparent' => rw [hanswers.unique hanswer hanswer']
    | child hanswer' hparent' habove' =>
      rw [hanswers.unique hanswer hanswer', hparent'] at hparent
      cases hparent
  | child hanswer hparent habove ih =>
    cases h' with
    | root hanswer' hparent' =>
      rw [hanswers.unique hanswer hanswer', hparent'] at hparent
      cases hparent
    | child hanswer' hparent' habove' =>
      cases hanswers.unique hanswer hanswer'
      cases hparent.symm.trans hparent'
      rw [ih habove']

theorem id_eq (hanswers : Definite answers) {view : View} (h : Lineage answers id view.chain) :
    view.id = id :=
  hanswers.id_eq h.head.1

/-- A chain that goes through a transaction ends with that transaction's own. -/
theorem suffix_of_mem (hanswers : Definite answers) {view : View} (h : Lineage answers id chain)
    (hview : Lineage answers view.id view.chain) (hmem : ∃ txn ∈ chain, txn.id = view.id) :
    chain = chain.takeWhile (·.id ≠ view.id) ++ view.chain := by
  induction h with
  | @root id txn hanswer hparent =>
    obtain ⟨_, htxn, hid⟩ := hmem
    cases List.mem_singleton.1 htxn
    have hsame : id = view.id := (hanswers.id_eq hanswer).symm.trans hid
    subst hsame
    simp [hid, hview.unique hanswers (.root hanswer hparent)]
  | @child id parent txn above hanswer hparent habove ih =>
    by_cases hid : txn.id = view.id
    · have hsame : id = view.id := (hanswers.id_eq hanswer).symm.trans hid
      subst hsame
      simp [hid, hview.unique hanswers (.child hanswer hparent habove)]
    · have hmem' : ∃ txn ∈ above, txn.id = view.id := by simpa [hid] using hmem
      simpa [hid] using ih hmem'

end Lineage

/-! ## Following parents -/

namespace Supplier

open TxnM

variable {σ : Type} [Supplier σ] {fits : σ → Prop} {answers : TxnId → Txn → Prop} {s : σ}

/-- Climbing gives a lineage, and preserves the supplier invariant of look-ups. -/
theorem climb_ends
    (hlookup : ∀ s, fits s → ∀ id, Ends (lookup id) s
      (fun found s' => (∀ txn, found = some txn → answers id txn) ∧ fits s') fun _ s' => fits s')
    (hs : fits s) (start : TxnId) (budget : Nat) (passed : List TxnId) (id : TxnId) :
    Ends (View.climb start budget passed id) s
      (fun chain s' => Lineage answers id chain ∧ fits s') fun _ s' => fits s' := by
  induction budget generalizing s passed id with
  | zero =>
    unfold View.climb
    split <;> exact hs
  | succ budget ih =>
    unfold View.climb
    split
    · exact hs
    · rw [ends_bind]
      refine (hlookup s hs id).mono ?_ (fun _ _ h => h)
      rintro found s₁ ⟨hfound, hs₁⟩
      cases found with
      | none => exact hs₁
      | some txn =>
        have hanswer := hfound txn rfl
        cases hparent : txn.parent with
        | none =>
          simp only [hparent, ends_pure]
          exact ⟨.root hanswer hparent, hs₁⟩
        | some parent =>
          simp only [hparent, ends_bind]
          refine (ih hs₁ (id :: passed) parent).mono ?_ (fun _ _ h => h)
          rintro above s₂ ⟨habove, hs₂⟩
          exact ⟨.child hanswer hparent habove, hs₂⟩

theorem resolve_ends
    (hlookup : ∀ s, fits s → ∀ id, Ends (lookup id) s
      (fun found s' => (∀ txn, found = some txn → answers id txn) ∧ fits s') fun _ s' => fits s')
    (hs : fits s) (id : TxnId) :
    Ends (View.resolve id) s (fun view s' => Lineage answers id view.chain ∧ fits s')
      fun _ s' => fits s' := by
  rw [View.resolve, ends_bind]
  refine (climb_ends hlookup hs id longestChain [] id).mono ?_ (fun _ _ h => h)
  rintro chain s₁ ⟨hchain, hs₁⟩
  cases chain with
  | nil => exact hs₁
  | cons record ancestors => exact ⟨hchain, hs₁⟩

theorem climb_length (start : TxnId) (budget : Nat) (passed : List TxnId) (id : TxnId) :
    Ends (View.climb start budget passed id) s (fun chain _ => chain.length ≤ budget)
      fun _ _ => True := by
  induction budget generalizing s passed id with
  | zero =>
    unfold View.climb
    split <;> trivial
  | succ budget ih =>
    unfold View.climb
    split
    · trivial
    · rw [ends_bind]
      refine Ends.of_forall (fun found s₁ _ => ?_) fun _ _ _ => trivial
      cases found with
      | none => trivial
      | some txn =>
        cases hparent : txn.parent with
        | none => simp [hparent]
        | some parent =>
          simp only [hparent, ends_bind]
          refine (ih (id :: passed) parent).mono ?_ fun _ _ _ => trivial
          intro above s₂ habove
          exact Nat.succ_le_succ habove

theorem resolve_length (id : TxnId) :
    Ends (View.resolve id) s (fun view _ => view.chain.length ≤ longestChain)
      fun _ _ => True := by
  rw [View.resolve, ends_bind]
  refine (climb_length id longestChain [] id).mono ?_ fun _ _ _ => trivial
  intro chain s₁ hchain
  cases chain with
  | nil => trivial
  | cons record ancestors => exact hchain

end Supplier

namespace Register

variable {τ : Type} {r r' : Register τ} {id : TxnId} {chain : List Txn}

abbrev Lineage (r : Register τ) (id : TxnId) (chain : List Txn) : Prop :=
  Mvcc.Lineage r.Answers id chain

theorem Lineage.of_remembers (h : r.Remembers r') (hchain : r'.Lineage id chain) :
    r.Lineage id chain :=
  hchain.mono fun _ _ => h.answers

end Register

namespace Ledger

open TxnM

variable {τ : Type} {s : Ledger τ} {id : TxnId}

/-- The steps led from `s` to a ledger that can be read, and nothing changed but memory. -/
def Looked (s s' : Ledger τ) : Prop := s'.Legible ∧ s.register.Remembers s'.register

theorem Looked.refl (hs : s.Legible) : s.Looked s := ⟨hs, .refl _⟩

theorem Looked.trans {s₁ s₂ s₃ : Ledger τ} (h : s₁.Looked s₂) (h' : s₂.Looked s₃) : s₁.Looked s₃ :=
  ⟨h'.1, h.2.trans h'.2⟩

theorem Looked.serving {s s' : Ledger τ} (h : s.Looked s') :
    s'.register.serving = s.register.serving := by
  rw [h.2.1]

theorem Looked.isSilent {s s' : Ledger τ} (h : s.Looked s') (txn : Txn) :
    s'.register.isSilent txn = s.register.isSilent txn := by
  rw [h.2.1]
  rfl

/-! ## One look-up -/

theorem recollect_ends (hs : s.Legible) :
    Ends (recollect id) s (fun found s' => s.Looked s' ∧ s'.partition = s.partition ∧
      s'.register.records = s.register.records ∧ found = s.register.recalled id)
      fun _ _ => False := by
  refine ⟨⟨hs, ?_, ?_⟩, rfl, rfl, rfl⟩
  · rfl
  · intro other txn htxn
    exact .inl ((ExpiringCache.remembered?_get s.completed id other).symm.trans htxn)

theorem remember_ends (txn : Txn) (hs : s.Legible) (hid : txn.id = id)
    (hstanding : s.register.standing? id = some txn) (hfinal : txn.state.isFinal) :
    Ends (remember txn) s (fun _ s' => s.Looked s') fun _ _ => False := by
  refine ⟨hs, rfl, fun other found hfound => ?_⟩
  rcases ExpiringCache.remembered?_insert hfound with ⟨rfl, rfl⟩ | hold
  · exact .inr ⟨hid ▸ hstanding, hfinal⟩
  · exact .inl hold

/-- A look-up fails only where the storage is unavailable, and finds nothing only where nothing is
known. -/
theorem find_ends (hs : s.Legible) :
    Ends (find id) s
      (fun found s' => s.Looked s' ∧
        match found with
        | some txn => s.register.Answers id txn
        | none => s.register.recalled id = none ∧ s.register.records id = none)
      fun _ s' => s.Looked s' ∧ s.register.serving = false := by
  simp only [find, ends_bind]
  refine (recollect_ends hs).mono ?_ (fun _ _ h => h.elim)
  rintro found s₁ ⟨hlooked, hpartition, hrecords, hfound⟩
  cases found with
  | some txn =>
    simp only [count, ends_bind, ends_modify, ends_pure]
    exact ⟨⟨hlooked.1, hlooked.2⟩, .inl hfound.symm⟩
  | none =>
    simp only [ends_bind]
    refine (load_ends hlooked.1).mono ?_ ?_
    · rintro record s₁ ⟨rfl, hrecord⟩
      cases record with
      | none => exact ⟨hlooked, hfound.symm, by rw [hrecord, hrecords]⟩
      | some stored =>
        have hstanding : s₁.register.standing? id = some (s₁.current stored) :=
          Register.standing?_of_record hrecord.symm
        have hanswer : s.register.Answers id (s₁.current stored) :=
          hlooked.2.answers (.inr hstanding)
        simp only [ends_bind, ends_get]
        split
        · rename_i hfinal
          have hid : stored.id = id := id_of_record hrecord.symm
          rw [ends_bind]
          refine (remember_ends (s₁.current stored) hlooked.1 hid hstanding hfinal).mono ?_
            (fun _ _ h => h.elim)
          intro _ s₂ hlooked'
          exact ⟨hlooked.trans hlooked', hanswer⟩
        · exact ⟨hlooked, hanswer⟩
    · rintro e s₁ ⟨rfl, hserving⟩
      exact ⟨hlooked, hlooked.serving.symm.trans hserving⟩

/-! ## Chains -/

theorem resolve_ends (hs : s.Legible) :
    Ends (View.resolve id) s (fun view s' => s.Looked s' ∧ s.register.Lineage id view.chain)
      fun _ s' => s.Looked s' := by
  have hlookup : ∀ s', s.Looked s' → ∀ id, Ends (Supplier.lookup id) s'
      (fun found s'' => (∀ txn, found = some txn → s.register.Answers id txn) ∧ s.Looked s'')
      fun _ s'' => s.Looked s'' := by
    intro s' hlooked id
    refine (find_ends hlooked.1).mono ?_ fun _ _ h => hlooked.trans h.1
    rintro found s'' ⟨hlooked', hfound⟩
    refine ⟨?_, hlooked.trans hlooked'⟩
    rintro txn rfl
    exact hlooked.2.answers hfound
  exact (Supplier.resolve_ends hlookup (.refl hs) id).mono (fun _ _ h => ⟨h.2, h.1⟩)
    fun _ _ h => h

theorem Looked.resolve {s' : Ledger τ} (h : s.Looked s') (id : TxnId) :
    Leaves (View.resolve id) s' s.Looked :=
  (resolve_ends h.1).mono (fun _ _ h' => h.trans h'.1) fun _ _ h' => h.trans h'

end Ledger

end Mvcc

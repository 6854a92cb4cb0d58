import Mvcc.Txn.Error

/-!
# Outcomes of stateful computations

Rules for postconditions on both results of a computation, success and error, one for each way of
sequencing.
-/

namespace Mvcc.TxnM

variable {σ τ α β : Type}

/-- The steps end well with a value and a state that are `good`, or badly with an error and a state
that are `bad`. -/
def Ends (steps : TxnM σ α) (s : σ) (good : α → σ → Prop) (bad : TxnError → σ → Prop) : Prop :=
  match steps s with
  | .ok value s' => good value s'
  | .error e s' => bad e s'

variable {steps : TxnM σ α} {s : σ} {good : α → σ → Prop} {bad : TxnError → σ → Prop}

instance [∀ value s', Decidable (good value s')] [∀ e s', Decidable (bad e s')] :
    Decidable (Ends steps s good bad) :=
  match h : steps s with
  | .ok value s' => decidable_of_iff (good value s') (by rw [Ends, h])
  | .error e s' => decidable_of_iff (bad e s') (by rw [Ends, h])

theorem Ends.mono {good' : α → σ → Prop} {bad' : TxnError → σ → Prop}
    (h : Ends steps s good bad) (hgood : ∀ value s', good value s' → good' value s')
    (hbad : ∀ e s', bad e s' → bad' e s') : Ends steps s good' bad' := by
  unfold Ends at h ⊢
  cases hsteps : steps s with
  | ok value s' =>
    rw [hsteps] at h
    exact hgood value s' h
  | error e s' =>
    rw [hsteps] at h
    exact hbad e s' h

theorem Ends.and {good' : α → σ → Prop} {bad' : TxnError → σ → Prop}
    (h : Ends steps s good bad) (h' : Ends steps s good' bad') :
    Ends steps s (fun value s' => good value s' ∧ good' value s')
      fun e s' => bad e s' ∧ bad' e s' := by
  unfold Ends at h h' ⊢
  cases hsteps : steps s with
  | ok value s' =>
    rw [hsteps] at h h'
    exact ⟨h, h'⟩
  | error e s' =>
    rw [hsteps] at h h'
    exact ⟨h, h'⟩

theorem ends_congr {good' : α → σ → Prop} {bad' : TxnError → σ → Prop}
    (hgood : ∀ value s', good value s' ↔ good' value s') (hbad : ∀ e s', bad e s' ↔ bad' e s') :
    Ends steps s good bad ↔ Ends steps s good' bad' :=
  ⟨fun h => h.mono (fun value s' => (hgood value s').1) fun e s' => (hbad e s').1,
    fun h => h.mono (fun value s' => (hgood value s').2) fun e s' => (hbad e s').2⟩

theorem Ends.of_forall (hgood : ∀ value s', steps s = .ok value s' → good value s')
    (hbad : ∀ e s', steps s = .error e s' → bad e s') : Ends steps s good bad := by
  unfold Ends
  cases hsteps : steps s with
  | ok value s' => exact hgood value s' hsteps
  | error e s' => exact hbad e s' hsteps

theorem Ends.of_ok (h : Ends steps s good bad) {value : α} {s' : σ}
    (hsteps : steps s = .ok value s') : good value s' := by
  simpa only [Ends, hsteps] using h

theorem Ends.of_error (h : Ends steps s good bad) {e : TxnError} {s' : σ}
    (hsteps : steps s = .error e s') : bad e s' := by
  simpa only [Ends, hsteps] using h

theorem Ends.exists_ok (h : Ends steps s good fun _ _ => False) :
    ∃ value s', steps s = .ok value s' ∧ good value s' := by
  unfold Ends at h
  cases hsteps : steps s with
  | ok value s' =>
    rw [hsteps] at h
    exact ⟨value, s', rfl, h⟩
  | error e s' =>
    rw [hsteps] at h
    exact h.elim

/-- The state that the steps leave satisfies `p`, on success and on failure. -/
abbrev Leaves (steps : TxnM σ α) (s : σ) (p : σ → Prop) : Prop :=
  Ends steps s (fun _ s' => p s') fun _ s' => p s'

theorem Leaves.imp {p q : σ → Prop} (h : Leaves steps s p) (himp : ∀ s', p s' → q s') :
    Leaves steps s q :=
  h.mono (fun _ => himp) fun _ => himp

/-! ## Single steps -/

@[simp] theorem ends_pure {value : α} : Ends (pure value) s good bad ↔ good value s := Iff.rfl

@[simp] theorem ends_throw {e : TxnError} :
    Ends (throw e : TxnM σ α) s good bad ↔ bad e s := Iff.rfl

@[simp] theorem ends_get {good : σ → σ → Prop} : Ends get s good bad ↔ good s s := Iff.rfl

@[simp] theorem ends_modify {good : Unit → σ → Prop} {change : σ → σ} :
    Ends (modify change) s good bad ↔ good () (change s) := Iff.rfl

theorem ends_ofExcept {ε : Type} {wrap : ε → TxnError} {result : Except ε α} :
    Ends (ofExcept wrap result) s good bad ↔
      match result with
      | .ok value => good value s
      | .error e => bad (wrap e) s := by
  cases result <;> rfl

/-! ## Sequences -/

theorem ends_bind {next : α → TxnM σ β} {good : β → σ → Prop} :
    Ends (steps >>= next) s good bad ↔
      Ends steps s (fun value s' => Ends (next value) s' good bad) bad := by
  simp only [Ends, bind, EStateM.bind]
  cases steps s <;> rfl

theorem ends_map {f : α → β} {good : β → σ → Prop} :
    Ends (f <$> steps) s good bad ↔ Ends steps s (fun value s' => good (f value) s') bad := by
  simp only [Ends, Functor.map, EStateM.map]
  cases steps s <;> rfl

theorem ends_tryCatch {handle : TxnError → TxnM σ α} :
    Ends (tryCatch steps handle) s good bad ↔
      Ends steps s good fun e s' => Ends (handle e) s' good bad := by
  simp only [Ends, tryCatch, tryCatchThe, MonadExceptOf.tryCatch]
  delta EStateM.tryCatch
  cases steps s <;> rfl

theorem ends_within {part : σ → τ} {replace : σ → τ → σ} {steps : TxnM τ α} :
    Ends (within part replace steps) s good bad ↔
      Ends steps (part s) (fun value t => good value (replace s t))
        fun e t => bad e (replace s t) := by
  simp only [Ends, within]
  cases steps (part s) <;> rfl

end Mvcc.TxnM

import Mvcc.Proofs.Schema.Demarcation

/-!
# Remembered answers

A filter caches an answer only if its view has a demarcation timestamp, and clears the cache when
the view changes. So cached answers agree with the view in force, and evictions and expiries do not
change answers.
-/

namespace Mvcc.DdlFilter

variable {σ : Type} [Supplier σ]

/-- A call of a filter. A reload reads the schema change from a supplier state. -/
inductive Call (σ : Type) where
  | ask (txn : TxnId)
  | refresh (owner : View)
  | reload (supplier : σ)

/-- A filter after a call. A reload that fails leaves it alone. -/
def next (f : DdlFilter) : Call σ → DdlFilter
  | .ask txn => (f.isVisibleBy txn).2
  | .refresh owner => f.refresh owner
  | .reload supplier =>
    match f.reload supplier with
    | .ok f' _ => f'
    | .error _ _ => f

def after (f : DdlFilter) (calls : List (Call σ)) : DdlFilter := calls.foldl next f

def replacing (owner : View) : Call σ → View
  | .ask _ => owner
  | .refresh owner' => owner'
  | .reload supplier =>
    match View.resolve owner.id supplier with
    | .ok owner' _ => owner'
    | .error _ _ => owner

/-- The view in force once these calls were made. -/
def inForce (owner : View) (calls : List (Call σ)) : View := calls.foldl replacing owner

/-! ## Honest answers -/

/-- The answer that the view of the schema change gives for a transaction. -/
def tells (owner : View) (txn : TxnId) : Bool := (demarcation owner).any (· < txn)

/-- Every cached answer is that of the view. -/
def Honest (f : DdlFilter) : Prop :=
  ∀ txn visible, f.answers.remembered? txn = some visible → visible = tells f.owner txn

variable {f : DdlFilter}

theorem honest_new (owner : View) (capacity : Nat) (lifetime : UInt64) :
    (new owner capacity lifetime).Honest := by
  intro txn visible h
  simp [new] at h

theorem honest_refresh (f : DdlFilter) (owner : View) : (f.refresh owner).Honest := by
  intro txn visible h
  simp [refresh] at h

theorem Honest.isVisibleBy_fst (h : f.Honest) (txn : TxnId) :
    (f.isVisibleBy txn).1 = tells f.owner txn := by
  cases hremembered : f.answers.remembered? txn with
  | none => exact isVisibleBy_of_forgotten hremembered
  | some visible =>
    have hget : f.answers.get txn = (some visible, (f.answers.get txn).2) :=
      Prod.ext hremembered rfl
    rw [← h txn visible hremembered, isVisibleBy, hget]

theorem isVisibleBy_owner (f : DdlFilter) (txn : TxnId) :
    (f.isVisibleBy txn).2.owner = f.owner := by
  unfold isVisibleBy
  split
  · rfl
  · split <;> rfl

theorem Honest.isVisibleBy_snd (h : f.Honest) (txn : TxnId) : (f.isVisibleBy txn).2.Honest := by
  have hread : { f with answers := (f.answers.get txn).2 }.Honest := by
    intro other visible hother
    rw [ExpiringCache.remembered?_get] at hother
    exact h other visible hother
  unfold isVisibleBy
  split
  next hget => rwa [hget] at hread
  next answers hget =>
    rw [hget] at hread
    split
    next => exact hread
    next time htime =>
      intro other visible hother
      cases ExpiringCache.remembered?_insert hother with
      | inl hnew =>
        obtain ⟨rfl, rfl⟩ := hnew
        simp [tells, htime]
      | inr hold => exact hread other visible hold

theorem next_reload (f : DdlFilter) (supplier : σ) :
    f.next (.reload supplier) =
      match View.resolve f.owner.id supplier with
      | .ok owner _ => f.refresh owner
      | .error _ _ => f := by
  simp only [next, reload, bind, EStateM.bind, pure, EStateM.pure]
  cases View.resolve f.owner.id supplier <;> rfl

/-! ## Runs -/

theorem next_owner (f : DdlFilter) (call : Call σ) :
    (f.next call).owner = replacing f.owner call := by
  cases call with
  | ask txn => exact isVisibleBy_owner f txn
  | refresh owner => rfl
  | reload supplier =>
    rw [next_reload, replacing]
    cases View.resolve f.owner.id supplier <;> rfl

theorem Honest.next (h : f.Honest) (call : Call σ) : (f.next call).Honest := by
  cases call with
  | ask txn => exact h.isVisibleBy_snd txn
  | refresh owner => exact honest_refresh f owner
  | reload supplier =>
    rw [next_reload]
    cases View.resolve f.owner.id supplier with
    | ok owner supplier' => exact honest_refresh f owner
    | error error supplier' => exact h

theorem after_owner (f : DdlFilter) (calls : List (Call σ)) :
    (f.after calls).owner = inForce f.owner calls := by
  induction calls generalizing f with
  | nil => rfl
  | cons call calls ih =>
    have hrest := ih (f.next call)
    rwa [next_owner] at hrest

theorem Honest.after (h : f.Honest) (calls : List (Call σ)) : (f.after calls).Honest := by
  induction calls generalizing f with
  | nil => exact h
  | cons call calls ih => exact ih (h.next call)

/-- After any calls, a filter has the view of its last successful reload and answers as a new filter
with that view, for all capacities and lifetimes of the two caches. -/
theorem after_isVisibleBy_eq_new (owner : View) (capacity capacity' : Nat)
    (lifetime lifetime' : UInt64) (calls : List (Call σ)) (txn : TxnId) :
    let f := (new owner capacity lifetime).after calls
    f.owner = inForce owner calls ∧
      (f.isVisibleBy txn).1 = tells (inForce owner calls) txn ∧
      (f.isVisibleBy txn).1 =
        ((new (inForce owner calls) capacity' lifetime').isVisibleBy txn).1 := by
  intro f
  have howner : f.owner = inForce owner calls := after_owner (new owner capacity lifetime) calls
  have hhonest : f.Honest := (honest_new owner capacity lifetime).after calls
  have hanswer : (f.isVisibleBy txn).1 = tells (inForce owner calls) txn := by
    rw [hhonest.isVisibleBy_fst, howner]
  have hnew := (honest_new (inForce owner calls) capacity' lifetime').isVisibleBy_fst txn
  exact ⟨howner, hanswer, hanswer.trans hnew.symm⟩

end Mvcc.DdlFilter

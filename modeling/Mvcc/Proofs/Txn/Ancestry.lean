import Mvcc.Proofs.Txn.Outcome
import Mvcc.Txn.Ancestry

/-!
# Resolution of arbitrary parents

Resolution follows parents one look-up at a time. For arbitrary records, with missing parents and
cycles, it ends at an id visited before, at the bound, at an id without a record or at a root. Which
of these is determined by the records.
-/

namespace Mvcc

open TxnM

/-- The answer of some steps, without the state they leave. -/
def TxnM.answer {σ α : Type} (steps : TxnM σ α) (s : σ) : Except TxnError α :=
  match steps s with
  | .ok value _ => .ok value
  | .error e _ => .error e

theorem TxnM.answer_of_ends {σ α : Type} {steps : TxnM σ α} {s : σ} {result : Except TxnError α}
    (h : Ends steps s (fun value _ => result = .ok value) fun e _ => result = .error e) :
    steps.answer s = result := by
  unfold Ends at h
  unfold answer
  cases hsteps : steps s with
  | ok value s' =>
    rw [hsteps] at h
    exact h.symm
  | error e s' =>
    rw [hsteps] at h
    exact h.symm

theorem TxnM.answer_eq_ok_iff {σ α : Type} {steps : TxnM σ α} {s : σ} {value : α} :
    steps.answer s = .ok value ↔ ∃ s', steps s = .ok value s' := by
  unfold answer
  cases steps s with
  | ok found s' => simp
  | error e s' => simp

/-! ## Counting look-ups -/

/-- A supplier, and the ids that it was asked for so far, in order. -/
structure Polled (σ : Type) where
  supplier : σ
  polled : List TxnId

instance {σ : Type} [Supplier σ] : Supplier (Polled σ) where
  lookup id :=
    TxnM.within (·.supplier) (fun s supplier => ⟨supplier, s.polled ++ [id]⟩) (Supplier.lookup id)

namespace Polled

variable {σ : Type} [Supplier σ] {s : Polled σ}

theorem lookup_length (id : TxnId) :
    Leaves (Supplier.lookup id) s fun s' => s'.polled.length = s.polled.length + 1 := by
  refine ends_within.2 (.of_forall ?_ ?_) <;> exact fun _ _ _ => List.length_append

/-- A climb makes at most as many look-ups as its budget allows. -/
theorem climb_length (start : TxnId) (budget : Nat) (passed : List TxnId) (id : TxnId) :
    Leaves (View.climb start budget passed id) s
      fun s' => s'.polled.length ≤ s.polled.length + budget := by
  induction budget generalizing s passed id with
  | zero =>
    unfold View.climb
    split <;> exact Nat.le_refl _
  | succ budget ih =>
    unfold View.climb
    split
    · exact Nat.le_add_right ..
    · rw [Leaves, ends_bind]
      refine (lookup_length id).mono ?_ fun _ _ h => by omega
      intro found s₁ h₁
      cases found with
      | none =>
        have hle : s₁.polled.length ≤ s.polled.length + (budget + 1) := by omega
        exact hle
      | some txn =>
        cases hparent : txn.parent with
        | none =>
          simp only [hparent, ends_pure]
          omega
        | some parent =>
          simp only [hparent, ends_bind]
          refine (ih (id :: passed) parent).mono ?_ ?_
          · intro above s₂ h₂
            rw [ends_pure]
            omega
          · intro e s₂ h₂
            omega

theorem resolve_length (id : TxnId) :
    Leaves (View.resolve id) s fun s' => s'.polled.length ≤ s.polled.length + longestChain := by
  rw [View.resolve, Leaves, ends_bind]
  refine (climb_length id longestChain [] id).mono (fun chain s₁ h₁ => ?_) fun _ _ h => h
  cases chain <;> exact h₁

end Polled

theorem View.ofChain?_chain {view : View} (h : view.readOnly = false) :
    View.ofChain? view.chain = some view := by
  rw [View.chain, View.ofChain?, ← h]

namespace FixedRecords

variable {records : FixedRecords} {start id next : TxnId} {steps : List (TxnId × Txn)}

def unpolled (records : FixedRecords) : Polled FixedRecords := ⟨records, []⟩

/-! ## Climbs -/

/-- Following parents from a transaction passes the records in `steps`, each with its id, and leads
to `next`. -/
inductive Climbs (records : FixedRecords) : TxnId → List (TxnId × Txn) → TxnId → Prop where
  | start (id : TxnId) : Climbs records id [] id
  | parent {id parent next : TxnId} {txn : Txn} {steps : List (TxnId × Txn)}
    (h : records.find? id = some txn) (hparent : txn.parent = some parent)
    (habove : Climbs records parent steps next) : Climbs records id ((id, txn) :: steps) next

/-- The result of a climb from `start` that passed `steps` and reached `next`, if it ends there. The
reasons are tested in this order. -/
inductive Halts (records : FixedRecords) (start : TxnId) (steps : List (TxnId × Txn))
    (next : TxnId) : Except TxnError View → Prop where
  /-- The parent was visited before. -/
  | cycle (h : next ∈ steps.map (·.1)) :
    Halts records start steps next (.error (.malformed (.cycle next)))
  /-- The bound is reached before a root. -/
  | tooDeep (h : next ∉ steps.map (·.1)) (hlength : steps.length = longestChain) :
    Halts records start steps next (.error (.malformed (.tooDeep start)))
  | missing (h : next ∉ steps.map (·.1)) (hlength : steps.length < longestChain)
    (hnone : records.find? next = none) : Halts records start steps next (.error (.notFound next))
  | root {txn : Txn} {view : View} (h : next ∉ steps.map (·.1))
    (hlength : steps.length < longestChain) (hroot : records.find? next = some txn)
    (hparent : txn.parent = none) (hchain : view.chain = steps.map (·.2) ++ [txn])
    (hreadOnly : view.readOnly = false) : Halts records start steps next (.ok view)

/-- A climb without repetition and within the bound, up to its end. -/
structure Arrives (records : FixedRecords) (start : TxnId) (steps : List (TxnId × Txn))
    (next : TxnId) (result : Except TxnError View) : Prop where
  climbs : records.Climbs start steps next
  distinct : (steps.map (·.1)).Nodup
  short : steps.length ≤ longestChain
  halts : records.Halts start steps next result

theorem Climbs.snoc {txn : Txn} {parent : TxnId} (h : records.Climbs id steps next)
    (hnext : records.find? next = some txn) (hparent : txn.parent = some parent) :
    records.Climbs id (steps ++ [(next, txn)]) parent := by
  induction h with
  | start id => exact .parent hnext hparent (.start parent)
  | parent hid hparent' _ ih => exact .parent hid hparent' (ih hnext)

/-- A climb without repetition extends to one that ends. -/
theorem Climbs.exists_arrives {left : Nat} (h : records.Climbs start steps next)
    (hdistinct : (steps.map (·.1)).Nodup) (hleft : steps.length + left = longestChain) :
    ∃ steps next result, records.Arrives start steps next result := by
  induction left generalizing steps next with
  | zero =>
    by_cases hpassed : next ∈ steps.map (·.1)
    · exact ⟨steps, next, _, h, hdistinct, by omega, .cycle hpassed⟩
    · exact ⟨steps, next, _, h, hdistinct, by omega, .tooDeep hpassed hleft⟩
  | succ left ih =>
    by_cases hpassed : next ∈ steps.map (·.1)
    · exact ⟨steps, next, _, h, hdistinct, by omega, .cycle hpassed⟩
    · have hlength : steps.length < longestChain := by omega
      cases hfound : records.find? next with
      | none => exact ⟨steps, next, _, h, hdistinct, by omega, .missing hpassed hlength hfound⟩
      | some txn =>
        cases hparent : txn.parent with
        | none =>
          obtain ⟨view, hchain, hreadOnly⟩ : ∃ view : View,
              view.chain = steps.map (·.2) ++ [txn] ∧ view.readOnly = false := by
            cases steps with
            | nil => exact ⟨⟨txn, [], false⟩, rfl, rfl⟩
            | cons step rest => exact ⟨⟨step.2, rest.map (·.2) ++ [txn], false⟩, rfl, rfl⟩
          exact ⟨steps, next, _, h, hdistinct, by omega,
            .root hpassed hlength hfound hparent hchain hreadOnly⟩
        | some parent =>
          refine ih (h.snoc hfound hparent) ?_ ?_
          · rw [List.map_append, List.map_singleton, List.nodup_append]
            refine ⟨hdistinct, List.nodup_cons.2 ⟨List.not_mem_nil, List.nodup_nil⟩, ?_⟩
            rintro other hother new hnew rfl
            obtain rfl : other = next := List.mem_singleton.1 hnew
            exact hpassed hother
          · rw [List.length_append, List.length_singleton]
            omega

theorem exists_arrives (records : FixedRecords) (start : TxnId) :
    ∃ steps next result, records.Arrives start steps next result :=
  Climbs.exists_arrives (.start start) List.nodup_nil (Nat.zero_add longestChain)

/-! ## Results of a climb -/

section

variable {σ : Type} [Supplier σ] (fits : σ → Prop) {s : σ}

/-- With distinct records a climb passes all of them, within its budget. -/
theorem Climbs.climb_ends {budget : Nat} {passed : List TxnId} {good : List Txn → Prop}
    {bad : TxnError → Prop}
    (hlookup : ∀ s, fits s → ∀ id, Ends (Supplier.lookup id) s
      (fun found s' => found = records.find? id ∧ fits s') fun _ _ => False)
    (hs : fits s) (h : records.Climbs id steps next) (hdistinct : (steps.map (·.1)).Nodup)
    (hfresh : ∀ step ∈ steps, step.1 ∉ passed)
    (hrest : ∀ s, fits s →
      Ends (View.climb start budget ((steps.map (·.1)).reverse ++ passed) next) s
        (fun above _ => good (steps.map (·.2) ++ above)) fun e _ => bad e) :
    Ends (View.climb start (budget + steps.length) passed id) s (fun chain _ => good chain)
      fun e _ => bad e := by
  induction h generalizing s passed good with
  | start id => exact hrest s hs
  | @parent id parent next txn steps hid hparent _ ih =>
    obtain ⟨hnew, hdistinct⟩ := List.nodup_cons.1 hdistinct
    have hnot : id ∉ passed := hfresh (id, txn) List.mem_cons_self
    rw [List.length_cons, ← Nat.add_assoc]
    unfold View.climb
    rw [if_neg hnot, ends_bind]
    refine (hlookup s hs id).mono ?_ fun _ _ h => h.elim
    rintro found s₁ ⟨rfl, hs₁⟩
    simp only [hid, hparent, ends_bind, ends_pure]
    refine ih hs₁ hdistinct ?_ fun s hs => ?_
    · intro step hstep hpassed
      rcases List.mem_cons.1 hpassed with heq | hpassed
      · exact hnew (heq ▸ List.mem_map_of_mem (f := (·.1)) hstep)
      · exact hfresh step (List.mem_cons_of_mem _ hstep) hpassed
    · simpa using hrest s hs

theorem Arrives.resolve_ends {result : Except TxnError View}
    (hlookup : ∀ s, fits s → ∀ id, Ends (Supplier.lookup id) s
      (fun found s' => found = records.find? id ∧ fits s') fun _ _ => False)
    (hs : fits s) (h : records.Arrives start steps next result) :
    Ends (View.resolve start) s (fun view _ => result = .ok view) fun e _ => result = .error e := by
  have hclimb : Ends (View.climb start longestChain [] start) s
      (fun chain _ => ∃ view, View.ofChain? chain = some view ∧ result = .ok view)
      fun e _ => result = .error e := by
    obtain ⟨budget, hbudget⟩ := Nat.exists_eq_add_of_le' h.short
    rw [hbudget]
    refine h.climbs.climb_ends fits hlookup hs h.distinct (fun _ _ => List.not_mem_nil)
      fun s hs => ?_
    unfold View.climb
    cases h.halts with
    | cycle hpassed =>
      rw [if_pos (by simpa using hpassed)]
      rfl
    | tooDeep hpassed hlength =>
      obtain rfl : budget = 0 := by omega
      rw [if_neg (by simpa using hpassed)]
      rfl
    | missing hpassed hlength hnone =>
      obtain ⟨left, rfl⟩ : ∃ left, budget = left + 1 := ⟨budget - 1, by omega⟩
      rw [if_neg (by simpa using hpassed)]
      simp only [ends_bind]
      refine (hlookup s hs next).mono ?_ fun _ _ h => h.elim
      rintro found s₁ ⟨rfl, -⟩
      simp only [hnone]
      rfl
    | root hpassed hlength hroot hparent hchain hreadOnly =>
      obtain ⟨left, rfl⟩ : ∃ left, budget = left + 1 := ⟨budget - 1, by omega⟩
      rw [if_neg (by simpa using hpassed)]
      simp only [ends_bind]
      refine (hlookup s hs next).mono ?_ fun _ _ h => h.elim
      rintro found s₁ ⟨rfl, -⟩
      simp only [hroot, hparent, ends_pure]
      exact ⟨_, hchain ▸ View.ofChain?_chain hreadOnly, rfl⟩
  rw [View.resolve, ends_bind]
  refine hclimb.mono ?_ fun _ _ h => h
  rintro chain s₁ ⟨view, hview, rfl⟩
  simp only [hview, ends_pure]

end

/-- Resolving a transaction in arbitrary records, including missing parents, cycles and chains that
are too long, gives the result at which its climb arrives, after at most `longestChain` look-ups. -/
theorem resolve_eq_iff_arrives (records : FixedRecords) (start : TxnId) :
    (∀ result, TxnM.answer (View.resolve start) records = result ↔
      ∃ steps next, records.Arrives start steps next result) ∧
    TxnM.answer (View.resolve start) records.unpolled =
      TxnM.answer (View.resolve start) records ∧
    Leaves (View.resolve start) records.unpolled fun s => s.polled.length ≤ longestChain := by
  obtain ⟨steps, next, result, harrives⟩ := records.exists_arrives start
  have halone {steps next result} (h : records.Arrives start steps next result) :
      TxnM.answer (View.resolve start) records = result :=
    answer_of_ends (h.resolve_ends (· = records)
      (fun s hs id => hs ▸ ⟨rfl, rfl⟩) rfl)
  have hpolled : TxnM.answer (View.resolve start) records.unpolled = result :=
    answer_of_ends (harrives.resolve_ends (·.supplier = records)
      (fun s hs id => hs ▸ ⟨rfl, rfl⟩) rfl)
  refine ⟨fun result' => ⟨?_, ?_⟩, hpolled.trans (halone harrives).symm, ?_⟩
  · rintro rfl
    exact ⟨steps, next, (halone harrives).symm ▸ harrives⟩
  · rintro ⟨steps, next, h⟩
    exact halone h
  · simpa [unpolled] using Polled.resolve_length (s := records.unpolled) start

end FixedRecords

end Mvcc

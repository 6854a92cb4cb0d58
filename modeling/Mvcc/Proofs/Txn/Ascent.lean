import Mvcc.Proofs.Txn.Lineage
import Mvcc.Proofs.Txn.Progress

/-!
# Resolution over time

The parent of a record never changes. A transaction that resolved once therefore resolves from then
on, while the storage is available, with a chain of the same transactions.
-/

namespace Mvcc

namespace Register

variable {τ : Type} {r r' : Register τ} {id : TxnId} {height : Nat}

/-- The chain from `id` to its root has `height` records, both included. -/
inductive Ascends (r : Register τ) : TxnId → Nat → Prop where
  | root {id : TxnId} {txn : Txn} (h : r.records id = some txn) (hparent : txn.parent = none) :
    Ascends r id 1
  | child {id parent : TxnId} {txn : Txn} {height : Nat} (h : r.records id = some txn)
    (hparent : txn.parent = some parent) (habove : Ascends r parent height) :
    Ascends r id (height + 1)

namespace Ascends

theorem unique {height' : Nat} (h : r.Ascends id height) (h' : r.Ascends id height') :
    height = height' := by
  induction h generalizing height' with
  | root hrecord hparent =>
    cases h' with
    | root => rfl
    | child hrecord' hparent' =>
      cases hrecord.symm.trans hrecord'
      cases hparent.symm.trans hparent'
  | child hrecord hparent _ ih =>
    cases h' with
    | root hrecord' hparent' =>
      cases hrecord.symm.trans hrecord'
      cases hparent.symm.trans hparent'
    | child hrecord' hparent' habove' =>
      cases hrecord.symm.trans hrecord'
      cases hparent.symm.trans hparent'
      rw [ih habove']

end Ascends

/-- The chain of a transaction is present and within the bound. -/
def Rooted (r : Register τ) (id : TxnId) : Prop :=
  ∃ height, height ≤ longestChain ∧ r.Ascends id height

section

variable [TimestampSource τ] [AscendingSource τ] {under : Option TxnId → Prop}

omit [TimestampSource τ] [AscendingSource τ] in
theorem Ascends.of_endures (h : r.Ascends id height) (hendures : r.Endures r') :
    r'.Ascends id height := by
  induction h with
  | root hrecord hparent =>
    obtain ⟨txn', hrecord', horigin⟩ := hendures _ _ hrecord
    exact .root hrecord' ((Txn.eq_of_origin horigin).2.2.trans hparent)
  | child hrecord hparent _ ih =>
    obtain ⟨txn', hrecord', horigin⟩ := hendures _ _ hrecord
    exact .child hrecord' ((Txn.eq_of_origin horigin).2.2.trans hparent) ih

theorem Rooted.of_advances (h : r.Rooted id) (hadvances : r.Advances under r') : r'.Rooted id := by
  obtain ⟨height, hle, hascends⟩ := h
  exact ⟨height, hle, hascends.of_endures hadvances.endures⟩

theorem Lineage.ascends (hsound : r.Sound) {chain : List Txn} (h : r.Lineage id chain) :
    r.Ascends id chain.length := by
  induction h with
  | root hanswer hparent =>
    obtain ⟨stored, hstored, horigin, -⟩ := hsound.record_of_answer hanswer
    exact .root hstored ((Txn.eq_of_origin horigin).2.2.symm.trans hparent)
  | child hanswer hparent _ ih =>
    obtain ⟨stored, hstored, horigin, -⟩ := hsound.record_of_answer hanswer
    exact .child hstored ((Txn.eq_of_origin horigin).2.2.symm.trans hparent) ih

theorem Lineage.id_eq_of_sound (hsound : r.Sound) {view : View}
    (h : r.Lineage id view.chain) : view.id = id := by
  obtain ⟨stored, hstored, horigin, -⟩ := hsound.record_of_answer h.head.1
  exact (Txn.eq_of_origin horigin).1.trans (hsound.known hstored).1

end

end Register

namespace Ledger

open TxnM

variable {τ : Type} [TimestampSource τ] [AscendingSource τ] {s s' : Ledger τ} {id : TxnId}

theorem find_parent (hsound : s.register.Sound) (hserving : s.register.serving = true)
    (hlooked : s.Looked s') {txn : Txn} (hrecord : s.register.records id = some txn) :
    Ends (find id) s'
      (fun found s'' => s.Looked s'' ∧ ∃ answer, found = some answer ∧ answer.parent = txn.parent)
      fun _ _ => False := by
  refine (find_ends hlooked.1).mono ?_ ?_
  · rintro found s'' ⟨hlooked', hfound⟩
    refine ⟨hlooked.trans hlooked', ?_⟩
    cases found with
    | none =>
      have hrecord' : s'.register.records id = some txn := by
        rw [hlooked.2.records]
        exact hrecord
      cases hrecord'.symm.trans hfound.2
    | some answer =>
      obtain ⟨stored, hstored, horigin, -⟩ := hsound.record_of_answer (hlooked.2.answers hfound)
      cases hrecord.symm.trans hstored
      exact ⟨answer, rfl, (Txn.eq_of_origin horigin).2.2⟩
  · rintro e s'' ⟨-, hstopped⟩
    rw [hlooked.serving, hserving] at hstopped
    cases hstopped

/-- A chain whose records are present resolves exactly if it is within the budget, and is too deep
otherwise. Heights decrease along it, so there is no cycle. -/
theorem climb_of_ascends (hsound : s.register.Sound) (hserving : s.register.serving = true)
    {height : Nat} (h : s.register.Ascends id height) (start : TxnId) (budget : Nat)
    {passed : List TxnId}
    (hpassed : ∀ other ∈ passed, ∃ higher, height < higher ∧ s.register.Ascends other higher)
    (hlooked : s.Looked s') :
    Ends (View.climb start budget passed id) s' (fun chain _ => chain ≠ [] ∧ height ≤ budget)
      fun e _ => e = .malformed (.tooDeep start) ∧ budget < height := by
  have hnew : id ∉ passed := by
    intro hmem
    obtain ⟨higher, hlt, hhigher⟩ := hpassed id hmem
    exact Nat.ne_of_lt hlt (h.unique hhigher)
  induction h generalizing s' budget passed with
  | @root id txn hrecord hparent =>
    unfold View.climb
    rw [if_neg hnew]
    cases budget with
    | zero => exact ⟨rfl, Nat.zero_lt_one⟩
    | succ budget =>
      rw [ends_bind]
      refine (find_parent hsound hserving hlooked hrecord).mono ?_ (fun _ _ h => h.elim)
      rintro _ s₁ ⟨-, answer, rfl, hanswer⟩
      simp [hanswer, hparent]
  | @child id parent txn height hrecord hparent habove ih =>
    have hself : s.register.Ascends id (height + 1) := .child hrecord hparent habove
    unfold View.climb
    rw [if_neg hnew]
    cases budget with
    | zero => exact ⟨rfl, Nat.succ_pos height⟩
    | succ budget =>
      rw [ends_bind]
      refine (find_parent hsound hserving hlooked hrecord).mono ?_ (fun _ _ h => h.elim)
      rintro _ s₁ ⟨hlooked₁, answer, rfl, hanswer⟩
      simp only [hanswer, hparent, ends_bind]
      have hbelow : ∀ other ∈ id :: passed, ∃ higher, height < higher ∧
          s.register.Ascends other higher := by
        intro other hother
        rcases List.mem_cons.1 hother with rfl | hother
        · exact ⟨height + 1, Nat.lt_succ_self height, hself⟩
        · obtain ⟨higher, hlt, hhigher⟩ := hpassed other hother
          exact ⟨higher, Nat.lt_of_succ_lt hlt, hhigher⟩
      have hnew' : parent ∉ id :: passed := by
        intro hmem
        obtain ⟨higher, hlt, hhigher⟩ := hbelow parent hmem
        exact Nat.ne_of_lt hlt (habove.unique hhigher)
      refine (ih budget hbelow hlooked₁ hnew').mono ?_ ?_
      · exact fun _ _ h => ⟨List.cons_ne_nil _ _, Nat.succ_le_succ h.2⟩
      · exact fun _ _ h => ⟨h.1, Nat.succ_lt_succ h.2⟩

theorem resolve_of_ascends (hsound : s.register.Sound) (hserving : s.register.serving = true)
    {height : Nat} (h : s.register.Ascends id height) (hlooked : s.Looked s') :
    Ends (View.resolve id) s' (fun _ _ => height ≤ longestChain)
      fun e _ => e = .malformed (.tooDeep id) ∧ longestChain < height := by
  rw [View.resolve, ends_bind]
  refine (climb_of_ascends hsound hserving h id longestChain (List.forall_mem_nil _)
    hlooked).mono ?_ (fun _ _ h => h)
  intro chain s₁ hchain
  cases chain with
  | nil => exact absurd rfl hchain.1
  | cons record ancestors => exact hchain.2

theorem resolve_of_rooted (hsound : s.register.Sound) (hserving : s.register.serving = true)
    (h : s.register.Rooted id) (hlooked : s.Looked s') :
    Ends (View.resolve id) s'
      (fun view s'' => s.register.Lineage id view.chain ∧ s.Looked s'') fun _ _ => False := by
  obtain ⟨height, hle, hascends⟩ := h
  have hresolve := resolve_of_ascends hsound hserving hascends hlooked
  refine ((resolve_ends hlooked.1).and hresolve).mono ?_ ?_
  · rintro view s'' ⟨⟨hlooked', hchain⟩, -⟩
    exact ⟨hchain.of_remembers hlooked.2, hlooked.trans hlooked'⟩
  · intro e s'' h
    exact Nat.not_lt_of_le hle h.2.2

end Ledger

end Mvcc

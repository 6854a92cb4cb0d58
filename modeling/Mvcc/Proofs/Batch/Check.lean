import Mvcc.Batch.Check
import Mvcc.Proofs.Cell.Contents
import Mvcc.Proofs.Txn.Ascent

/-!
# Successful checks

A batch passes its check only if every mutation does, and a mutation passes only if every earlier
writer of its row was excluded, by its stamp or by a look-up. A check does not change the ledger's
records.
-/

namespace Mvcc

namespace Register

variable {τ : Type} {r r' : Register τ} {txn : View} {row : Bytes}

/-- An earlier writer does not conflict, by its stamp or by its view. -/
def Yields (r : Register τ) (txn : View) (entry : TxnId × Option Stamp) : Prop :=
  txn.passesOver entry.1 entry.2 = true ∨
    ∃ other : View, r.Lineage entry.1 other.chain ∧ other.chain.length ≤ longestChain ∧
      txn.rivalry other = .none

def Free (r : Register τ) (rules : BatchRules) (txn : View) (row : Bytes) : Prop :=
  ∃ history, rules.history row = .ok history ∧ ∀ entry ∈ history, r.Yields txn entry

theorem Yields.of_remembers (h : r.Remembers r') {entry : TxnId × Option Stamp}
    (hyields : r'.Yields txn entry) : r.Yields txn entry := by
  rcases hyields with hpasses | ⟨other, hother, hlength, hrivalry⟩
  · exact .inl hpasses
  · exact .inr ⟨other, hother.of_remembers h, hlength, hrivalry⟩

theorem Free.of_remembers (h : r.Remembers r') {rules : BatchRules}
    (hfree : r'.Free rules txn row) : r.Free rules txn row := by
  obtain ⟨history, hhistory, hyields⟩ := hfree
  exact ⟨history, hhistory, fun entry hentry => (hyields entry hentry).of_remembers h⟩

theorem Yields.rooted [TimestampSource τ] [AscendingSource τ] (hsound : r.Sound) {writer : TxnId}
    (hyields : r.Yields txn (writer, none)) (hne : writer ≠ txn.id) : r.Rooted writer := by
  rcases hyields with hpasses | ⟨other, hother, hlength, -⟩
  · simp [View.passesOver, hne] at hpasses
  · exact ⟨_, hlength, hother.ascends hsound⟩

end Register

namespace Partition

variable {p : Partition} {row : Bytes} {history : WriteHistory}

theorem versions_of_history (h : p.history row = .ok history) :
    ∃ versions, p.versions row = .ok versions ∧
      history = versions.map fun version => (version.writer, version.stamp) := by
  cases hfound : p.versions row with
  | error e => simp [Partition.history, hfound, Except.map] at h
  | ok versions =>
    simp only [Partition.history, hfound, Except.map, Except.ok.injEq] at h
    exact ⟨versions, rfl, h.symm⟩

theorem mem_history (h : p.history row = .ok history) {writer : TxnId}
    (hvalue : (p.value? row writer).isSome) : (writer, p.stamp? row writer) ∈ history := by
  obtain ⟨versions, hfound, rfl⟩ := versions_of_history h
  obtain ⟨-, hmem⟩ := versions_spec hfound
  obtain ⟨value, hvalue⟩ := Option.isSome_iff_exists.1 hvalue
  have hversion : p.version? row writer = some ⟨writer, value, p.stamp? row writer⟩ :=
    version?_eq_some_iff.2 ⟨rfl, hvalue, rfl⟩
  exact List.mem_map.2 ⟨_, (hmem ⟨writer, value, p.stamp? row writer⟩).2 hversion, rfl⟩

end Partition

theorem Constraint.firstViolated_ne_success {m : Mutation} {txn : View} {earlier : List Bytes}
    {constraints : List Constraint} {name : ConstraintName} {verdict : Verdict}
    (h : firstViolated m txn earlier constraints = some (name, verdict)) : verdict ≠ .success := by
  induction constraints with
  | nil => cases h
  | cons constraint rest ih =>
    unfold firstViolated at h
    by_cases hjudge : constraint.judge m txn earlier = .success
    · exact ih (by simpa only [hjudge, if_true] using h)
    · rw [if_neg hjudge] at h
      cases h
      exact hjudge

/-! ## States of a check -/

section

open TxnM

variable {σ : Type} [Supplier σ] {fits : σ → Prop} {s : σ}

theorem detectAfter_keeps (hresolve : ∀ s, fits s → ∀ id, Leaves (View.resolve id) s fits)
    (h : fits s) (txn : View) (additive : Option TxnId) (history : WriteHistory) :
    Leaves (detectAfter txn additive history) s fits := by
  induction history generalizing s additive with
  | nil =>
    unfold detectAfter
    cases additive <;> exact h
  | cons entry older ih =>
    unfold detectAfter
    split
    · exact ih h additive
    · refine ends_bind.2 ((hresolve s h entry.1).mono ?_ fun _ _ h₁ => h₁)
      intro other s₁ h₁
      cases hrivalry : txn.rivalry other with
      | none => exact ih h₁ additive
      | additive => exact ih h₁ (additive <|> some entry.1)
      | conflict => exact h₁

theorem judgeMutations_keeps (hresolve : ∀ s, fits s → ∀ id, Leaves (View.resolve id) s fits)
    (h : fits s) (rules : BatchRules) (txn : View) (earlier : List Bytes)
    (batch : List Mutation) : fits (judgeMutations rules txn earlier batch s).2 := by
  induction batch generalizing s earlier with
  | nil => exact h
  | cons m rest ih =>
    have hjudge : Leaves (judgeMutation rules txn earlier m) s fits := by
      unfold judgeMutation
      cases Constraint.firstViolated m txn earlier rules.constraints with
      | some violation => exact h
      | none =>
        simp only [ends_bind, ends_ofExcept]
        cases rules.history m.row with
        | error e => exact h
        | ok history => exact detectAfter_keeps hresolve h txn none history
    unfold judgeMutations
    cases hjudged : judgeMutation rules txn earlier m s with
    | error e s₁ => exact hjudge.of_error hjudged
    | ok row s₁ => exact ih (hjudge.of_ok hjudged) (m.row :: earlier)

/-- A check preserves the supplier invariant of look-ups. -/
theorem checkBatch_keeps (hresolve : ∀ s, fits s → ∀ id, Leaves (View.resolve id) s fits)
    (h : fits s) (rules : BatchRules) (txn : View) (batch : List Mutation) :
    fits (checkBatch rules txn batch s).2 := by
  unfold checkBatch
  cases txn.ensureWritable with
  | error e => exact h
  | ok _ => exact judgeMutations_keeps hresolve h rules txn [] batch

end

namespace Ledger

open TxnM

variable {τ : Type} {s : Ledger τ}

/-- A comparison with earlier writers succeeds only if none of them conflicts and no conflict was
found before. -/
theorem detectAfter_ends (hs : s.Legible) (txn : View) (additive : Option TxnId)
    (history : WriteHistory) :
    Ends (detectAfter txn additive history) s
      (fun found s' => s.Looked s' ∧ (found.1 = .success →
        additive = none ∧ ∀ entry ∈ history, s.register.Yields txn entry))
      fun _ s' => s.Looked s' := by
  induction history generalizing s additive with
  | nil =>
    unfold detectAfter
    cases additive with
    | none => exact ⟨.refl hs, fun _ => ⟨rfl, by simp⟩⟩
    | some writer => exact ⟨.refl hs, nofun⟩
  | cons entry older ih =>
    obtain ⟨writer, stamp⟩ := entry
    unfold detectAfter
    split
    · rename_i hpasses
      refine (ih hs additive).mono ?_ (fun _ _ h => h)
      rintro found s' ⟨hlooked, hsuccess⟩
      refine ⟨hlooked, fun hfound => ⟨(hsuccess hfound).1, ?_⟩⟩
      exact List.forall_mem_cons.2 ⟨.inl hpasses, (hsuccess hfound).2⟩
    · rw [ends_bind]
      refine ((resolve_ends hs).and (Supplier.resolve_length writer)).mono ?_ (fun _ _ h => h.1)
      rintro other s₁ ⟨⟨hlooked, hother⟩, hlength⟩
      cases hrivalry : txn.rivalry other with
      | none =>
        refine (ih hlooked.1 additive).mono ?_ (fun _ _ h => hlooked.trans h)
        rintro found s' ⟨hlooked', hsuccess⟩
        refine ⟨hlooked.trans hlooked', fun hfound => ⟨(hsuccess hfound).1, ?_⟩⟩
        refine List.forall_mem_cons.2 ⟨.inr ⟨other, hother, hlength, hrivalry⟩, ?_⟩
        intro entry hentry
        exact ((hsuccess hfound).2 entry hentry).of_remembers hlooked.2
      | additive =>
        refine (ih hlooked.1 (additive <|> some writer)).mono ?_ (fun _ _ h => hlooked.trans h)
        rintro found s' ⟨hlooked', hsuccess⟩
        refine ⟨hlooked.trans hlooked', fun hfound => ?_⟩
        have hnone := (hsuccess hfound).1
        cases additive <;> cases hnone
      | conflict => exact ⟨hlooked, nofun⟩

theorem judgeMutation_ends (hs : s.Legible) (rules : BatchRules) (txn : View)
    (earlier : List Bytes) (m : Mutation) :
    Ends (judgeMutation rules txn earlier m) s
      (fun row s' => s.Looked s' ∧ (row.verdict = .success → s.register.Free rules txn m.row))
      fun _ s' => s.Looked s' := by
  unfold judgeMutation
  cases hviolated : Constraint.firstViolated m txn earlier rules.constraints with
  | some violation =>
    obtain ⟨name, verdict⟩ := violation
    exact ⟨.refl hs, fun hsuccess =>
      absurd hsuccess (Constraint.firstViolated_ne_success hviolated)⟩
  | none =>
    simp only [ends_bind, ends_ofExcept]
    cases hhistory : rules.history m.row with
    | error e => exact .refl hs
    | ok history =>
      refine (detectAfter_ends hs txn none history).mono ?_ (fun _ _ h => h)
      rintro ⟨verdict, other⟩ s' ⟨hlooked, hsuccess⟩
      exact ⟨hlooked, fun hverdict => ⟨history, hhistory, (hsuccess hverdict).2⟩⟩

theorem judgeMutations_looked (hs : s.Legible) (rules : BatchRules) (txn : View)
    (earlier : List Bytes) (batch : List Mutation) :
    s.Looked (judgeMutations rules txn earlier batch s).2 ∧
      ((judgeMutations rules txn earlier batch s).1.failure = none →
        (∀ row ∈ (judgeMutations rules txn earlier batch s).1.rows, row.verdict = .success) →
          ∀ m ∈ batch, s.register.Free rules txn m.row) := by
  induction batch generalizing s earlier with
  | nil => exact ⟨.refl hs, fun _ _ m hm => nomatch hm⟩
  | cons m rest ih =>
    have hends := judgeMutation_ends hs rules txn earlier m
    unfold judgeMutations
    cases hjudged : judgeMutation rules txn earlier m s with
    | error e s₁ => exact ⟨hends.of_error hjudged, nofun⟩
    | ok row s₁ =>
      obtain ⟨hlooked, hsuccess⟩ := hends.of_ok hjudged
      obtain ⟨hlooked', hrest⟩ := ih hlooked.1 (m.row :: earlier)
      refine ⟨hlooked.trans hlooked', fun hfailure hrows => ?_⟩
      obtain ⟨hrow, hrows⟩ := List.forall_mem_cons.1 hrows
      refine List.forall_mem_cons.2 ⟨hsuccess hrow, fun other hother => ?_⟩
      exact (hrest hfailure hrows other hother).of_remembers hlooked.2

/-- A batch that passes belongs to an active transaction, and all its rows are free. -/
theorem checkBatch_looked (hs : s.Legible) (rules : BatchRules) (txn : View)
    (batch : List Mutation) :
    s.Looked (checkBatch rules txn batch s).2 ∧
      ∀ id outcome, (checkBatch rules txn batch s).1.outcome id = .ok outcome →
        outcome.isSuccess = true →
          txn.effectiveState = .active ∧ ∀ m ∈ batch, s.register.Free rules txn m.row := by
  have hjudged := judgeMutations_looked hs rules txn [] batch
  unfold checkBatch
  cases hwritable : txn.ensureWritable with
  | error e => exact ⟨.refl hs, nofun⟩
  | ok _ =>
    refine ⟨hjudged.1, fun id outcome houtcome hsuccess => ⟨?_, ?_⟩⟩
    · unfold View.ensureWritable at hwritable
      split at hwritable
      · cases hwritable
      · split at hwritable
        · assumption
        · cases hwritable
    · simp only [BatchTrace.outcome] at houtcome
      cases hfailure : (judgeMutations rules txn [] batch s).1.failure with
      | some e => simp [hfailure] at houtcome
      | none =>
        simp only [hfailure, Except.ok.injEq] at houtcome
        subst houtcome
        exact hjudged.2 hfailure fun row hrow => by
          simpa using List.all_eq_true.1 hsuccess row hrow

end Ledger

end Mvcc

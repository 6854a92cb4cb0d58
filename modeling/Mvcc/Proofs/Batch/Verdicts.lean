import Mvcc.Proofs.Batch.Conflict

/-!
# Verdicts of a check

A check judges every mutation of a batch, also after a refusal. A mutation that inserts a row
already touched by the batch is refused by the first constraint, independently of the earlier
outcome. Any other mutation is compared with the earlier writers of its row. The error of the batch
is that of the first refused mutation.
-/

namespace Mvcc

open TxnM

/-! ## Constraints -/

/-- A mutation would add a row that another has touched before. -/
def Mutation.Repeats (m : Mutation) (before : List Mutation) : Prop :=
  (m.kind = .insert ∨ m.kind = .upsert) ∧ ∃ other ∈ before, other.row = m.row

def Mutation.refusal (m : Mutation) : Verdict :=
  if m.kind = .insert then .failure else .additiveWriteConflict

theorem Mutation.refusal_ne_success (m : Mutation) : m.refusal ≠ .success := by
  unfold refusal
  split <;> decide

namespace Constraint

variable {m : Mutation} {before : List Mutation}

theorem judge_unique_of_repeats (name : ConstraintName) (txn : View) (h : m.Repeats before) :
    (unique name).judge m txn (before.map (·.row)).reverse = m.refusal := by
  obtain ⟨hkind, other, hother, hrow⟩ := h
  have hmem : m.row ∈ (before.map (·.row)).reverse := by
    simpa using ⟨other, hother, hrow⟩
  rcases hkind with hkind | hkind <;> simp [unique, Mutation.refusal, hkind, hmem]

theorem judge_unique_of_not_repeats (name : ConstraintName) (txn : View)
    (h : ¬ m.Repeats before) :
    (unique name).judge m txn (before.map (·.row)).reverse = .success := by
  have hmem : (m.kind = .insert ∨ m.kind = .upsert) →
      m.row ∉ (before.map (·.row)).reverse := by
    intro hkind hmem
    exact h ⟨hkind, by simpa using hmem⟩
  cases hkind : m.kind <;> simp [unique, hkind] <;> simpa using hmem (by simp [hkind])

/-- The first of any unique constraints refuses a mutation that repeats another. -/
theorem firstViolated_of_repeats {name : ConstraintName} {rest : List ConstraintName} (txn : View)
    (h : m.Repeats before) :
    firstViolated m txn (before.map (·.row)).reverse ((name :: rest).map unique) =
      some (name, m.refusal) := by
  rw [List.map_cons, firstViolated, judge_unique_of_repeats name txn h]
  exact if_neg m.refusal_ne_success

theorem firstViolated_of_not_repeats (names : List ConstraintName) (txn : View)
    (h : ¬ m.Repeats before) :
    firstViolated m txn (before.map (·.row)).reverse (names.map unique) = none := by
  induction names with
  | nil => rfl
  | cons name rest ih =>
    rw [List.map_cons, firstViolated, judge_unique_of_not_repeats name txn h]
    exact ih

end Constraint

section

variable {σ : Type} [Supplier σ] {known : TxnId → Except TxnError (Option Txn)} {fits : σ → Prop}
  {s s' : σ} {rules : BatchRules} {names : List ConstraintName} {txn : View}
  {before batch : List Mutation} {m : Mutation} {history : WriteHistory}

/-! ## Comparisons -/

/-- The writers resolve in every state that satisfies the invariant, and look-ups preserve it. -/
def WriteHistory.Answers (fits : σ → Prop) (history : WriteHistory) : Prop :=
  ∀ entry ∈ history, ∀ s, fits s →
    Ends (View.resolve entry.1) s (fun _ s' => fits s') fun _ _ => False

theorem WriteHistory.answers_of_finds {s₀ : σ} (hs₀ : Supplier.Steady known s₀)
    (h : ∀ entry ∈ history, ∃ view, Supplier.Finds s₀ entry.1 view) :
    history.Answers (σ := σ) (Supplier.Steady known) := by
  intro entry hentry s hs
  obtain ⟨view, hview⟩ := h entry hentry
  exact (hview.again hs₀ hs).mono (fun _ _ h => h.2) fun _ _ h => h

/-- A comparison ends with a verdict and the rival it is due to. It fails only if a look-up does. -/
theorem detectAfter_verdict {lost : Prop}
    (h : ∀ entry ∈ history, ∀ s, fits s →
      Ends (View.resolve entry.1) s (fun _ s' => fits s') fun _ _ => lost)
    (hs : fits s) (txn : View) (additive : Option TxnId) :
    Ends (detectAfter txn additive history) s
      (fun found s' => fits s' ∧ (found = (.success, none) ∨ ∃ writer,
        found = (.writeConflict, some writer) ∨ found = (.additiveWriteConflict, some writer)))
      fun _ _ => lost := by
  induction history generalizing s additive with
  | nil =>
    cases additive with
    | none => exact ⟨hs, .inl rfl⟩
    | some writer => exact ⟨hs, .inr ⟨writer, .inr rfl⟩⟩
  | cons entry older ih =>
    obtain ⟨hentry, holder⟩ := List.forall_mem_cons.1 h
    unfold detectAfter
    split
    · exact ih holder hs additive
    · refine ends_bind.2 ((hentry s hs).mono ?_ fun _ _ h => h)
      intro other s₁ hs₁
      cases hrivalry : txn.rivalry other with
      | none => exact ih holder hs₁ additive
      | additive => exact ih holder hs₁ (additive <|> some entry.1)
      | conflict => exact ⟨hs₁, .inr ⟨entry.1, .inl rfl⟩⟩

theorem determined_detectAfter (txn : View) (additive : Option TxnId) (history : WriteHistory) :
    Supplier.Determined known (detectAfter txn additive history : TxnM σ _) := by
  induction history generalizing additive with
  | nil => cases additive <;> exact Supplier.determined_pure _
  | cons entry older ih =>
    unfold detectAfter
    split
    · exact ih additive
    · refine (Supplier.determined_resolve entry.1).bind fun other => ?_
      cases txn.rivalry other with
      | none => exact ih additive
      | additive => exact ih (additive <|> some entry.1)
      | conflict => exact Supplier.determined_pure _

/-! ## Single mutations -/

/-- The outcome of a mutation after `before`, judged in this supplier state: refused by the first
constraint if it repeats an insertion, otherwise compared with the earlier writers of its row. -/
structure RowOutcome.Justified (names : List ConstraintName) (rules : BatchRules) (txn : View)
    (before : List Mutation) (m : Mutation) (s : σ) (outcome : RowOutcome) : Prop where
  row : outcome.row = m.row
  repeated (hrepeats : m.Repeats before) {name : ConstraintName} {rest : List ConstraintName}
    (hnames : names = name :: rest) :
    outcome.constraint = some name ∧ outcome.verdict = m.refusal ∧ outcome.other = none
  compared (h : names = [] ∨ ¬ m.Repeats before) :
    outcome.constraint = none ∧ ∃ history s', rules.history m.row = .ok history ∧
      detectConflict txn history s = .ok (outcome.verdict, outcome.other) s'

theorem judgeMutation_justified (txn : View) (before : List Mutation)
    (hrules : rules.constraints = names.map .unique)
    (hhistory : rules.history m.row = .ok history) (hanswers : history.Answers fits)
    (hs : fits s) :
    Ends (judgeMutation rules txn (before.map (·.row)).reverse m) s
      (fun outcome s' => fits s' ∧ outcome.Justified names rules txn before m s)
      fun _ _ => False := by
  unfold judgeMutation
  rw [hrules]
  by_cases hfree : names = [] ∨ ¬ m.Repeats before
  · have hnone : Constraint.firstViolated m txn (before.map (·.row)).reverse
        (names.map .unique) = none := by
      rcases hfree with rfl | hrepeats
      · rfl
      · exact Constraint.firstViolated_of_not_repeats names txn hrepeats
    simp only [hnone, ends_bind, ends_ofExcept, hhistory, ends_pure]
    refine ((detectAfter_verdict hanswers hs txn none).and
      (.of_forall (fun found s' hfound => hfound) fun _ _ _ => trivial)).mono ?_ fun _ _ h => h.1
    rintro ⟨verdict, other⟩ s' ⟨⟨hs', -⟩, hfound⟩
    refine ⟨hs', rfl, fun hagain _ _ hnames => ?_, fun _ => ⟨rfl, history, s', hhistory, hfound⟩⟩
    rcases hfree with hnone | hrepeats
    · cases hnone.symm.trans hnames
    · exact absurd hagain hrepeats
  · obtain ⟨hnames, hrepeats⟩ := not_or.1 hfree
    obtain ⟨name, rest, rfl⟩ := List.exists_cons_of_ne_nil hnames
    simp only [Constraint.firstViolated_of_repeats txn (not_not.1 hrepeats), ends_pure]
    refine ⟨hs, rfl, fun _ _ _ hsame => ?_, fun hagain => absurd hagain hfree⟩
    cases hsame
    exact ⟨rfl, rfl, rfl⟩

/-! ## Whole batches -/

/-- The rows of a batch have histories whose writers resolve in every state satisfying the
invariant. -/
def BatchRules.Answers (rules : BatchRules) (fits : σ → Prop) (batch : List Mutation) : Prop :=
  ∀ m ∈ batch, ∃ history, rules.history m.row = .ok history ∧ history.Answers fits

/-- Every mutation is judged, in the supplier state that the mutations before it have left. -/
theorem judgeMutations_justified (txn : View) (before : List Mutation)
    (hrules : rules.constraints = names.map .unique) (hanswers : rules.Answers fits batch)
    (hs : fits s) :
    let judged := judgeMutations rules txn (before.map (·.row)).reverse batch s
    judged.1.failure = none ∧ judged.1.rows.length = batch.length ∧
      ∀ (i : Nat) (m : Mutation), batch[i]? = some m →
        ∃ outcome : RowOutcome, judged.1.rows[i]? = some outcome ∧
        outcome.Justified names rules txn (before ++ batch.take i) m
          (judgeMutations rules txn (before.map (·.row)).reverse (batch.take i) s).2 := by
  induction batch generalizing before s with
  | nil => exact ⟨rfl, rfl, nofun⟩
  | cons m rest ih =>
    obtain ⟨⟨history, hhistory, hwriters⟩, hrest⟩ := List.forall_mem_cons.1 hanswers
    obtain ⟨outcome, s₁, hjudged, hs₁, hjustified⟩ :=
      (judgeMutation_justified txn before hrules hhistory hwriters hs).exists_ok
    have hbefore : m.row :: (before.map (·.row)).reverse =
        ((before ++ [m]).map (·.row)).reverse := by simp
    have hstep (later : List Mutation) :
        judgeMutations rules txn (before.map (·.row)).reverse (m :: later) s =
          let judged := judgeMutations rules txn ((before ++ [m]).map (·.row)).reverse later s₁
          (judged.1.after outcome, judged.2) := by
      rw [judgeMutations, hjudged, ← hbefore]
    obtain ⟨hfailure, hlength, hrows⟩ := ih (before ++ [m]) hrest hs₁
    simp only [hstep]
    refine ⟨hfailure, by simpa [BatchTrace.after] using hlength, fun i other hother => ?_⟩
    cases i with
    | zero =>
      cases hother
      exact ⟨outcome, rfl, by simpa [judgeMutations] using hjustified⟩
    | succ i =>
      obtain ⟨found, hfound, hjustified'⟩ := hrows i other hother
      refine ⟨found, hfound, ?_⟩
      rw [List.take_succ_cons, hstep]
      simpa using hjustified'

/-! ## Reports -/

/-- The error of a refused mutation. It names the conflicting writer or the constraint, or the
transaction itself for an additive conflict under a constraint. -/
inductive RowOutcome.Amounts (txn : TxnId) (outcome : RowOutcome) : TxnError → Prop where
  | conflict {writer : TxnId} (h : outcome.verdict = .writeConflict)
    (hother : outcome.other = some writer) : Amounts txn outcome (.writeConflict txn writer)
  | additive {writer : TxnId} (h : outcome.verdict = .additiveWriteConflict)
    (hother : outcome.other = some writer) :
    Amounts txn outcome (.additiveWriteConflict txn writer)
  | repeated {name : ConstraintName} (h : outcome.verdict = .additiveWriteConflict)
    (hconstraint : outcome.constraint = some name) :
    Amounts txn outcome (.additiveWriteConflict txn txn)
  | violated {name : ConstraintName} (h : outcome.verdict = .failure)
    (hconstraint : outcome.constraint = some name) :
    Amounts txn outcome (.constraintViolation txn name.text)

/-- The error of a batch is that of its first refused mutation. -/
def BatchOutcome.Reports (batch : BatchOutcome) : Option TxnError → Prop
  | none => ∀ outcome ∈ batch.rows, outcome.verdict = .success
  | some e => ∃ (i : Nat) (outcome : RowOutcome), batch.rows[i]? = some outcome ∧
    outcome.verdict ≠ .success ∧ outcome.Amounts batch.txn e ∧
    ∀ j < i, ∀ earlier, batch.rows[j]? = some earlier → earlier.verdict = .success

theorem RowOutcome.Justified.amounts {outcome : RowOutcome}
    (h : outcome.Justified names rules txn before m s) (hrefused : outcome.verdict ≠ .success)
    (id : TxnId) : outcome.Amounts id (BatchOutcome.errorOf id outcome) := by
  by_cases hfree : names = [] ∨ ¬ m.Repeats before
  · obtain ⟨-, history, s', -, hdetect⟩ := h.compared hfree
    have hany : ∀ entry ∈ history, ∀ s : σ, True →
        Ends (View.resolve entry.1) s (fun _ _ => True) fun _ _ => True :=
      fun _ _ _ _ => .of_forall (fun _ _ _ => trivial) fun _ _ _ => trivial
    obtain ⟨-, hfound⟩ := (detectAfter_verdict hany trivial txn none).of_ok hdetect
    rcases hfound with hsuccess | ⟨writer, hconflict | hadditive⟩
    · exact absurd (Prod.mk.inj hsuccess).1 hrefused
    · obtain ⟨hverdict, hother⟩ := Prod.mk.inj hconflict
      have herror : BatchOutcome.errorOf id outcome = .writeConflict id writer := by
        simp [BatchOutcome.errorOf, hverdict, hother]
      exact herror ▸ .conflict hverdict hother
    · obtain ⟨hverdict, hother⟩ := Prod.mk.inj hadditive
      have herror : BatchOutcome.errorOf id outcome = .additiveWriteConflict id writer := by
        simp [BatchOutcome.errorOf, hverdict, hother]
      exact herror ▸ .additive hverdict hother
  · obtain ⟨hnames, hrepeats⟩ := not_or.1 hfree
    obtain ⟨name, rest, hnames⟩ := List.exists_cons_of_ne_nil hnames
    obtain ⟨hconstraint, hverdict, hother⟩ := h.repeated (not_not.1 hrepeats) hnames
    by_cases hinsert : m.kind = .insert
    · rw [Mutation.refusal, if_pos hinsert] at hverdict
      have herror : BatchOutcome.errorOf id outcome = .constraintViolation id name.text := by
        simp [BatchOutcome.errorOf, hverdict, hconstraint]
      exact herror ▸ .violated hverdict hconstraint
    · rw [Mutation.refusal, if_neg hinsert] at hverdict
      have herror : BatchOutcome.errorOf id outcome = .additiveWriteConflict id id := by
        simp [BatchOutcome.errorOf, hverdict, hother]
      exact herror ▸ .repeated hverdict hconstraint

theorem BatchOutcome.reports_firstError {batch : BatchOutcome}
    (h : ∀ outcome ∈ batch.rows, outcome.verdict ≠ .success →
      outcome.Amounts batch.txn (errorOf batch.txn outcome)) :
    batch.Reports batch.firstError := by
  unfold firstError
  cases hfirst : batch.rows.find? (·.verdict ≠ .success) with
  | none =>
    intro outcome houtcome
    simpa using List.find?_eq_none.1 hfirst outcome houtcome
  | some outcome =>
    obtain ⟨hrefused, i, hi, hrow, hearlier⟩ := List.find?_eq_some_iff_getElem.1 hfirst
    have hrefused : outcome.verdict ≠ .success := by simpa using hrefused
    refine ⟨i, outcome, List.getElem?_eq_some_iff.2 ⟨hi, hrow⟩, hrefused,
      h outcome (hrow ▸ List.getElem_mem hi) hrefused, fun j hj earlier hfound => ?_⟩
    obtain ⟨hlt, rfl⟩ := List.getElem?_eq_some_iff.1 hfound
    simpa using hearlier j hj

theorem RowOutcome.Justified.of_steady {outcome : RowOutcome}
    (h : outcome.Justified names rules txn before m s) (hs : Supplier.Steady known s)
    (hs' : Supplier.Steady known s') : outcome.Justified names rules txn before m s' where
  row := h.row
  repeated := h.repeated
  compared hfree := by
    obtain ⟨hconstraint, history, s₁, hhistory, hdetect⟩ := h.compared hfree
    have hdetermined : Supplier.Determined known (detectConflict txn history : TxnM σ _) :=
      determined_detectAfter txn none history
    have hanswer := hdetermined.answer_eq hs' hs
    obtain ⟨s₂, hdetect'⟩ := answer_eq_ok_iff.1 (hanswer.trans (answer_eq_ok_iff.2 ⟨s₁, hdetect⟩))
    exact ⟨hconstraint, history, s₂, hhistory, hdetect'⟩

theorem View.ensureWritable_eq_ok_iff :
    txn.ensureWritable = .ok () ↔ txn.readOnly = false ∧ txn.effectiveState = .active := by
  unfold ensureWritable
  cases txn.readOnly <;> simp

theorem checkBatch_of_writable (hmay : txn.readOnly = false)
    (hactive : txn.effectiveState = .active) (rules : BatchRules) (batch : List Mutation) (s : σ) :
    checkBatch rules txn batch s = judgeMutations rules txn [] batch s := by
  rw [checkBatch, View.ensureWritable_eq_ok_iff.2 ⟨hmay, hactive⟩]

theorem checkBatch_of_not_writable (h : txn.readOnly = true ∨ txn.effectiveState ≠ .active)
    (rules : BatchRules) (batch : List Mutation) (s : σ) :
    ∃ e, checkBatch rules txn batch s = (⟨[], some e⟩, s) := by
  cases hwritable : txn.ensureWritable with
  | error e => exact ⟨e, by rw [checkBatch, hwritable]⟩
  | ok _ =>
    obtain ⟨hmay, hactive⟩ := View.ensureWritable_eq_ok_iff.1 hwritable
    rcases h with hreadOnly | hstate
    · cases hmay.symm.trans hreadOnly
    · exact absurd hactive hstate

/-- A check under unique constraints. Each mutation is judged, in order: where there is a
constraint, the first one refuses an insertion into a row that the batch touched before; any other
mutation gets the verdict of a comparison with the earlier writers of its row, in the supplier state
left by the mutations before it, which may be replaced by the state before the check where look-ups
preserve what is known. The error of the batch is that of the first refused mutation. A transaction
that may not write is refused without judging any mutation. -/
theorem checkBatch_exact (hrules : rules.constraints = names.map .unique)
    (hanswers : rules.Answers fits batch) (hs : fits s) (txn : View) :
    let check (batch : List Mutation) := checkBatch rules txn batch s
    (txn.readOnly = true ∨ txn.effectiveState ≠ .active →
      (check batch).1.rows = [] ∧ ∃ e, (check batch).1.outcome txn.id = .error e) ∧
    (txn.readOnly = false → txn.effectiveState = .active →
      ∃ result, (check batch).1.outcome txn.id = .ok result ∧ result.txn = txn.id ∧
        result.rows.length = batch.length ∧
        (∀ (i : Nat) (m : Mutation), batch[i]? = some m →
          ∃ outcome : RowOutcome, result.rows[i]? = some outcome ∧
            outcome.Justified names rules txn (batch.take i) m (check (batch.take i)).2 ∧
            ∀ known, Supplier.Steady known s →
              outcome.Justified names rules txn (batch.take i) m s) ∧
        result.Reports result.firstError) := by
  intro check
  constructor
  · intro hrefused
    obtain ⟨e, hcheck⟩ : ∃ e, check batch = (⟨[], some e⟩, s) :=
      checkBatch_of_not_writable hrefused rules batch s
    rw [hcheck]
    exact ⟨rfl, e, rfl⟩
  · intro hmay hactive
    have hcheck (batch : List Mutation) : check batch = judgeMutations rules txn [] batch s :=
      checkBatch_of_writable hmay hactive rules batch s
    obtain ⟨hfailure, hlength, hrows⟩ := judgeMutations_justified txn [] hrules hanswers hs
    simp only [List.map_nil, List.reverse_nil, List.nil_append, ← hcheck] at hfailure hlength hrows
    refine ⟨⟨txn.id, (check batch).1.rows⟩, ?checked, rfl, hlength, ?judged, ?reported⟩
    case checked => rw [BatchTrace.outcome, hfailure]
    case judged =>
      intro i m hm
      obtain ⟨outcome, houtcome, hjustified⟩ := hrows i m hm
      refine ⟨outcome, houtcome, hjustified, fun known hsteady => ?_⟩
      have hresolve : ∀ s : σ, Supplier.Steady known s → ∀ id,
          Leaves (View.resolve id) s (Supplier.Steady known) := fun s hs id =>
        (hs.resolve_ends id).mono (fun _ _ h => h.2) fun _ _ h => h
      have hkept : Supplier.Steady known (check (batch.take i)).2 :=
        checkBatch_keeps hresolve hsteady rules txn (batch.take i)
      exact hjustified.of_steady hkept hsteady
    case reported =>
      refine BatchOutcome.reports_firstError fun outcome hmem hrefused => ?_
      obtain ⟨i, hi, hrow⟩ := List.getElem_of_mem hmem
      have hbound : i < batch.length := hlength ▸ hi
      obtain ⟨found, hfound, hjustified⟩ := hrows i batch[i] (List.getElem?_eq_getElem hbound)
      obtain rfl : found = outcome := by
        have hsame := List.getElem?_eq_some_iff.2 ⟨hi, hrow⟩
        exact Option.some.inj (hfound.symm.trans hsame)
      exact hjustified.amounts hrefused txn.id

end

/-- One row is added, changed and added twice more, and another is changed on which others have
worked. -/
def crowdedBatch : List Mutation :=
  [⟨.insert, [2], [21]⟩, ⟨.update, [2], [22]⟩, ⟨.upsert, [2], [23]⟩, ⟨.insert, [2], [24]⟩,
    ⟨.update, [1], [11]⟩]

def crowdedRules : BatchRules where
  constraints := [⟨"accounts", "pk"⟩, ⟨"accounts", "unique"⟩].map .unique
  history := Site.familySite.region.history

theorem checkBatch_exact_crowded :
    ∃ txn s result, View.resolve 1 Site.familyLedger = .ok txn s ∧
      (checkBatch crowdedRules txn crowdedBatch Site.familyLedger).1.outcome txn.id = .ok result ∧
      result.rows.map (·.verdict) =
        [.success, .success, .additiveWriteConflict, .failure, .writeConflict] ∧
      (∀ (i : Nat) (m : Mutation), crowdedBatch[i]? = some m →
        ∃ outcome : RowOutcome, result.rows[i]? = some outcome ∧
          outcome.Justified [⟨"accounts", "pk"⟩, ⟨"accounts", "unique"⟩] crowdedRules txn
            (crowdedBatch.take i) m Site.familyLedger) ∧
      result.Reports (some (.additiveWriteConflict 1 1)) := by
  have hviewed : Ends (View.resolve 1) Site.familyLedger
      (fun view _ => view.readOnly = false ∧ view.effectiveState = .active ∧
        (checkBatch crowdedRules view crowdedBatch Site.familyLedger).1.outcome view.id =
          .ok ⟨1, [⟨[2], .success, none, none⟩, ⟨[2], .success, none, none⟩,
            ⟨[2], .additiveWriteConflict, none, some ⟨"accounts", "pk"⟩⟩,
            ⟨[2], .failure, none, some ⟨"accounts", "pk"⟩⟩,
            ⟨[1], .writeConflict, some 6, none⟩]⟩) fun _ _ => False := by
    decide +kernel
  obtain ⟨txn, s, hresolve, hmay, hactive, hresult⟩ := hviewed.exists_ok
  have hrow : Site.familySite.region.history [1] =
      .ok [(8, none), (6, none), (3, some (.committed 4)), (2, none)] := by decide +kernel
  have hfresh : Site.familySite.region.history [2] = .ok [] := by decide +kernel
  have hanswers : crowdedRules.Answers (σ := Ledger Oracle)
      (Supplier.Steady Site.familyLedger.known) crowdedBatch := by
    intro m hm
    have hplace : m.row = [1] ∨ m.row = [2] := by
      revert m
      decide
    rcases hplace with hplace | hplace
    · obtain ⟨hattested, -⟩ := WriteHistory.attested_of_row Site.familySite_attested hrow
      refine ⟨_, hplace ▸ hrow, WriteHistory.answers_of_finds Site.familyLedger_steady ?_⟩
      exact fun entry hentry => (hattested entry hentry).imp fun _ h => h.1
    · exact ⟨[], hplace ▸ hfresh, nofun⟩
  obtain ⟨result, houtcome, -, -, hrows, hreports⟩ :=
    (checkBatch_exact (s := Site.familyLedger) rfl hanswers Site.familyLedger_steady txn).2 hmay
      hactive
  obtain rfl := Except.ok.inj (houtcome.symm.trans hresult)
  refine ⟨txn, s, _, hresolve, houtcome, rfl, fun i m hm => ?_, hreports⟩
  obtain ⟨outcome, hfound, -, hjustified⟩ := hrows i m hm
  exact ⟨outcome, hfound, hjustified _ Site.familyLedger_steady⟩

end Mvcc

import Mvcc.Proofs.Batch.Check
import Mvcc.Proofs.Snapshot.Tidying

/-!
# Write conflicts without stamps

The verdict on a write depends only on the views of the earlier writers. A correct stamp saves the
look-up of a writer that would not conflict.
-/

namespace Mvcc

open TxnM

variable {σ : Type} [Supplier σ] {known : TxnId → Except TxnError (Option Txn)} {s₀ s : σ}
  {txn other : View} {kind : Rivalry} {writer : TxnId} {older : List TxnId}

/-! ## True stamps -/

namespace View

theorem rivalry_of_rolledBack (h : other.effectiveState = .rolledBack) :
    txn.rivalry other = .none := by
  unfold rivalry
  rw [if_pos h, ite_self]

theorem rivalry_of_committedBy (h : other.committedBy txn.beginTime = true) :
    txn.rivalry other = .none := by
  unfold rivalry
  rw [if_pos h, ite_self, ite_self]

theorem rivalry_of_passesOver {stamp : Option Stamp}
    (hstamp : ∀ mark, stamp = some mark → other.outcome = some mark) (hne : writer ≠ txn.id)
    (h : txn.passesOver writer stamp = true) : txn.rivalry other = .none := by
  match stamp with
  | none => simp [passesOver, hne] at h
  | some .rolledBack =>
    exact rivalry_of_rolledBack (outcome_eq_rolledBack_iff.1 (hstamp .rolledBack rfl))
  | some (.committed time) =>
    have htime : time ≤ txn.beginTime := by simpa [passesOver, hne] using h
    exact rivalry_of_committedBy (committedBy_iff.2 ⟨time, hstamp (.committed time) rfl, htime⟩)

end View

/-! ## Histories -/

namespace WriteHistory

variable {history : WriteHistory}

def writers (history : WriteHistory) : List TxnId := history.map (·.1)

/-- Every writer resolves, and every stamp is the outcome of its writer. -/
def Attested (shown : TxnId → View → Prop) (history : WriteHistory) : Prop :=
  ∀ entry ∈ history, ∃ view, shown entry.1 view ∧
    ∀ stamp, entry.2 = some stamp → view.outcome = some stamp

/-- The history of a row lists the newest writers first, with correct stamps if the row's are. -/
theorem attested_of_row {shown : TxnId → View → Prop} {p : Partition} {row : Bytes}
    (hattested : p.Attested shown row) (h : p.history row = .ok history) :
    history.Attested shown ∧ history.writers.Pairwise (· > ·) := by
  obtain ⟨versions, hversions, rfl⟩ := Partition.versions_of_history h
  obtain ⟨hdescending, hmem⟩ := Partition.versions_spec hversions
  constructor
  · intro entry hentry
    obtain ⟨version, hversion, rfl⟩ := List.mem_map.1 hentry
    exact hattested.of_version ((hmem version).1 hversion)
  · rw [writers, List.map_map]
    exact List.pairwise_map.2 hdescending

end WriteHistory

/-! ## Rivals -/

namespace View

/-- The rivalry of `writer` with `txn`, by the view a look-up gives. -/
def rivalryWith (s : σ) (txn : View) (writer : TxnId) : Rivalry :=
  match resolve writer s with
  | .ok other _ => txn.rivalry other
  | .error _ _ => .none

/-- The first writer, other than the transaction itself, that stands in the given rivalry to it. -/
def rival? (s : σ) (txn : View) (kind : Rivalry) (writers : List TxnId) : Option TxnId :=
  writers.find? fun writer => writer ≠ txn.id && txn.rivalryWith s writer = kind

/-- The verdict for a genuine and an additive rival; a genuine one takes precedence. -/
def verdictOn (conflict additive : Option TxnId) : Verdict × Option TxnId :=
  match conflict, additive with
  | some writer, _ => (.writeConflict, some writer)
  | none, some writer => (.additiveWriteConflict, some writer)
  | none, none => (.success, none)

/-- The verdict on a write of `txn` after a history, from the views of its writers. -/
def verdictAfter (s : σ) (txn : View) (writers : List TxnId) : Verdict × Option TxnId :=
  verdictOn (txn.rival? s .conflict writers) (txn.rival? s .additive writers)

theorem rivalryWith_of_finds (txn : View) (h : Supplier.Finds s writer other) :
    txn.rivalryWith s writer = txn.rivalry other := by
  obtain ⟨s', h⟩ := h
  rw [rivalryWith, h]

theorem rival?_cons_of_ne (h : txn.rivalryWith s writer ≠ kind) :
    txn.rival? s kind (writer :: older) = txn.rival? s kind older :=
  List.find?_cons_of_neg (by simp [h])

theorem rival?_cons_of_eq (hne : writer ≠ txn.id) (h : txn.rivalryWith s writer = kind) :
    txn.rival? s kind (writer :: older) = some writer :=
  List.find?_cons_of_pos (by simp [hne, h])

theorem rival?_cons_of_passesOver {stamp : Option Stamp} (hwriter : Supplier.Finds s writer other)
    (hstamp : ∀ mark, stamp = some mark → other.outcome = some mark)
    (h : txn.passesOver writer stamp = true) (hkind : kind ≠ .none) :
    txn.rival? s kind (writer :: older) = txn.rival? s kind older := by
  by_cases hown : writer = txn.id
  · exact List.find?_cons_of_neg (by simp [hown])
  · refine rival?_cons_of_ne ?_
    rw [rivalryWith_of_finds txn hwriter, rivalry_of_passesOver hstamp hown h]
    exact hkind.symm

theorem le_of_rival? {found : List TxnId} (hdescending : found.Pairwise (· > ·))
    (h : txn.rival? s kind found = some writer) {rival : TxnId} (hmem : rival ∈ found)
    (hne : rival ≠ txn.id) (hrival : txn.rivalryWith s rival = kind) : rival ≤ writer := by
  obtain ⟨-, newer, rest, rfl, hnewer⟩ := List.find?_eq_some_iff_append.1 h
  rcases List.mem_append.1 hmem with hmem | hmem
  · have hnot := hnewer rival hmem
    simp [hne, hrival] at hnot
  · rcases List.mem_cons.1 hmem with rfl | hmem
    · exact UInt64.le_refl _
    · have holder := (List.pairwise_cons.1 (List.pairwise_append.1 hdescending).2.1).1
      exact UInt64.le_of_lt (holder rival hmem)

end View

/-! ## The comparison -/

/-- The genuine rivals take precedence; an additive one may have been found before. -/
theorem detectAfter_ends {history : WriteHistory} (hs₀ : Supplier.Steady known s₀)
    (hs : Supplier.Steady known s) (txn : View) (additive : Option TxnId)
    (h : history.Attested (Supplier.Finds s₀)) :
    Ends (detectAfter txn additive history) s
      (fun found s' => Supplier.Steady known s' ∧
        found = View.verdictOn (txn.rival? s₀ .conflict history.writers)
          (additive <|> txn.rival? s₀ .additive history.writers))
      fun _ _ => False := by
  induction history generalizing s additive with
  | nil => cases additive <;> exact ⟨hs, rfl⟩
  | cons entry older ih =>
    obtain ⟨writer, stamp⟩ := entry
    obtain ⟨⟨other, hother, hstamp⟩, holder⟩ := List.forall_mem_cons.1 h
    have hrivalry := View.rivalryWith_of_finds txn hother
    unfold detectAfter
    rw [WriteHistory.writers, List.map_cons, ← WriteHistory.writers]
    by_cases hpasses : txn.passesOver writer stamp = true
    · rw [if_pos hpasses, View.rival?_cons_of_passesOver hother hstamp hpasses (by decide),
        View.rival?_cons_of_passesOver hother hstamp hpasses (by decide)]
      exact ih hs additive holder
    · have hne : writer ≠ txn.id := by
        rintro rfl
        simp [View.passesOver] at hpasses
      rw [if_neg hpasses, ends_bind]
      refine (hother.again hs₀ hs).mono ?_ fun _ _ h => h
      rintro view s₁ ⟨rfl, hs₁⟩
      cases hkind : txn.rivalry view with
      | none =>
        rw [hkind] at hrivalry
        rw [View.rival?_cons_of_ne (by simp [hrivalry]),
          View.rival?_cons_of_ne (by simp [hrivalry])]
        exact ih hs₁ additive holder
      | additive =>
        rw [hkind] at hrivalry
        rw [View.rival?_cons_of_ne (by simp [hrivalry]), View.rival?_cons_of_eq hne hrivalry]
        refine (ih hs₁ (additive <|> some writer) holder).mono ?_ fun _ _ h => h
        rintro found s' ⟨hs', rfl⟩
        cases additive <;> exact ⟨hs', rfl⟩
      | conflict =>
        rw [hkind] at hrivalry
        rw [View.rival?_cons_of_eq hne hrivalry]
        exact ⟨hs₁, rfl⟩

/-- Where every writer resolves and the stamps are true, the verdict is determined by the views of
the writers: a conflict with the newest genuine rival, else an additive conflict with the newest
additive rival, else none. It does not depend on which versions are stamped. -/
theorem detectConflict_eq_verdictAfter {history : WriteHistory} (hsteady : Supplier.Steady known s)
    (h : history.Attested (Supplier.Finds s)) (txn : View) :
    (∃ s', detectConflict txn history s = .ok (txn.verdictAfter s history.writers) s') ∧
    (∀ stamped : WriteHistory, stamped.writers = history.writers →
      stamped.Attested (Supplier.Finds s) →
      ∃ s', detectConflict txn stamped s = .ok (txn.verdictAfter s history.writers) s') ∧
    (history.writers.Pairwise (· > ·) → ∀ kind writer,
      txn.rival? s kind history.writers = some writer →
      ∀ rival ∈ history.writers, rival ≠ txn.id → txn.rivalryWith s rival = kind →
        rival ≤ writer) := by
  have hdetect : ∀ stamped : WriteHistory, stamped.Attested (Supplier.Finds s) →
      ∃ s', detectConflict txn stamped s = .ok (txn.verdictAfter s stamped.writers) s' := by
    intro stamped hstamped
    obtain ⟨found, s', hfound, -, hverdict⟩ :=
      (detectAfter_ends hsteady hsteady txn none hstamped).exists_ok
    refine ⟨s', hfound.trans ?_⟩
    rw [hverdict]
    rfl
  refine ⟨hdetect history h, fun stamped hsame hstamped => ?_, ?_⟩
  · rw [← hsame]
    exact hdetect stamped hstamped
  · intro hdescending kind writer hwriter rival hmem hne hrival
    exact View.le_of_rival? hdescending hwriter hmem hne hrival

/-- The newest writer of the row rolled back; the next committed below a parent that is active. -/
theorem detectConflict_eq_verdictAfter_inFamily :
    ∃ txn s s' history, View.resolve 1 Site.familyLedger = .ok txn s ∧
      Site.familySite.region.history [1] = .ok history ∧
      detectConflict txn history Site.familyLedger = .ok (.writeConflict, some 6) s' := by
  have hrow : Site.familySite.region.history [1] =
      .ok [(8, none), (6, none), (3, some (.committed 4)), (2, none)] := by decide +kernel
  have hviewed : Ends (View.resolve 1) Site.familyLedger
      (fun view _ => view.verdictAfter Site.familyLedger [8, 6, 3, 2] = (.writeConflict, some 6))
      fun _ _ => False := by
    decide +kernel
  obtain ⟨txn, s, hresolve, hverdict⟩ := hviewed.exists_ok
  obtain ⟨hattested, -⟩ := WriteHistory.attested_of_row Site.familySite_attested hrow
  obtain ⟨⟨s', hdetect⟩, -, -⟩ :=
    detectConflict_eq_verdictAfter Site.familyLedger_steady hattested txn
  refine ⟨txn, s, s', _, hresolve, hrow, ?_⟩
  rw [← hverdict]
  exact hdetect

end Mvcc

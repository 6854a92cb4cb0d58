import Mvcc.Proofs.Txn.Agreement
import Mvcc.Proofs.Txn.Finality

/-!
# Transparency of the cache

The answers and records of a ledger do not depend on its cache, its capacity and its evictions, as
long as the clock does not go back and the storage is available.
-/

namespace Mvcc

/-- The same settings with a lifetime of zero for cached transactions. -/
def TxnSettings.forgetful (settings : TxnSettings) : TxnSettings :=
  { settings with completedLifetime := 0 }

namespace Ledger

open TxnM

variable {τ : Type} [TimestampSource τ] {s s' : Ledger τ}

/-! ## Answers -/

/-- The answer of an operation, with all its data. -/
inductive Reply where
  | done
  | created (txn : Txn)
  | committed (time : Timestamp)
  | alive (alive : Bool)
  | found (txn : Option Txn)
  | viewed (view : View)
  | active (ids : List TxnId)

def Operation.replying : Operation → TxnM (Ledger τ) Reply
  | .create parent isolation additive => .created <$> Ledger.create parent isolation additive
  | .beginReadOnly parent isolation => .viewed <$> Ledger.beginReadOnly parent isolation
  | .commit id => .committed <$> Ledger.commit id
  | .keepAlive id => .alive <$> Ledger.keepAlive id
  | .find id => .found <$> Ledger.find id
  | .view id => .viewed <$> View.resolve id
  | .listActive listing => .active <$> Ledger.listActive listing
  | op => (fun _ => .done) <$> op.steps

def answer (s : Ledger τ) (op : Operation) : Except TxnError Reply :=
  match op.replying s with
  | .ok reply _ => .ok reply
  | .error e _ => .error e

def answers : Ledger τ → List Operation → List (Except TxnError Reply)
  | _, [] => []
  | s, op :: ops => s.answer op :: answers (s.after op) ops

theorem replying_ends (op : Operation) (s : Ledger τ) :
    Ends op.replying s (fun reply s' => s.answer op = .ok reply ∧ s.after op = s')
      fun e s' => s.answer op = .error e ∧ s.after op = s' := by
  have hmap : ∀ {α : Type} (f : α → Reply) (steps : TxnM (Ledger τ) α),
      op.replying = f <$> steps → op.steps = (fun _ => ()) <$> steps →
      Ends op.replying s (fun reply s' => s.answer op = .ok reply ∧ s.after op = s')
        fun e s' => s.answer op = .error e ∧ s.after op = s' := by
    intro α f steps hreplying hsteps
    simp only [answer, after, hreplying, hsteps, Ends, Functor.map, EStateM.map]
    cases steps s <;> exact ⟨rfl, rfl⟩
  cases op with
  | rollback | recordDestination | recordGlobalCommit => exact hmap _ _ rfl (id_map _).symm
  | _ => exact hmap _ _ rfl rfl

theorem Twins.replying_agree (h : s.Twins s') (op : Operation) :
    Agree Alike op.replying op.replying s s' := by
  have halike := h.alike
  cases op with
  | create parent isolation additive => exact (h.create_agree parent isolation additive).map _
  | beginReadOnly parent isolation => exact (h.beginReadOnly_agree parent isolation).map _
  | commit id => exact (h.commit_agree id).map _
  | rollback id => exact (rollback_agree halike id).map _
  | keepAlive id => exact (keepAlive_agree halike id).map _
  | recordDestination id table => exact (recordDestination_agree halike id table).map _
  | recordGlobalCommit id time => exact (recordGlobalCommit_agree halike id time).map _
  | find id => exact (h.find_agree id).map _
  | view id => exact (h.resolve_agree id).map _
  | listActive listing => exact (listActive_agree halike listing).map _
  | clock now =>
    exact (agree_modify ⟨halike.partition, halike.quota, halike.source, rfl, halike.timeout,
      halike.timeoutSlack⟩).map _
  | expire id => exact (forget_agree halike id).map _
  | outage unavailable =>
    have hpartition : { s'.partition with unavailable := unavailable } =
        { s.partition with unavailable := unavailable } := by rw [halike.partition]
    exact (agree_modify ⟨hpartition, halike.quota, halike.source, halike.now, halike.timeout,
      halike.timeoutSlack⟩).map _
  | limit quota =>
    exact (agree_modify ⟨halike.partition, rfl, halike.source, halike.now, halike.timeout,
      halike.timeoutSlack⟩).map _

theorem Twins.answer_eq (h : s.Twins s') (op : Operation) :
    s.answer op = s'.answer op ∧ (s.after op).Alike (s'.after op) := by
  have hagree := h.replying_agree op
  have hs := replying_ends op s
  have hs' := replying_ends op s'
  unfold Agree at hagree
  unfold Ends at hs hs'
  cases hreply : op.replying s <;> cases hreply' : op.replying s' <;>
    simp only [hreply, hreply'] at hagree hs hs'
  · exact ⟨by rw [hs.1, hs'.1, hagree.1], hs.2 ▸ hs'.2 ▸ hagree.2⟩
  · exact ⟨by rw [hs.1, hs'.1, hagree.1], hs.2 ▸ hs'.2 ▸ hagree.2⟩

/-! ## Runs -/

variable [AscendingSource τ] {op : Operation} {ops : List Operation}

/-- An operation preserves twins, while the clock does not go back and the storage is available. -/
theorem Twins.after (h : s.Twins s') (hs : Ready [op] s) (hs' : Ready [op] s')
    (hforward : s.now ≤ op.clockAfter s.now) (hserved : op.servingAfter true = true) :
    (s.after op).Twins (s'.after op) := by
  have hforward' : s'.now ≤ op.clockAfter s'.now := h.alike.now ▸ hforward
  have hserving : (s.after op).register.serving = true := by
    rw [hs.effect.conditions.2, serving_iff.2 h.available]
    exact hserved
  have hfaithful : (s.run [op]).register.Faithful :=
    faithful_run_whole hs h.faithful ⟨hforward, trivial⟩
  have hfaithful' : (s'.run [op]).register.Faithful :=
    faithful_run_whole hs' h.faithful' ⟨hforward', trivial⟩
  exact ⟨(h.answer_eq op).2, hfaithful, hfaithful', serving_iff.1 hserving⟩

theorem Twins.answers_eq (h : s.Twins s') (hs : Ready ops s) (hlegible : s'.Legible)
    (hsound : s'.register.Sound) (hforward : Forward s.now ops)
    (hserved : ∀ op ∈ ops, op.servingAfter true = true) :
    s.answers ops = s'.answers ops ∧ (s.run ops).Alike (s'.run ops) := by
  induction ops generalizing s s' with
  | nil => exact ⟨rfl, h.alike⟩
  | cons op ops ih =>
    obtain ⟨hanswer, -⟩ := h.answer_eq op
    obtain ⟨hle, hlater⟩ := hforward
    have hsupplied : op.Supplied s'.register := by
      have hsource : s'.register.source = s.register.source := h.alike.source
      intro hasks
      rw [hsource]
      exact hs.operation_supplied hasks
    have hs₁ : Ready [op] s := ⟨hs.legible, hs.sound, hs.operation_supplied, trivial⟩
    have hs₁' : Ready [op] s' := ⟨hlegible, hsound, hsupplied, trivial⟩
    have htwins := h.after hs₁ hs₁' hle (hserved op (by simp))
    have hnow : (s.after op).now = op.clockAfter s.now := Operation.Effect.now hs.effect
    obtain ⟨hrest, halike⟩ := ih htwins hs.after hs₁'.after.legible hs₁'.after.sound
      (hnow ▸ hlater) fun later hlater => hserved later (by simp [hlater])
    exact ⟨congrArg₂ List.cons hanswer hrest, halike⟩

/-- In every run in which the clock does not go back, the storage is available and the source does
not wrap: for all cache settings and expiries, a ledger gives the same answers as one without
caches, and both have the same rows afterwards. -/
theorem answers_eq_forgetful (name : String) (source : τ) (now : UInt64) (settings : TxnSettings)
    (ops : List Operation) (hample : Ample (new name source now settings) ops)
    (hforward : Forward now ops) (hserved : ∀ op ∈ ops, op.servingAfter true = true) :
    answers (new name source now settings) ops =
      answers (new name source now settings.forgetful) ops ∧
    (run (new name source now settings) ops).partition =
      (run (new name source now settings.forgetful) ops).partition := by
  have htwins : (new name source now settings).Twins (new name source now settings.forgetful) :=
    ⟨⟨rfl, rfl, rfl, rfl, rfl, rfl⟩, faithful_new, faithful_new, rfl⟩
  obtain ⟨hanswers, halike⟩ := htwins.answers_eq (ready_new hample) (fun _ => .inl rfl) sound_new
    hforward hserved
  exact ⟨hanswers, halike.partition.symm⟩

/-- A child is found rolled back for its silence, a root is committed globally twice, and both are
viewed again. -/
theorem answers_eq_forgetful_of_revived :
    let ops : List Operation :=
      [.create none none none, .create (some 1) none none, .clock 1001001, .find 2, .find 1,
        .recordGlobalCommit 1 500, .view 2, .find 1, .recordGlobalCommit 1 700, .commit 1, .view 1]
    answers (fromZero impatient) ops = answers (fromZero impatient.forgetful) ops ∧
      (run (fromZero impatient) ops).partition =
        (run (fromZero impatient.forgetful) ops).partition :=
  answers_eq_forgetful "stratum_txn" (fromZero impatient).source 1000000 impatient _
    (.inl (by decide)) ⟨by decide, by decide, by decide, by decide, by decide, by decide, by decide,
      by decide, by decide, by decide, by decide, trivial⟩ (by decide)

end Ledger

end Mvcc

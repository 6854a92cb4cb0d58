import Mvcc.Proofs.Txn.Roots
import Mvcc.Proofs.Txn.Simulation

/-!
# Runs of a ledger

A run is a sequence of operations on a ledger and of events around it: the clock changes, cache
entries expire, storage fails or recovers. A failed operation leaves its partial effects.
-/

namespace Mvcc.Ledger

variable {τ : Type}

inductive Operation where
  | create (parent : Option TxnId) (isolation : Option Isolation) (additive : Option Bool)
  | beginReadOnly (parent : Option TxnId) (isolation : Option Isolation)
  | commit (id : TxnId)
  | rollback (id : TxnId)
  | keepAlive (id : TxnId)
  | recordDestination (id : TxnId) (table : String)
  | recordGlobalCommit (id : TxnId) (time : Timestamp)
  | find (id : TxnId)
  | view (id : TxnId)
  | listActive (listing : Listing)
  | clock (now : UInt64)
  /-- A cache entry expires. -/
  | expire (id : TxnId)
  /-- The storage stops answering, or answers again. -/
  | outage (unavailable : Bool)
  /-- The storage takes only so many more writes. -/
  | limit (quota : Option Nat)

namespace Operation

def steps [TimestampSource τ] : Operation → TxnM (Ledger τ) Unit
  | .create parent isolation additive => discard <| Ledger.create parent isolation additive
  | .beginReadOnly parent isolation => discard <| Ledger.beginReadOnly parent isolation
  | .commit id => discard <| Ledger.commit id
  | .rollback id => Ledger.rollback id
  | .keepAlive id => discard <| Ledger.keepAlive id
  | .recordDestination id table => Ledger.recordDestination id table
  | .recordGlobalCommit id time => Ledger.recordGlobalCommit id time
  | .find id => discard <| Ledger.find id
  | .view id => discard <| (View.resolve id : TxnM (Ledger τ) View)
  | .listActive listing => discard <| Ledger.listActive listing
  | .clock now => modify fun s => { s with now := now }
  | .expire id => forget id
  | .outage unavailable =>
    modify fun s => { s with partition := { s.partition with unavailable := unavailable } }
  | .limit quota => modify fun s => { s with quota := quota }

def asks : Operation → Bool
  | .create .. | .beginReadOnly .. | .commit _ => true
  | _ => false

/-- The admissible parents of a transaction that the operation begins. -/
def under : Operation → Option TxnId → Prop
  | .create parent _ _, other => other = parent
  | _, _ => False

/-- The operation records no global commit. -/
def isLocal : Operation → Bool
  | .recordGlobalCommit .. => false
  | _ => true

def clockAfter (now : UInt64) : Operation → UInt64
  | .clock later => later
  | _ => now

def servingAfter (serving : Bool) : Operation → Bool
  | .outage unavailable => !unavailable
  | _ => serving

end Operation

/-- The ledger after an operation, successful or not. -/
def after [TimestampSource τ] (s : Ledger τ) (op : Operation) : Ledger τ :=
  match op.steps s with
  | .ok _ s' => s'
  | .error _ s' => s'

def run [TimestampSource τ] (s : Ledger τ) (ops : List Operation) : Ledger τ := ops.foldl after s

def requests (ops : List Operation) : Nat := ops.countP Operation.asks

/-- The clock never goes back in a run that begins at `now`. -/
def Forward : UInt64 → List Operation → Prop
  | _, [] => True
  | now, op :: ops => now ≤ op.clockAfter now ∧ Forward (op.clockAfter now) ops

instance Forward.decidable : (now : UInt64) → (ops : List Operation) → Decidable (Forward now ops)
  | _, [] => .isTrue trivial
  | now, op :: ops =>
    have := decidable (op.clockAfter now) ops
    inferInstanceAs (Decidable (now ≤ op.clockAfter now ∧ Forward (op.clockAfter now) ops))

def Answered [TimestampSource τ] : Ledger τ → List Operation → Prop
  | _, [] => True
  | s, op :: ops =>
    (∀ refusal s', op.steps s ≠ .error (.timestamp refusal) s') ∧ Answered (s.after op) ops

/-- The source does not wrap in a run: every request is answered, or there are few enough of them.
-/
def Ample [TimestampSource τ] [AscendingSource τ] (s : Ledger τ) (ops : List Operation) : Prop :=
  requests ops ≤ AscendingSource.supply s.source ∨
    0 < AscendingSource.supply s.source ∧ s.Answered ops

theorem forward_append {now : UInt64} {before later : List Operation}
    (h : Forward now (before ++ later)) :
    Forward now before ∧ Forward (before.foldl Operation.clockAfter now) later := by
  induction before generalizing now with
  | nil => exact ⟨trivial, h⟩
  | cons op before ih =>
    obtain ⟨hle, hrest⟩ := h
    obtain ⟨hbefore, hlater⟩ := ih hrest
    exact ⟨⟨hle, hbefore⟩, hlater⟩

/-! ## One operation -/

open TxnM

/-- The possible effects of an operation on a register. -/
def Operation.Effect [TimestampSource τ] (op : Operation) (r r' : Register τ) : Prop :=
  match op with
  | .create parent isolation additive =>
    r.Entered parent isolation additive r' ∨ r.Starved r'
  | .beginReadOnly .. | .commit _ => r.Served (fun _ => False) r' ∨ r.Starved r'
  | .recordGlobalCommit id time => r' = r ∨ r.Adopted id time r'
  | .clock now => r' = r.meanwhile now r.serving
  | .outage unavailable => r' = r.meanwhile r.now !unavailable
  | _ => r.Steps r'

theorem after_of_ends [TimestampSource τ] {s : Ledger τ} {op : Operation} {p : Ledger τ → Prop}
    (h : Leaves op.steps s p) : p (s.after op) := by
  unfold after
  cases hsteps : op.steps s with
  | ok value s' => exact h.of_ok hsteps
  | error e s' => exact h.of_error hsteps

theorem after_of_ok [TimestampSource τ] {s s' : Ledger τ} {op : Operation} {α : Type}
    {steps : TxnM (Ledger τ) α} (hop : op.steps = discard steps) {value : α}
    (hsteps : steps s = .ok value s') : s.after op = s' := by
  refine after_of_ends (p := (· = s')) (hop ▸ TxnM.ends_map.2 (.of_forall ?_ ?_))
  · intro value' s'' hsteps'
    cases hsteps.symm.trans hsteps'
    rfl
  · intro e s'' hsteps'
    cases hsteps.symm.trans hsteps'

/-- Every operation has its effect and leaves a legible ledger. -/
theorem effect_after [TimestampSource τ] {s : Ledger τ} (hs : s.Legible)
    (op : Operation) (hfresh : op.asks = true → s.register.Fresh) :
    (s.after op).Legible ∧ op.Effect s.register (s.after op).register := by
  refine after_of_ends (p := fun s' => s'.Legible ∧ op.Effect s.register s'.register) ?_
  cases op with
  | create parent isolation additive =>
    refine ends_map.2 ((create_ends hs (hfresh rfl) parent isolation additive).mono ?_ ?_)
    · exact fun _ s' h => ⟨h.1.1, .inl h.1.2⟩
    · rintro e s' (h | h)
      · exact ⟨h.1, .inl h.2⟩
      · exact ⟨h.1, .inr h.2.1⟩
  | beginReadOnly parent isolation =>
    refine ends_map.2 ((beginReadOnly_ends hs parent isolation).mono ?_ ?_)
    · exact fun _ s' h => ⟨h.1, .inl h.2⟩
    · rintro e s' (h | h)
      · exact ⟨h.1, .inl h.2⟩
      · exact ⟨h.1, .inr h.2.1⟩
  | commit id =>
    refine ends_map.2 ((commit_ends hs).mono ?_ ?_)
    · exact fun _ s' h => ⟨h.1.1, .inl h.1.2⟩
    · rintro e s' (h | h)
      · exact ⟨h.1, .inl h.2⟩
      · exact ⟨h.1, .inr h.2.1⟩
  | rollback id => exact rollback_ends hs
  | keepAlive id => exact ends_map.2 (keepAlive_ends hs)
  | recordDestination id table => exact recordDestination_ends hs table
  | recordGlobalCommit id time =>
    refine (recordGlobalCommit_ends hs time).mono ?_ ?_
    · exact fun _ s' h => ⟨h.1, .inr h.2⟩
    · exact fun _ s' h => ⟨h.1, .inl h.2⟩
  | find id =>
    exact ends_map.2 ((find_ends hs).mono (fun _ _ h => h.1.stepped) fun _ _ h => h.1.stepped)
  | view id =>
    exact ends_map.2 ((resolve_ends hs).mono (fun _ _ h => h.1.stepped) fun _ _ h => h.stepped)
  | listActive listing =>
    refine ends_map.2 ((listActive_ends listing).imp ?_)
    rintro s' rfl
    exact ⟨hs, .refl⟩
  | clock now => exact ⟨hs, rfl⟩
  | expire id => exact (forget_ends hs).mono (fun _ _ h => h.stepped) (fun _ _ h => h.elim)
  | outage unavailable => exact ⟨hs, rfl⟩
  | limit quota => exact ⟨hs, .refl⟩

theorem asking_ends [TimestampSource τ] {s : Ledger τ} {op : Operation} (hs : s.Legible)
    (hfresh : s.register.Fresh) (hasks : op.asks = true) :
    Ends op.steps s (fun _ s' => s.register.Served op.under s'.register)
      fun e s' => s.register.Served op.under s'.register ∨ s.Starved e s' := by
  cases op with
  | create parent isolation additive =>
    refine ends_map.2 ((create_ends hs hfresh parent isolation additive).mono ?_ ?_)
    · exact fun _ _ h => h.1.2.served
    · exact fun _ _ h => h.imp_left fun h => h.2.served
  | beginReadOnly parent isolation =>
    refine ends_map.2 ((beginReadOnly_ends hs parent isolation).mono ?_ ?_)
    · exact fun _ _ h => h.2
    · exact fun _ _ h => h.imp_left fun h => h.2
  | commit id =>
    refine ends_map.2 ((commit_ends hs).mono ?_ ?_)
    · exact fun _ _ h => h.1.2
    · exact fun _ _ h => h.imp_left fun h => h.2
  | _ => cases hasks

theorem served_of_answered [TimestampSource τ] {s : Ledger τ} {op : Operation} (hs : s.Legible)
    (hfresh : s.register.Fresh) (hasks : op.asks = true)
    (hanswered : ∀ refusal s', op.steps s ≠ .error (.timestamp refusal) s') :
    s.register.Served op.under (s.after op).register := by
  have hends := asking_ends hs hfresh hasks
  unfold after
  cases hsteps : op.steps s with
  | ok value s' => exact hends.of_ok hsteps
  | error e s' =>
    rcases hends.of_error hsteps with hserved | ⟨-, -, refusal, rfl⟩
    · exact hserved
    · exact absurd hsteps (hanswered refusal s')

section Effect

variable [TimestampSource τ] [AscendingSource τ] {op : Operation} {r r' : Register τ}

def Operation.Supplied (op : Operation) (r : Register τ) : Prop :=
  op.asks = true → 0 < AscendingSource.supply r.source

omit [AscendingSource τ] in
theorem Operation.Effect.moved (heffect : op.Effect r r') (hlocal : op.isLocal = true) :
    r.Steps r' ∨ op.asks = true ∧ (r.Served op.under r' ∨ r.Starved r') ∨
      ∃ serving, r' = r.meanwhile (op.clockAfter r.now) serving := by
  cases op with
  | create => exact .inr (.inl ⟨rfl, heffect.imp_left Register.Entered.served⟩)
  | beginReadOnly | commit => exact .inr (.inl ⟨rfl, heffect⟩)
  | recordGlobalCommit => cases hlocal
  | clock | outage => exact .inr (.inr ⟨_, heffect⟩)
  | _ => exact .inl heffect

/-- While the clock does not go back, finished transactions stay finished as they are. -/
theorem Operation.Effect.proceeds (heffect : op.Effect r r') (h : r.Sound)
    (hsupply : op.Supplied r) (hlocal : op.isLocal = true)
    (hforward : r.now ≤ op.clockAfter r.now) : r.Proceeds op.under r' := by
  rcases heffect.moved hlocal with hsteps | ⟨hasks, hserved | hstarved⟩ | ⟨serving, rfl⟩
  · exact hsteps.proceeds _ h
  · exact hserved.proceeds h (hsupply hasks)
  · exact hstarved.proceeds _ h (hsupply hasks)
  · exact .meanwhile _ h hforward serving

theorem Operation.Effect.advances (heffect : op.Effect r r') (h : r.Sound)
    (hsupply : op.Supplied r) (hlocal : op.isLocal = true) :
    r'.Sound ∧ r.Advances op.under r' := by
  rcases heffect.moved hlocal with hsteps | ⟨hasks, hserved | hstarved⟩ | ⟨serving, rfl⟩
  · have hproceeds := Register.Steps.proceeds op.under h hsteps
    exact ⟨hproceeds.sound, hproceeds.advances⟩
  · have hproceeds := hserved.proceeds h (hsupply hasks)
    exact ⟨hproceeds.sound, hproceeds.advances⟩
  · have hproceeds := hstarved.proceeds op.under h (hsupply hasks)
    exact ⟨hproceeds.sound, hproceeds.advances⟩
  · exact ⟨h.meanwhile _ serving, .meanwhile _ h _ serving⟩

theorem Operation.Effect.sound (heffect : op.Effect r r') (h : r.Sound) (hsupply : op.Supplied r) :
    r'.Sound := by
  cases hlocal : op.isLocal with
  | true => exact (heffect.advances h hsupply hlocal).1
  | false =>
    cases op with
    | recordGlobalCommit id time =>
      rcases heffect with rfl | hadopted
      · exact h
      · exact h.adopted hadopted
    | _ => cases hlocal

theorem Operation.Effect.supply_le (heffect : op.Effect r r') (hsupply : op.Supplied r) :
    AscendingSource.supply r.source ≤
      AscendingSource.supply r'.source + if op.asks then 1 else 0 := by
  cases hlocal : op.isLocal with
  | true =>
    rcases heffect.moved hlocal with hsteps | ⟨hasks, hserved | hstarved⟩ | ⟨serving, rfl⟩
    · rw [hsteps.source]
      omega
    · rw [if_pos hasks]
      exact hserved.supply_le (hsupply hasks)
    · rw [if_pos hasks]
      exact hstarved.supply_le (hsupply hasks)
    · exact Nat.le_add_right ..
  | false =>
    cases op with
    | recordGlobalCommit id time => rcases heffect with rfl | ⟨-, -⟩ <;> exact Nat.le_add_right ..
    | _ => cases hlocal

omit [AscendingSource τ] in
theorem Operation.Effect.conditions (heffect : op.Effect r r') :
    r'.now = op.clockAfter r.now ∧ r'.serving = op.servingAfter r.serving := by
  have hsame : r'.conditions = r.conditions → r'.now = r.now ∧ r'.serving = r.serving := by
    intro h
    exact ⟨congrArg Prod.fst h, congrArg (·.2.2) h⟩
  cases op with
  | create =>
    rcases heffect with hentered | hstarved
    · exact hsame hentered.served.conditions
    · exact hsame hstarved.conditions
  | beginReadOnly | commit =>
    rcases heffect with hserved | hstarved
    · exact hsame hserved.conditions
    · exact hsame hstarved.conditions
  | recordGlobalCommit id time => rcases heffect with rfl | ⟨-, -⟩ <;> exact ⟨rfl, rfl⟩
  | clock | outage => exact heffect ▸ ⟨rfl, rfl⟩
  | _ => exact hsame (congrArg Prod.snd (Register.Steps.surroundings heffect))

omit [AscendingSource τ] in
theorem Operation.Effect.now (heffect : op.Effect r r') : r'.now = op.clockAfter r.now :=
  heffect.conditions.1

end Effect

/-! ## Runs -/

section New

variable {name : String} {source : τ} {now : UInt64} {settings : TxnSettings}

theorem records_new (id : TxnId) : (new name source now settings).register.records id = none :=
  records_of_isEmpty rfl

theorem recalled_new (id : TxnId) : (new name source now settings).register.recalled id = none :=
  ExpiringCache.remembered?_new settings.completedCapacity.toNat settings.completedLifetime id

theorem faithful_new : (new name source now settings).register.Faithful :=
  fun id _ h => nomatch (recalled_new id).symm.trans h

theorem sound_new [TimestampSource τ] [AscendingSource τ] :
    (new name source now settings).register.Sound where
  known h := nomatch (records_new _).symm.trans h
  committed h := nomatch (records_new _).symm.trans h
  ordered h := nomatch (records_new _).symm.trans h
  recalled h := nomatch (recalled_new _).symm.trans h

theorem plain_new [TimestampSource τ] [AscendingSource τ] :
    (new name source now settings).register.Plain where
  sound := sound_new
  faithful := faithful_new
  root h := nomatch (records_new _).symm.trans h

end New

section Run

variable [TimestampSource τ] {s : Ledger τ} {ops : List Operation}

@[simp] theorem run_cons (s : Ledger τ) (op : Operation) (ops : List Operation) :
    run s (op :: ops) = run (s.after op) ops := rfl

theorem run_append (s : Ledger τ) (ops later : List Operation) :
    run s (ops ++ later) = run (run s ops) later :=
  List.foldl_append

/-- The source is known to ascend at every request of the run. For a source that never wraps this
holds of every run. -/
def Supplied [AscendingSource τ] : Ledger τ → List Operation → Prop
  | _, [] => True
  | s, op :: ops => op.Supplied s.register ∧ Supplied (s.after op) ops

/-- A legible, sound ledger with a source that does not wrap in a run. -/
structure Ready [AscendingSource τ] (ops : List Operation) (s : Ledger τ) : Prop where
  legible : s.Legible
  sound : s.register.Sound
  supplied : s.Supplied ops

variable [AscendingSource τ]

theorem Ready.operation_supplied {op : Operation} (h : Ready (op :: ops) s) :
    op.Supplied s.register :=
  h.supplied.1

theorem Ready.effect {op : Operation} (h : Ready (op :: ops) s) :
    op.Effect s.register (s.after op).register :=
  (effect_after h.legible op fun hasks => h.sound.fresh (h.operation_supplied hasks)).2

theorem Ready.after {op : Operation} (h : Ready (op :: ops) s) : Ready ops (s.after op) where
  legible := (effect_after h.legible op fun hasks => h.sound.fresh (h.operation_supplied hasks)).1
  sound := h.effect.sound h.sound h.operation_supplied
  supplied := h.supplied.2

theorem Ample.operation_supplied {op : Operation} (h : s.Ample (op :: ops)) :
    op.Supplied s.register := by
  intro hasks
  rcases h with hrequests | ⟨hsupply, -⟩
  · rw [requests, List.countP_cons_of_pos hasks] at hrequests
    exact Nat.lt_of_lt_of_le (Nat.succ_pos _) hrequests
  · exact hsupply

theorem Ample.after {op : Operation} (h : s.Ample (op :: ops)) (hs : s.Legible)
    (hsound : s.register.Sound) : (s.after op).Ample ops := by
  have hfresh := fun hasks => hsound.fresh (h.operation_supplied hasks)
  have hle := (effect_after hs op hfresh).2.supply_le h.operation_supplied
  rcases h with hrequests | ⟨hsupply, hanswered⟩
  · rw [requests, List.countP_cons] at hrequests
    exact .inl (Nat.le_of_add_le_add_right (Nat.le_trans hrequests hle))
  · refine .inr ⟨?_, hanswered.2⟩
    cases hasks : op.asks with
    | true =>
      have hserved := served_of_answered hs (hsound.fresh hsupply) hasks hanswered.1
      exact hserved.supply_pos hsupply
    | false =>
      rw [hasks] at hle
      exact Nat.lt_of_lt_of_le hsupply hle

theorem Ample.supplied (h : s.Ample ops) (hs : s.Legible) (hsound : s.register.Sound) :
    s.Supplied ops := by
  induction ops generalizing s with
  | nil => trivial
  | cons op ops ih =>
    have heffect := effect_after hs op fun hasks => hsound.fresh (h.operation_supplied hasks)
    exact ⟨h.operation_supplied, ih (h.after hs hsound) heffect.1
      (heffect.2.sound hsound h.operation_supplied)⟩

theorem ready_new_of_supplied {name : String} {source : τ} {now : UInt64} {settings : TxnSettings}
    (hsupplied : Supplied (new name source now settings) ops) :
    Ready ops (new name source now settings) where
  legible _ := .inl rfl
  sound := sound_new
  supplied := hsupplied

theorem ready_new {name : String} {source : τ} {now : UInt64} {settings : TxnSettings}
    (hample : Ample (new name source now settings) ops) :
    Ready ops (new name source now settings) :=
  ready_new_of_supplied (hample.supplied (fun _ => .inl rfl) sound_new)

theorem Ready.run {later : List Operation} (h : Ready (ops ++ later) s) :
    Ready later (s.run ops) := by
  induction ops generalizing s with
  | nil => exact h
  | cons op ops ih => exact ih h.after

theorem Ready.run_whole (h : Ready ops s) : Ready [] (s.run ops) :=
  Ready.run (by rwa [List.append_nil])

/-- Without global commits records only advance. -/
theorem Ready.advances (h : Ready ops s) (hlocal : ∀ op ∈ ops, op.isLocal = true) :
    s.register.Advances (fun _ => True) (s.run ops).register := by
  induction ops generalizing s with
  | nil => exact .refl _ h.sound
  | cons op ops ih =>
    have hop := (h.effect.advances h.sound h.operation_supplied (hlocal op (by simp))).2
    exact (hop.mono fun _ _ => trivial).trans (ih h.after fun other hother =>
      hlocal other (by simp [hother]))

end Run

/-- A new ledger on an oracle at zero. -/
def fromZero (settings : TxnSettings) : Ledger Oracle :=
  new "stratum_txn" ⟨.memory (.startingAt 0), 0, 0, 1000, 0, 0⟩ 1000000 settings

end Mvcc.Ledger

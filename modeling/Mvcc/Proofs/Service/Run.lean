import Mvcc.Proofs.Service.Reading
import Mvcc.Proofs.Service.Settling
import Mvcc.Proofs.Txn.Heartbeat
import Mvcc.Proofs.Txn.Run

/-!
# Runs of an environment

A run is a sequence of operations on an environment, one at a time, and of events around it: the
clock changes, heartbeats fire, storage fails or recovers. A failed operation leaves its partial
effects. The journal of a run lists its writes.
-/

namespace Mvcc.Environment

open TxnM

inductive Operation where
  | begin (isolation : Option Isolation) (additive : Option Bool)
  | view (id : TxnId)
  | write (id : TxnId) (table : String) (constraints : List Constraint) (batch : List Mutation)
  | read (reader : View) (table : String) (row : Bytes)
  | commit (id : TxnId)
  | rollback (id : TxnId)
  | cancel (id : TxnId) (reason : String)
  | resolve (event : ResolveEvent)
  | settle
  | compact (table : String) (row : Bytes)
  /-- The timer advances, and due heartbeats fire. -/
  | elapse (milliseconds : Nat)
  | clock (now : UInt64)
  | expire (id : TxnId)
  | outage (unavailable : Bool)
  /-- The storage of a table becomes unavailable or available. -/
  | tableOutage (table : String) (unavailable : Bool)
  | limit (quota : Option Nat)

namespace Operation

def steps : Operation → TxnM Environment Unit
  | .begin isolation additive => discard <| Environment.begin none isolation additive
  | .view id => discard <| Environment.view id
  | .write id table constraints batch => discard <| Environment.write id table constraints batch
  | .read reader table row => discard <| Environment.read reader table row
  | .commit id => discard <| Environment.commit id
  | .rollback id => Environment.rollback id
  | .cancel id reason => onTended (TendedLedger.cancel id reason)
  | .resolve event => modify (Environment.resolve event)
  | .settle => modify Environment.settle
  | .compact table row => discard <| Environment.compact table row
  | .elapse milliseconds =>
    modify fun env => { env with toTendedLedger := env.toTendedLedger.elapse milliseconds }
  | .clock now => onLedger <| modify fun s => { s with now := now }
  | .expire id => onLedger (Ledger.forget id)
  | .outage unavailable => onLedger <| modify fun s =>
    { s with partition := { s.partition with unavailable := unavailable } }
  | .tableOutage table unavailable => modify fun env =>
    { env with tables :=
        env.tables.put table { env.tables.region table with unavailable := unavailable } }
  | .limit quota => onLedger <| modify fun s => { s with quota := quota }

def asks : Operation → Bool
  | .begin .. | .commit _ => true
  | _ => false

def clockAfter (now : UInt64) : Operation → UInt64
  | .clock later => later
  | _ => now

def entries (env : Environment) : Operation → List Entry
  | .write id table constraints batch => env.entries id table constraints batch
  | _ => []

end Operation

def after (env : Environment) (op : Operation) : Environment :=
  match op.steps env with
  | .ok _ env' => env'
  | .error _ env' => env'

def run (env : Environment) (ops : List Operation) : Environment := ops.foldl after env

/-- What was written in the course of a run, in order. -/
def journal : Environment → List Operation → List Entry
  | _, [] => []
  | env, op :: ops => op.entries env ++ journal (env.after op) ops

def requests (ops : List Operation) : Nat := ops.countP Operation.asks

/-- The clock does not go back in a run that begins at `now`. -/
def Forward : UInt64 → List Operation → Prop
  | _, [] => True
  | now, op :: ops => now ≤ op.clockAfter now ∧ Forward (op.clockAfter now) ops

def Answered : Environment → List Operation → Prop
  | _, [] => True
  | env, op :: ops =>
    (∀ refusal env', op.steps env ≠ .error (.timestamp refusal) env') ∧ Answered (env.after op) ops

/-- The oracle's counter does not wrap in a run: every request is answered, or there are few enough
of them. -/
def Ample (env : Environment) (ops : List Operation) : Prop :=
  requests ops ≤ 2 ^ 63 ∨ Answered env ops

theorem run_append (env : Environment) (ops later : List Operation) :
    run env (ops ++ later) = run (run env ops) later :=
  List.foldl_append

/-! ## Operations with a timestamp -/

variable {env env' : Environment} {op : Operation} {ops : List Operation}

/-- Only the ledger changed, and at most one timestamp was drawn. -/
def Served (env env' : Environment) : Prop :=
  env'.ledger.Legible ∧ env'.tables = env.tables ∧
    env.ledger.register.Served (· = none) env'.ledger.register

/-- Only the ledger changed, and a timestamp was refused. -/
def Starved (env : Environment) (e : TxnError) (env' : Environment) : Prop :=
  env'.ledger.Legible ∧ env'.tables = env.tables ∧
    env.ledger.register.Starved env'.ledger.register ∧ ∃ refusal, e = .timestamp refusal

theorem begin_ends (h : env.ledger.Legible) (hfresh : env.ledger.register.Fresh)
    (isolation : Option Isolation) (additive : Option Bool) :
    Ends (begin none isolation additive) env (fun _ env' => env.Served env')
      fun e env' => env.Served env' ∨ env.Starved e env' := by
  simp only [begin, onLedger, ends_bind, ends_within, ends_get, ends_modify, ends_pure]
  refine (Ledger.create_ends h hfresh none isolation additive).mono ?_ ?_
  · exact fun _ _ h' => ⟨h'.1.1, rfl, h'.1.2.served⟩
  · rintro e s (h' | h')
    · exact .inl ⟨h'.1, rfl, h'.2.served⟩
    · exact .inr ⟨h'.1, rfl, h'.2⟩

theorem commit_ends (h : env.ledger.Legible) (id : TxnId) :
    Ends (commit id) env (fun _ env' => env.Served env')
      fun e env' => env.Served env' ∨ env.Starved e env' := by
  have hserved : ∀ {s : Ledger Oracle}, env.ledger.Served s →
      env.Served { env with ledger := s } := fun h' =>
    ⟨h'.1, rfl, h'.2.mono fun _ hparent => hparent.elim⟩
  unfold commit finish onLedger
  simp only [ends_tryCatch, ends_bind, ends_within, ends_modify, ends_pure, ends_throw]
  refine (Ledger.commit_ends h).mono ?_ ?_
  · exact fun _ _ h' => hserved h'.1
  · rintro e s (h' | h')
    · exact .inl (hserved h')
    · exact .inr ⟨h'.1, rfl, h'.2⟩

theorem asking_ends (h : env.ledger.Legible) (hfresh : env.ledger.register.Fresh)
    (hasks : op.asks = true) :
    Ends op.steps env (fun _ env' => env.Served env')
      fun e env' => env.Served env' ∨ env.Starved e env' := by
  cases op with
  | begin isolation additive =>
    exact ends_map.2 (begin_ends h hfresh isolation additive)
  | commit id => exact ends_map.2 (commit_ends h id)
  | _ => cases hasks

/-! ## Operations without a timestamp -/

theorem rollback_ends (h : env.ledger.Legible) (id : TxnId) :
    Leaves (rollback id) env
      fun env' => env.ledger.Stepped env'.ledger ∧ env'.tables = env.tables := by
  simp only [rollback, finish, onLedger, ends_bind, ends_modify, ends_within]
  exact (Ledger.rollback_ends h).imp fun _ h' => ⟨h', trivial⟩

theorem moves_outage (h : env.store.Sound) (unavailable : Bool) :
    env.store.Moves [] (env.store.withLedger
      { env.ledger with partition := { env.ledger.partition with unavailable := unavailable } }) :=
  ⟨h.ledger, h.tables, World.Step.single
    (.ledger (.meanwhile _ h.world.plain.sound (UInt64.le_refl _) !unavailable)), rfl, rfl⟩

theorem quiet_ends (h : env.store.Sound) (hasks : op.asks = false)
    (hclock : ∀ now, op ≠ .clock now) :
    Leaves op.steps env fun env' => env.store.Moves (op.entries env) env'.store := by
  cases op with
  | begin | commit => cases hasks
  | clock now => exact absurd rfl (hclock now)
  | view id =>
    refine ends_map.2 ((view_ends h.ledger).mono ?_ ?_)
    · exact fun _ _ h' => moves_of_stepped h h'.1.stepped h'.2.1
    · exact fun _ _ h' => moves_of_stepped h h'.1.stepped h'.2
  | write id table constraints batch => exact ends_map.2 (write_ends h constraints batch)
  | read reader table row => exact ends_map.2 (read_ends h reader table row)
  | rollback id =>
    exact (rollback_ends h.ledger id).imp fun _ h' => moves_of_stepped h h'.1 h'.2
  | cancel id reason =>
    have hstepped := TendedLedger.cancel_ends h.ledger id reason
    exact ends_within.2 (hstepped.imp fun _ h' => moves_of_stepped h h' rfl)
  | resolve event => exact resolve_moves h event
  | settle => exact settle_moves h
  | compact table row => exact ends_map.2 (compact_ends h table row)
  | elapse milliseconds => exact moves_of_stepped h (TendedLedger.elapse_stepped h.ledger _) rfl
  | expire id =>
    simp only [Operation.steps, onLedger, ends_within]
    refine (Ledger.forget_ends h.ledger).mono ?_ (fun _ _ h' => h'.elim)
    exact fun _ _ h' => moves_of_stepped h h'.stepped rfl
  | outage unavailable => exact moves_outage h unavailable
  | tableOutage table unavailable => exact Store.moves_withTable h (h.tables table) rfl rfl
  | limit quota => exact moves_of_stepped h (.refl h.ledger) rfl

/-! ## One operation -/

/-- The effect of an operation: it wrote what its journal lists, by steps of the world. -/
structure Effect (env : Environment) (op : Operation) (env' : Environment) : Prop where
  sound : env'.store.Sound
  steps : env.store.world.Steps (op.entries env) env'.store.world
  now : env'.ledger.now = op.clockAfter env.ledger.now
  supply_le : env.ledger.source.supply ≤
    env'.ledger.source.supply + if op.asks then 1 else 0

theorem after_of_ends {p : Environment → Prop}
    (h : Leaves op.steps env p) : p (env.after op) := by
  unfold after
  cases hsteps : op.steps env with
  | ok value env' => exact h.of_ok hsteps
  | error e env' => exact h.of_error hsteps

theorem effect_of_proceeds (h : env.store.Sound) (hlegible : env'.ledger.Legible)
    (htables : env'.tables = env.tables)
    (hproceeds : env.ledger.register.Proceeds (· = none) env'.ledger.register)
    (hentries : op.entries env = []) (hnow : env'.ledger.now = op.clockAfter env.ledger.now)
    (hsupply : env.ledger.source.supply ≤
      env'.ledger.source.supply + if op.asks then 1 else 0) : env.Effect op env' := by
  have hworld : env'.store.world = { env.store.world with register := env'.ledger.register } := by
    rw [store, htables]
    rfl
  have hsteps : env.store.world.Steps [] env'.store.world := by
    rw [hworld]
    exact World.Step.single (.ledger hproceeds)
  refine ⟨⟨hlegible, ?_, hsteps.sound h.world⟩, hentries ▸ hsteps, hnow, hsupply⟩
  rw [store, htables]
  exact h.tables

theorem effect_of_asking (h : env.store.Sound) (hasks : op.asks = true)
    (hsupply : 0 < env.ledger.source.supply) : env.Effect op (env.after op) := by
  have hsound := h.world.plain.sound
  have hentries : op.entries env = [] := by
    cases op with
    | write => cases hasks
    | _ => rfl
  have hclock : op.clockAfter env.ledger.now = env.ledger.now := by
    cases op with
    | clock => cases hasks
    | _ => rfl
  have hproceeds : ∀ {env' : Environment}, env'.ledger.Legible → env'.tables = env.tables →
      env.ledger.register.Proceeds (· = none) env'.ledger.register →
      env'.ledger.now = env.ledger.now →
      env.ledger.source.supply ≤ env'.ledger.source.supply + 1 → env.Effect op env' := by
    intro env' hlegible htables hproceeds hnow hle
    refine effect_of_proceeds h hlegible htables hproceeds hentries (hnow.trans hclock.symm) ?_
    rw [if_pos hasks]
    exact hle
  have hserved : ∀ {env' : Environment}, env.Served env' → env.Effect op env' := by
    rintro env' ⟨hlegible, htables, hserved⟩
    exact hproceeds hlegible htables (hserved.proceeds hsound hsupply)
      (congrArg Prod.fst hserved.conditions)
      (hserved.supply_le hsupply)
  refine after_of_ends ((asking_ends h.ledger (hsound.fresh hsupply) hasks).mono ?_ ?_)
  · exact fun _ _ h' => hserved h'
  · rintro e env' (h' | ⟨hlegible, htables, hstarved, -⟩)
    · exact hserved h'
    · exact hproceeds hlegible htables (hstarved.proceeds _ hsound hsupply)
        (congrArg Prod.fst hstarved.conditions)
        (hstarved.supply_le hsupply)

/-- Every operation has its effect, as long as the clock does not go back and the counter does not
wrap. -/
theorem effect_after (h : env.store.Sound)
    (hforward : env.ledger.now ≤ op.clockAfter env.ledger.now)
    (hsupply : op.asks = true → 0 < env.ledger.source.supply) : env.Effect op (env.after op) := by
  cases hasks : op.asks with
  | true => exact effect_of_asking h hasks (hsupply hasks)
  | false =>
    by_cases hclock : ∃ now, op = .clock now
    · obtain ⟨now, rfl⟩ := hclock
      exact effect_of_proceeds h h.ledger rfl
        (.meanwhile _ h.world.plain.sound hforward env.ledger.register.serving) rfl rfl
        (Nat.le_add_right ..)
    · have hquiet : ∀ now, op ≠ .clock now := fun now hop => hclock ⟨now, hop⟩
      have hclockAfter : op.clockAfter env.ledger.now = env.ledger.now := by
        cases op with
        | clock now => exact absurd rfl (hquiet now)
        | _ => rfl
      have hmoved : ∀ env', env.store.Moves (op.entries env) env'.store → env.Effect op env' := by
        intro env' hmoves
        have hsource : env'.ledger.source = env.ledger.source := hmoves.source
        refine ⟨hmoves.sound h, hmoves.steps, hmoves.now.trans hclockAfter.symm, ?_⟩
        rw [hsource]
        exact Nat.le_add_right ..
      exact after_of_ends ((quiet_ends h hasks hquiet).imp hmoved)

/-! ## The supply of timestamps -/

/-- Before every request the oracle's counter has a value left. -/
def Supplied : Environment → List Operation → Prop
  | _, [] => True
  | env, op :: ops =>
    (op.asks = true → 0 < env.ledger.source.supply) ∧ Supplied (env.after op) ops

theorem supplied_of_requests (h : env.store.Sound) (hforward : Forward env.ledger.now ops)
    (hrequests : requests ops ≤ env.ledger.source.supply) : Supplied env ops := by
  induction ops generalizing env with
  | nil => exact trivial
  | cons op ops ih =>
    obtain ⟨hle, hlater⟩ := hforward
    rw [requests, List.countP_cons] at hrequests
    have hsupply : op.asks = true → 0 < env.ledger.source.supply := by
      intro hasks
      rw [if_pos hasks] at hrequests
      exact Nat.lt_of_lt_of_le (Nat.succ_pos _) hrequests
    have heffect := effect_after h hle hsupply
    refine ⟨hsupply, ih heffect.sound (heffect.now ▸ hlater) ?_⟩
    exact Nat.le_of_add_le_add_right (Nat.le_trans hrequests heffect.supply_le)

theorem supply_pos_of_answered (h : env.store.Sound) (hsupply : 0 < env.ledger.source.supply)
    (hasks : op.asks = true)
    (hanswered : ∀ refusal env', op.steps env ≠ .error (.timestamp refusal) env') :
    0 < (env.after op).ledger.source.supply := by
  have hends := asking_ends h.ledger (h.world.plain.sound.fresh hsupply) hasks
  unfold after
  cases hsteps : op.steps env with
  | ok value env' => exact (hends.of_ok hsteps).2.2.supply_pos hsupply
  | error e env' =>
    rcases hends.of_error hsteps with hserved | ⟨-, -, -, refusal, rfl⟩
    · exact hserved.2.2.supply_pos hsupply
    · exact absurd hsteps (hanswered refusal env')

theorem supplied_of_answered (h : env.store.Sound) (hforward : Forward env.ledger.now ops)
    (hsupply : 0 < env.ledger.source.supply) (hanswered : Answered env ops) :
    Supplied env ops := by
  induction ops generalizing env with
  | nil => exact trivial
  | cons op ops ih =>
    obtain ⟨hclock, hlater⟩ := hforward
    obtain ⟨hanswer, hanswered⟩ := hanswered
    have heffect := effect_after h hclock fun _ => hsupply
    refine ⟨fun _ => hsupply, ih heffect.sound (heffect.now ▸ hlater) ?_ hanswered⟩
    cases hasks : op.asks with
    | true => exact supply_pos_of_answered h hsupply hasks hanswer
    | false =>
      have hle := heffect.supply_le
      rw [hasks] at hle
      exact Nat.lt_of_lt_of_le hsupply hle

theorem supplied_of_ample (h : env.store.Sound) (hforward : Forward env.ledger.now ops)
    (hle : env.ledger.source.counter ≤ Timestamp.greatest) (hample : Ample env ops) :
    Supplied env ops := by
  have hsupply := Oracle.supply_of_le hle
  rcases hample with hrequests | hanswered
  · exact supplied_of_requests h hforward (Nat.le_trans hrequests hsupply)
  · exact supplied_of_answered h hforward (Nat.lt_of_lt_of_le (by decide) hsupply) hanswered

/-! ## Whole runs -/

/-- A prefix of a run preserves the invariant, writes its journal, and leaves the assumptions of the
rest. -/
theorem run_steps {later : List Operation} (h : env.store.Sound)
    (hforward : Forward env.ledger.now (ops ++ later)) (hsupplied : Supplied env (ops ++ later)) :
    (run env ops).store.Sound ∧
      env.store.world.Steps (journal env ops) (run env ops).store.world ∧
      Forward (run env ops).ledger.now later ∧ Supplied (run env ops) later := by
  induction ops generalizing env with
  | nil => exact ⟨h, .refl _, hforward, hsupplied⟩
  | cons op ops ih =>
    obtain ⟨hle, hforward⟩ := hforward
    obtain ⟨hsupply, hsupplied⟩ := hsupplied
    have heffect := effect_after h hle hsupply
    obtain ⟨hsound, hsteps, hrest⟩ := ih heffect.sound (heffect.now ▸ hforward) hsupplied
    exact ⟨hsound, heffect.steps.trans hsteps, hrest⟩

theorem run_steps_whole (h : env.store.Sound) (hforward : Forward env.ledger.now ops)
    (hsupplied : Supplied env ops) :
    (run env ops).store.Sound ∧
      env.store.world.Steps (journal env ops) (run env ops).store.world := by
  rw [← List.append_nil ops] at hforward hsupplied
  obtain ⟨hsound, hsteps, -⟩ := run_steps h hforward hsupplied
  exact ⟨hsound, hsteps⟩

/-! ## The start -/

theorem around_sound (oracle : Oracle) (name : String) (now : UInt64) (settings : TxnSettings) :
    (around oracle name now settings).store.Sound ∧
      (around oracle name now settings).store.world.Reflects [] := by
  refine ⟨⟨fun _ => .inl rfl, fun _ _ _ => ⟨rfl, rfl⟩, Ledger.plain_new, nofun, nofun, nofun⟩, ?_⟩
  exact fun _ _ _ => .inl rfl

theorem start_eq_ok {settings : ServiceSettings} {mark : Mark} {now : UInt64}
    (h : start settings mark now = .ok env) :
    env.store.Sound ∧ env.store.world.Reflects [] ∧ env.ledger.now = now ∧
      env.ledger.source.counter ≤ Timestamp.greatest := by
  simp only [start, Except.bind_eq_ok_iff, Except.mapError_eq_ok_iff] at h
  obtain ⟨_, -, oracle, horacle, ⟨⟩⟩ := h
  obtain ⟨hsound, hreflects⟩ := around_sound oracle ledgerName now settings.txn
  refine ⟨hsound, hreflects, rfl, ?_⟩
  simp only [Oracle.start, Except.bind_eq_ok_iff] at horacle
  obtain ⟨value, -, horacle⟩ := horacle
  by_cases hle : Timestamp.greatest ≤ value
  · rw [if_pos hle] at horacle
    cases horacle
  · rw [if_neg hle] at horacle
    cases horacle
    exact UInt64.le_of_lt (UInt64.not_le.1 hle)

/-- In every run from the start, the tables hold the journal of every transaction that did not roll
back. -/
theorem started_run {settings : ServiceSettings} {mark : Mark} {now : UInt64}
    {later : List Operation} (hstart : start settings mark now = .ok env)
    (hforward : Forward now (ops ++ later)) (hample : Ample env (ops ++ later)) :
    (run env ops).store.Sound ∧ (run env ops).store.world.Reflects (journal env ops) ∧
      Forward (run env ops).ledger.now later ∧ Supplied (run env ops) later := by
  obtain ⟨hsound, hreflects, rfl, hcounter⟩ := start_eq_ok hstart
  obtain ⟨hend, hsteps, hrest⟩ :=
    run_steps hsound hforward (supplied_of_ample hsound hforward hcounter hample)
  have hjournal := hsteps.reflects hreflects
  rw [List.nil_append] at hjournal
  exact ⟨hend, hjournal, hrest⟩

/-- The standing of a transaction in an environment. -/
def standing? (env : Environment) (id : TxnId) : Option Txn :=
  (env.ledger.partition.record? id).map env.ledger.current

theorem started_run_whole {settings : ServiceSettings} {mark : Mark} {now : UInt64}
    (hstart : start settings mark now = .ok env) (hforward : Forward now ops)
    (hample : Ample env ops) :
    (run env ops).store.Sound ∧ (run env ops).store.world.Reflects (journal env ops) := by
  rw [← List.append_nil ops] at hforward hample
  obtain ⟨hsound, hreflects, -⟩ := started_run hstart hforward hample
  exact ⟨hsound, hreflects⟩

/-- The standard service on a mark that nothing was reserved on. -/
def fromZero : Environment :=
  { around ⟨.memory (.startingAt 0), 0, 0, 8192, 0, 0⟩ ledgerName 1000000 .standard with
    queue := some (ResolveQueue.new 4 16384).start }

end Mvcc.Environment

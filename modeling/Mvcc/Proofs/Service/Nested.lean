import Mvcc.Proofs.Service.Applied
import Mvcc.Proofs.Service.Run

/-!
# Nested transactions

Transactions begin below others to any depth, the ledger is used directly, the tables change
arbitrarily, and the service is stopped and restarted. The ledger stays readable and sound
throughout, which suffices to characterise reads of own writes.
-/

namespace Mvcc

namespace Ledger

variable {τ : Type} [TimestampSource τ] [AscendingSource τ] {s s' : Ledger τ}

/-- A ledger that can be read, with a sound register. -/
structure Intact (s : Ledger τ) : Prop where
  legible : s.Legible
  sound : s.register.Sound

theorem Intact.stepped (h : s.Intact) (hstepped : s.Stepped s') : s'.Intact :=
  ⟨hstepped.1, (hstepped.2.proceeds (fun _ => True) h.sound).sound⟩

theorem Intact.served (h : s.Intact) (hsupply : 0 < AscendingSource.supply s.source)
    (hlegible : s'.Legible) {under : Option TxnId → Prop}
    (hserved : s.register.Served under s'.register) : s'.Intact :=
  ⟨hlegible, (hserved.proceeds h.sound hsupply).sound⟩

theorem Intact.starved (h : s.Intact) (hsupply : 0 < AscendingSource.supply s.source)
    (hlegible : s'.Legible) (hstarved : s.register.Starved s'.register) : s'.Intact :=
  ⟨hlegible, (hstarved.proceeds (fun _ => True) h.sound hsupply).sound⟩

theorem Intact.after (h : s.Intact) {op : Operation} (hsupply : op.Supplied s.register) :
    (s.after op).Intact := by
  obtain ⟨hlegible, heffect⟩ :=
    effect_after h.legible op fun hasks => h.sound.fresh (hsupply hasks)
  exact ⟨hlegible, heffect.sound h.sound hsupply⟩

end Ledger

namespace Environment

open TxnM

variable {env : Environment} {op : Operation}

/-! ## Operations of the environment -/

theorem asking_intact (h : env.ledger.Intact) (hsupply : 0 < env.ledger.source.supply)
    (hasks : op.asks = true) : (env.after op).ledger.Intact := by
  have hends := asking_ends h.legible (h.sound.fresh hsupply) hasks
  refine after_of_ends (p := fun env' => env'.ledger.Intact) (hends.mono ?_ ?_)
  · exact fun _ _ h' => h.served hsupply h'.1 h'.2.2
  · rintro e env' (h' | h')
    · exact h.served hsupply h'.1 h'.2.2
    · exact h.starved hsupply h'.1 h'.2.2.1

/-- What asks for no timestamp and changes nothing around the ledger takes steps of it. -/
theorem quiet_stepped (h : env.ledger.Legible) (hasks : op.asks = false)
    (hclock : ∀ now, op ≠ .clock now) (houtage : ∀ unavailable, op ≠ .outage unavailable) :
    Leaves op.steps env fun env' => env.ledger.Stepped env'.ledger := by
  cases op with
  | begin | commit => cases hasks
  | clock now => exact absurd rfl (hclock now)
  | outage unavailable => exact absurd rfl (houtage unavailable)
  | view id =>
    refine ends_map.2 ((view_ends h).mono ?_ ?_)
    · exact fun _ _ h' => h'.1.stepped
    · exact fun _ _ h' => h'.1.stepped
  | write id table constraints batch => exact ends_map.2 (write_stepped h constraints batch)
  | read reader table row =>
    exact ends_map.2 ((read_looked h reader table row).imp fun _ h' => h'.1.stepped)
  | rollback id => exact (rollback_ends h id).imp fun _ h' => h'.1
  | cancel id reason => exact ends_within.2 (TendedLedger.cancel_ends h id reason)
  | resolve event => exact (resolve_looked h event).stepped
  | settle => exact (settle_looked h).stepped
  | compact table row =>
    exact ends_map.2 ((compact_looked h table row).imp fun _ h' => h'.stepped)
  | elapse milliseconds => exact TendedLedger.elapse_stepped h _
  | expire id =>
    simp only [Operation.steps, onLedger, ends_within]
    exact (Ledger.forget_ends h).mono (fun _ _ h' => h'.stepped) fun _ _ h' => h'.elim
  | tableOutage table unavailable => exact .refl h
  | limit quota => exact .refl h

theorem quiet_intact (h : env.ledger.Intact) (hasks : op.asks = false) :
    Leaves op.steps env fun env' => env'.ledger.Intact := by
  by_cases hclock : ∃ now, op = .clock now
  · obtain ⟨now, rfl⟩ := hclock
    exact ⟨h.legible, h.sound.meanwhile now _⟩
  by_cases houtage : ∃ unavailable, op = .outage unavailable
  · obtain ⟨unavailable, rfl⟩ := houtage
    exact ⟨h.legible, h.sound.meanwhile _ _⟩
  exact (quiet_stepped h.legible hasks (fun now hop => hclock ⟨now, hop⟩)
    fun unavailable hop => houtage ⟨unavailable, hop⟩).imp fun _ => h.stepped

theorem intact_after (h : env.ledger.Intact)
    (hsupply : op.asks = true → 0 < env.ledger.source.supply) : (env.after op).ledger.Intact := by
  cases hasks : op.asks with
  | true => exact asking_intact h (hsupply hasks) hasks
  | false => exact after_of_ends (quiet_intact h hasks)

/-! ## Other events -/

/-- What happens to an environment: its own operations, transactions that begin below others, and
what is done to its parts behind its back. -/
inductive Activity where
  | operation (op : Operation)
  | beginBelow (parent : TxnId) (isolation : Option Isolation) (additive : Option Bool)
  /-- An operation on the ledger itself. -/
  | onLedger (op : Ledger.Operation)
  /-- The tables change outside the environment. -/
  | onTables (tables : Tables)
  | shutdown
  /-- A new environment on the same mark and tables. -/
  | restart (settings : ServiceSettings)

namespace Activity

def asks : Activity → Bool
  | .operation op => op.asks
  | .beginBelow .. => true
  | .onLedger op => op.asks
  | _ => false

end Activity

def undergo (env : Environment) : Activity → Environment
  | .operation op => env.after op
  | .beginBelow parent isolation additive =>
    match begin (some parent) isolation additive env with
    | .ok _ env' => env'
    | .error _ env' => env'
  | .onLedger op => { env with ledger := env.ledger.after op }
  | .onTables tables => { env with tables := tables }
  | .shutdown => env.shutdown
  | .restart settings =>
    match env.restart settings with
    | .ok next => next
    | .error _ => env

def live (env : Environment) (acts : List Activity) : Environment := acts.foldl undergo env

/-- Before every request for a timestamp the counter of the oracle has a value left to move on
to. -/
def Provided : Environment → List Activity → Prop
  | _, [] => True
  | env, act :: acts =>
    (act.asks = true → 0 < env.ledger.source.supply) ∧ Provided (env.undergo act) acts

theorem begin_intact (h : env.ledger.Intact) (hsupply : 0 < env.ledger.source.supply)
    (parent : Option TxnId) (isolation : Option Isolation) (additive : Option Bool) :
    Leaves (begin parent isolation additive) env fun env' => env'.ledger.Intact := by
  have hcreate := Ledger.create_ends h.legible (h.sound.fresh hsupply) parent isolation additive
  simp only [begin, Environment.onLedger, ends_bind, ends_within, ends_get, ends_modify, ends_pure]
  refine hcreate.mono ?_ ?_
  · exact fun _ _ h' => h.served hsupply h'.1.1 h'.1.2.served
  · rintro e s (h' | h')
    · exact h.served hsupply h'.1 h'.2.served
    · exact h.starved hsupply h'.1 h'.2.1

theorem start_intact {settings : ServiceSettings} {mark : Mark} {now : UInt64}
    (h : start settings mark now = .ok env) : env.ledger.Intact := by
  obtain ⟨hsound, -⟩ := start_eq_ok h
  exact ⟨hsound.ledger, hsound.world.plain.sound⟩

theorem restart_intact {settings : ServiceSettings} {next : Environment}
    (h : env.restart settings = .ok next) : next.ledger.Intact := by
  obtain ⟨started, hstart, hnext⟩ := Except.bind_eq_ok_iff.1 h
  have hledger : next.ledger = started.ledger := by
    cases hnext
    rfl
  rw [hledger]
  exact start_intact hstart

theorem intact_undergo (h : env.ledger.Intact) {act : Activity}
    (hsupply : act.asks = true → 0 < env.ledger.source.supply) :
    (env.undergo act).ledger.Intact := by
  cases act with
  | operation op => exact intact_after h hsupply
  | beginBelow parent isolation additive =>
    have hbegin := begin_intact h (hsupply rfl) (some parent) isolation additive
    simp only [undergo]
    cases hresult : begin (some parent) isolation additive env with
    | ok began env' => exact hbegin.of_ok hresult
    | error e env' => exact hbegin.of_error hresult
  | onLedger op => exact h.after hsupply
  | onTables tables => exact h
  | shutdown => exact h.stepped (TendedLedger.shutdown_stepped h.legible)
  | restart settings =>
    simp only [undergo]
    cases hrestart : env.restart settings with
    | ok next => exact restart_intact hrestart
    | error fault => exact h

theorem intact_live (h : env.ledger.Intact) {acts : List Activity} (hprovided : Provided env acts) :
    (env.live acts).ledger.Intact := by
  induction acts generalizing env with
  | nil => exact h
  | cons act acts ih =>
    obtain ⟨hsupply, hprovided⟩ := hprovided
    exact ih (intact_undergo h hsupply) hprovided

end Environment

end Mvcc

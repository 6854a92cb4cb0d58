import Mvcc.Proofs.Service.Nested

/-!
# Tracked transactions

A transaction is tracked when it begins. Its heartbeat survives operations on other transactions and
all failures while the transaction is active. The first attempt to finish the transaction stops the
heartbeat, also if the attempt fails.
-/

namespace Mvcc

/-! ## Finished transactions -/

namespace Register

variable {τ : Type} {r r' : Register τ} {id : TxnId}

def Over (r : Register τ) (id : TxnId) : Prop :=
  ∃ txn, r.standing? id = some txn ∧ txn.state.isFinal

theorem Over.of_settles (h : r.Over id) (hsettles : r.Settles r') : r'.Over id := by
  obtain ⟨txn, hstanding, hfinal⟩ := h
  exact ⟨txn, hsettles id txn hstanding hfinal, hfinal⟩

theorem Steps.settles (h : r.Steps r') : r.Settles r' := by
  induction h with
  | refl => exact .refl r
  | tail _ hstep ih => exact ih.trans hstep.settles

theorem over_of_final {txn : Txn} (h : r.records id = some txn) (hfinal : txn.state ≠ .active) :
    r.Over id := by
  refine ⟨txn, ?_, ?_⟩
  · rw [standing?_of_record h, current_of_final hfinal]
  · cases hstate : txn.state with
    | active => exact absurd hstate hfinal
    | committed => rfl
    | rolledBack => rfl

theorem over_of_silent {txn : Txn} (h : r.records id = some txn) (hactive : txn.state = .active)
    (hsilent : r.isSilent txn = true) : r.Over id := by
  refine ⟨{ txn with state := .rolledBack }, ?_, rfl⟩
  rw [standing?_of_record h, current_of_silent hactive hsilent]

end Register

namespace Ledger

open TxnM

variable {τ : Type} {s : Ledger τ} {id : TxnId}

/-- A heartbeat is answered with false only if the transaction is over. -/
theorem keepAlive_over (hs : s.Legible) :
    Ends (keepAlive id) s (fun alive _ => alive = false → s.register.Over id)
      fun _ _ => True := by
  simp only [keepAlive, ends_bind]
  refine (loadExisting_ends hs).mono ?_ fun _ _ _ => trivial
  rintro txn s ⟨rfl, h⟩
  by_cases hactive : txn.state = .active
  · simp only [hactive, ne_eq, not_true_eq_false, if_false, ends_bind, ends_get]
    cases hsilent : s.isSilent txn.keepAlive with
    | true =>
      have hover := Register.over_of_silent (r := s.register) h hactive hsilent
      exact .of_forall (fun _ _ _ _ => hover) fun _ _ _ => trivial
    | false =>
      simp only [Bool.false_eq_true, if_false, ends_bind, ends_get, ends_pure]
      exact .of_forall (fun _ _ _ halive => by cases halive) fun _ _ _ => trivial
  · simp only [hactive, ne_eq, not_false_eq_true, if_true, ends_pure]
    exact fun _ => Register.over_of_final h hactive

/-- The steps led from `s` to a sound ledger whose clock shows `now`. -/
structure Proceeds [TimestampSource τ] [AscendingSource τ] (s : Ledger τ) (now : UInt64)
    (s' : Ledger τ) : Prop where
  legible : s'.Legible
  register : s.register.Proceeds (fun _ => True) s'.register
  now : s'.now = now

section Proceeds

variable [TimestampSource τ] [AscendingSource τ] {s' : Ledger τ}

theorem Proceeds.intact {now : UInt64} (h : s.Proceeds now s') : s'.Intact :=
  ⟨h.legible, h.register.sound⟩

theorem Intact.proceeds_of_stepped (h : s.Intact) (hstepped : s.Stepped s') :
    s.Proceeds s.now s' :=
  ⟨hstepped.1, hstepped.2.proceeds _ h.sound, hstepped.2.now⟩

theorem Intact.proceeds_of_served (h : s.Intact) (hsupply : 0 < AscendingSource.supply s.source)
    (hlegible : s'.Legible) {under : Option TxnId → Prop}
    (hserved : s.register.Served under s'.register) : s.Proceeds s.now s' :=
  ⟨hlegible, (hserved.mono fun _ _ => trivial).proceeds h.sound hsupply,
    congrArg Prod.fst hserved.conditions⟩

theorem Intact.proceeds_of_starved (h : s.Intact) (hsupply : 0 < AscendingSource.supply s.source)
    (hlegible : s'.Legible) (hstarved : s.register.Starved s'.register) : s.Proceeds s.now s' :=
  ⟨hlegible, hstarved.proceeds _ h.sound hsupply, congrArg Prod.fst hstarved.conditions⟩

end Proceeds

end Ledger

namespace TendedLedger

variable {τ : Type} {s : TendedLedger τ} {id : TxnId}

/-- A transaction is tracked unless it is over. -/
def Attends (s : TendedLedger τ) (id : TxnId) : Prop :=
  s.beats.isTracked id = true ∨ s.ledger.register.Over id

theorem beat_attends (hs : s.ledger.Legible) (h : s.Attends id) (time : Nat) (other : TxnId) :
    (s.beat time other).Attends id := by
  have hsettles := (beat_stepped hs time other).2.settles
  rcases h with htracked | hover
  · unfold beat at hsettles ⊢
    have hanswer := @Ledger.keepAlive_over _ s.ledger other hs
    cases hbeat : Ledger.keepAlive other s.ledger with
    | error e ledger => exact .inl (Heartbeats.isTracked_postpone.trans htracked)
    | ok alive ledger =>
      rw [hbeat] at hsettles
      cases alive with
      | true => exact .inl (Heartbeats.isTracked_postpone.trans htracked)
      | false =>
        by_cases hother : other = id
        · subst hother
          exact .inr ((hanswer.of_ok hbeat rfl).of_settles hsettles)
        · exact .inl (by simp [hother, htracked])
  · exact .inr (hover.of_settles hsettles)

theorem elapse_attends (hs : s.ledger.Legible) (h : s.Attends id) (milliseconds : Nat) :
    (s.elapse milliseconds).Attends id := by
  have hkept := elapse_induction (p := fun s' : TendedLedger τ => s'.ledger.Legible ∧ s'.Attends id)
    (fun _ _ h => h) (fun _ time other h => ⟨(beat_stepped h.1 time other).1,
      beat_attends h.1 h.2 time other⟩) ⟨hs, h⟩ milliseconds
  exact hkept.2

theorem isTracked_of_beat {time : Nat} {other : TxnId}
    (h : (s.beat time other).beats.isTracked id = true) : s.beats.isTracked id = true := by
  unfold beat at h
  cases hbeat : Ledger.keepAlive other s.ledger with
  | error e ledger =>
    rw [hbeat] at h
    exact Heartbeats.isTracked_postpone.symm.trans h
  | ok alive ledger =>
    rw [hbeat] at h
    cases alive with
    | true => exact Heartbeats.isTracked_postpone.symm.trans h
    | false =>
      simp only [Heartbeats.isTracked_finish, Bool.and_eq_true] at h
      exact h.2

theorem isTracked_of_elapse {milliseconds : Nat}
    (h : (s.elapse milliseconds).beats.isTracked id = true) : s.beats.isTracked id = true :=
  elapse_induction
    (p := fun s' : TendedLedger τ => s'.beats.isTracked id = true → s.beats.isTracked id = true)
    (fun _ _ h => h) (fun _ _ _ h h' => h (isTracked_of_beat h')) (fun h => h) milliseconds h

end TendedLedger

namespace Environment

open TxnM

variable {env env' : Environment} {op : Operation} {id : TxnId}

/-! ## Frames of heartbeats -/

theorem offerAll_beats (table : String) (row : Bytes) (reported : Bool) (writers : List TxnId) :
    (env.offerAll table row reported writers).beats = env.beats := by
  unfold offerAll
  induction writers generalizing env with
  | nil => rfl
  | cons writer writers ih =>
    rw [List.foldl_cons, ih, offer]
    split
    · rfl
    · split <;> rfl

theorem read_beats (reader : View) (table : String) (row : Bytes) :
    Leaves (read reader table row) env fun env' => env'.beats = env.beats := by
  unfold Leaves Ends read
  cases hanswer : (readRow (env.tables.region table) reader row env.ledger).1.answer with
  | ok value =>
    simp only [hanswer]
    exact offerAll_beats ..
  | error e =>
    simp only [hanswer]
    exact offerAll_beats ..

theorem alter_beats (table : String) (change : Partition → Except StorageError Partition) :
    Leaves (alter table change) env fun env' => env'.beats = env.beats := by
  unfold Leaves Ends alter
  cases change (env.tables.region table) <;> rfl

theorem applyBatch_beats (table : String) (batch : List Mutation) :
    Leaves (applyBatch id table batch) env fun env' => env'.beats = env.beats := by
  induction batch generalizing env with
  | nil => rfl
  | cons m batch ih =>
    simp only [applyBatch, ends_bind]
    refine (alter_beats table _).mono ?_ fun _ _ h => h
    exact fun _ _ h => ih.imp fun _ h' => h'.trans h

theorem check_beats (txn : View) (table : String) (constraints : List Constraint)
    (batch : List Mutation) :
    Leaves (check txn table constraints batch) env fun env' => env'.beats = env.beats := by
  unfold Leaves Ends check
  cases houtcome : (checkBatch ⟨constraints, (env.tables.region table).history⟩ txn batch
    env.ledger).1.outcome txn.id <;> simp only [houtcome]

theorem onLedger_beats {α : Type} (steps : TxnM (Ledger Oracle) α) :
    Leaves (onLedger steps) env fun env' => env'.beats = env.beats :=
  ends_within.2 (.of_forall (fun _ _ _ => rfl) fun _ _ _ => rfl)

theorem write_beats (table : String) (constraints : List Constraint) (batch : List Mutation) :
    Leaves (write id table constraints batch) env fun env' => env'.beats = env.beats := by
  simp only [write, view, ends_bind]
  refine (onLedger_beats _).mono ?_ fun _ _ h => h
  intro txn env₁ h₁
  refine (check_beats txn table constraints batch).mono ?_ fun _ _ h => h.trans h₁
  intro outcome env₂ h₂
  split
  · simp only [ends_bind]
    refine (applyBatch_beats table batch).mono ?_ fun _ _ h => h.trans (h₂.trans h₁)
    intro _ env₃ h₃
    exact (onLedger_beats _).imp fun _ h => h.trans (h₃.trans (h₂.trans h₁))
  · exact h₂.trans h₁

theorem settle_beats : env.settle.beats = env.beats := by
  unfold settle
  split <;> rfl

/-! ## Runs -/

/-- An operation or an event of an environment before its shutdown. -/
inductive Turn where
  | operation (op : Operation)
  | beginBelow (parent : TxnId) (isolation : Option Isolation) (additive : Option Bool)
  /-- The durable mark changes. -/
  | keepMark (mark : Mark)

namespace Turn

def begin (parent : Option TxnId) (isolation : Option Isolation) (additive : Option Bool) : Turn :=
  match parent with
  | none => .operation (.begin isolation additive)
  | some parent => .beginBelow parent isolation additive

def steps : Turn → TxnM Environment Unit
  | .operation op => op.steps
  | .beginBelow parent isolation additive =>
    discard <| Environment.begin (some parent) isolation additive
  | .keepMark mark =>
    onLedger <| modify fun s => { s with source := { s.source with mark := mark } }

def asks : Turn → Bool
  | .operation op => op.asks
  | .beginBelow .. => true
  | .keepMark _ => false

def clockAfter (now : UInt64) : Turn → UInt64
  | .operation op => op.clockAfter now
  | _ => now

/-- Whether a turn attempts to bring a transaction to an end. -/
def finishes (id : TxnId) : Turn → Bool
  | .operation (.commit other) | .operation (.rollback other) | .operation (.cancel other _) =>
    other = id
  | _ => false

theorem begin_steps (parent : Option TxnId) (isolation : Option Isolation)
    (additive : Option Bool) :
    (begin parent isolation additive).steps =
      discard (Environment.begin parent isolation additive) := by
  cases parent <;> rfl

def Forward : UInt64 → List Turn → Prop
  | _, [] => True
  | now, turn :: turns => now ≤ turn.clockAfter now ∧ Forward (turn.clockAfter now) turns

instance Forward.decidable : (now : UInt64) → (turns : List Turn) → Decidable (Forward now turns)
  | _, [] => .isTrue trivial
  | now, turn :: turns =>
    have := decidable (turn.clockAfter now) turns
    inferInstanceAs (Decidable (now ≤ turn.clockAfter now ∧ Forward (turn.clockAfter now) turns))

end Turn

def follow (env : Environment) (turn : Turn) : Environment :=
  match turn.steps env with
  | .ok _ env' => env'
  | .error _ env' => env'

def course (env : Environment) (turns : List Turn) : Environment := turns.foldl follow env

def Turn.Supplied : Environment → List Turn → Prop
  | _, [] => True
  | env, turn :: turns =>
    (turn.asks = true → 0 < env.ledger.source.supply) ∧ Supplied (env.follow turn) turns

variable {turn : Turn} {turns : List Turn}

theorem follow_of_ends {p : Environment → Prop} (h : Leaves turn.steps env p) :
    p (env.follow turn) := by
  unfold follow
  cases hsteps : turn.steps env with
  | ok value env' => exact h.of_ok hsteps
  | error e env' => exact h.of_error hsteps

theorem course_append (env : Environment) (turns later : List Turn) :
    env.course (turns ++ later) = (env.course turns).course later :=
  List.foldl_append

/-! ## One turn -/

/-- The effect of a turn on the heartbeat of a transaction. -/
structure Tends (turn : Turn) (env env' : Environment) (id : TxnId) : Prop where
  proceeds : env.ledger.Proceeds (turn.clockAfter env.ledger.now) env'.ledger
  stops (h : turn.finishes id = true) : env'.beats.isTracked id = false
  attends (h : turn.finishes id = false) (hattends : env.Attends id) : env'.Attends id
  /-- No earlier transaction becomes tracked again. -/
  tracked (hrecord : (env.ledger.register.records id).isSome)
    (h : env'.beats.isTracked id = true) : env.beats.isTracked id = true

theorem tends_of_beats (hfinishes : turn.finishes id = false)
    (hproceeds : env.ledger.Proceeds (turn.clockAfter env.ledger.now) env'.ledger)
    (hbeats : env'.beats = env.beats) : Tends turn env env' id where
  proceeds := hproceeds
  stops h := by cases h.symm.trans hfinishes
  attends _ h := by
    rcases h with htracked | hover
    · exact .inl (by rw [hbeats]; exact htracked)
    · exact .inr (hover.of_settles hproceeds.register.settles)
  tracked _ h := by rwa [hbeats] at h

/-- An attempt to finish `other` stops its heartbeat and no other. -/
theorem tends_of_finish {other : TxnId} (hfinishes : ∀ id, turn.finishes id = decide (other = id))
    (hproceeds : env.ledger.Proceeds (turn.clockAfter env.ledger.now) env'.ledger)
    (hbeats : ∀ id, env'.beats.isTracked id = (decide (other ≠ id) && env.beats.isTracked id)) :
    Tends turn env env' id where
  proceeds := hproceeds
  stops h := by
    rw [hfinishes, decide_eq_true_eq] at h
    simp [hbeats, h]
  attends h hattends := by
    rw [hfinishes, decide_eq_false_iff_not] at h
    rcases hattends with htracked | hover
    · exact .inl (by simp [hbeats, h, htracked])
    · exact .inr (hover.of_settles hproceeds.register.settles)
  tracked _ h := by
    rw [hbeats, Bool.and_eq_true] at h
    exact h.2

theorem tends_of_schedule {began : TxnId} (hfinishes : turn.finishes id = false)
    (hproceeds : env.ledger.Proceeds (turn.clockAfter env.ledger.now) env'.ledger)
    (hnew : env.ledger.register.records began = none)
    (hbeats : env'.beats = (env.beats.schedule began).2) : Tends turn env env' id where
  proceeds := hproceeds
  stops h := by cases h.symm.trans hfinishes
  attends _ h := by
    rcases h with htracked | hover
    · exact .inl (by simp [hbeats, htracked])
    · exact .inr (hover.of_settles hproceeds.register.settles)
  tracked hrecord h := by
    have hne : began ≠ id := by
      rintro rfl
      simp [hnew] at hrecord
    simpa [hbeats, hne] using h

theorem begin_starts (h : env.ledger.Intact) (hsupply : 0 < env.ledger.source.supply)
    (parent : Option TxnId) (isolation : Option Isolation) (additive : Option Bool) :
    Ends (begin parent isolation additive) env
      (fun began env' => env.ledger.Proceeds env.ledger.now env'.ledger ∧
        env.ledger.register.records began.1.id = none ∧
        (env'.ledger.register.records began.1.id).isSome ∧
        env'.beats = (env.beats.schedule began.1.id).2)
      fun _ env' => env.ledger.Proceeds env.ledger.now env'.ledger ∧ env'.beats = env.beats := by
  have hfresh := h.sound.fresh hsupply
  have hcreate := (Ledger.create_ends h.legible hfresh parent isolation additive).and
    (Ledger.create_begins h.legible hfresh parent isolation additive)
  simp only [begin, onLedger, ends_bind, ends_within, ends_get, ends_modify, ends_pure]
  refine hcreate.mono ?_ ?_
  · rintro txn s ⟨⟨⟨hlegible, hentered⟩, hrecord, -⟩, -, r, source, hremembers, hdraw, -⟩
    refine ⟨h.proceeds_of_served hsupply hlegible hentered.served, ?_, ?_, trivial⟩
    · rw [hremembers.1] at hdraw
      exact hfresh txn.id source hdraw
    · exact Option.isSome_iff_exists.2 ⟨txn, hrecord⟩
  · rintro e s ⟨hfailed | hfailed, -⟩
    · exact ⟨h.proceeds_of_served hsupply hfailed.1 hfailed.2.served, trivial⟩
    · exact ⟨h.proceeds_of_starved hsupply hfailed.1 hfailed.2.1, trivial⟩

theorem begin_tends (h : env.ledger.Intact) (hsupply : 0 < env.ledger.source.supply)
    (parent : Option TxnId) (isolation : Option Isolation) (additive : Option Bool) :
    Leaves (Turn.begin parent isolation additive).steps env fun env' =>
      Tends (Turn.begin parent isolation additive) env env' id := by
  have hfinishes : (Turn.begin parent isolation additive).finishes id = false := by
    cases parent <;> rfl
  have hclock : (Turn.begin parent isolation additive).clockAfter env.ledger.now =
      env.ledger.now := by
    cases parent <;> rfl
  rw [Turn.begin_steps]
  refine ends_map.2 ((begin_starts h hsupply parent isolation additive).mono ?_ ?_)
  · rintro began env' ⟨hproceeds, hnew, -, hbeats⟩
    exact tends_of_schedule hfinishes (by rwa [hclock]) hnew hbeats
  · rintro e env' ⟨hproceeds, hbeats⟩
    exact tends_of_beats hfinishes (by rwa [hclock]) hbeats

theorem commit_tends (h : env.ledger.Intact) (hsupply : 0 < env.ledger.source.supply)
    (other : TxnId) :
    Leaves (Operation.commit other).steps env fun env' =>
      Tends (.operation (.commit other)) env env' id := by
  have htends : ∀ s, env.ledger.Proceeds env.ledger.now s →
      Tends (.operation (.commit other)) env
        { env with ledger := s, beats := env.beats.finish other } id :=
    fun s hproceeds => tends_of_finish (fun _ => rfl) hproceeds fun _ => Heartbeats.isTracked_finish
  refine ends_map.2 ?_
  unfold commit finish onLedger
  simp only [ends_tryCatch, ends_bind, ends_within, ends_modify, ends_pure, ends_throw]
  refine (Ledger.commit_ends h.legible).mono ?_ ?_
  · exact fun _ s h' => htends s (h.proceeds_of_served hsupply h'.1.1 h'.1.2)
  · rintro e s (h' | h')
    · exact htends s (h.proceeds_of_served hsupply h'.1 h'.2)
    · exact htends s (h.proceeds_of_starved hsupply h'.1 h'.2.1)

theorem rollback_tends (h : env.ledger.Intact) (other : TxnId) :
    Leaves (Operation.rollback other).steps env fun env' =>
      Tends (.operation (.rollback other)) env env' id := by
  simp only [Operation.steps, rollback, finish, onLedger, ends_bind, ends_modify, ends_within]
  refine (Ledger.rollback_ends h.legible).imp fun s h' => ?_
  exact tends_of_finish (fun _ => rfl) (h.proceeds_of_stepped h')
    fun _ => Heartbeats.isTracked_finish

theorem cancel_tends (h : env.ledger.Intact) (other : TxnId) (reason : String) :
    Leaves (Operation.cancel other reason).steps env fun env' =>
      Tends (.operation (.cancel other reason)) env env' id := by
  simp only [Operation.steps, onTended, TendedLedger.cancel, ends_within, ends_bind, ends_modify]
  refine (Ledger.rollback_ends h.legible).imp fun s h' => ?_
  exact tends_of_finish (fun _ => rfl) (h.proceeds_of_stepped h')
    fun _ => Heartbeats.isTracked_announce

theorem elapse_tends (h : env.ledger.Intact) (milliseconds : Nat) :
    Leaves (Operation.elapse milliseconds).steps env fun env' =>
      Tends (.operation (.elapse milliseconds)) env env' id where
  proceeds := h.proceeds_of_stepped (TendedLedger.elapse_stepped h.legible milliseconds)
  stops hfinishes := nomatch hfinishes
  attends _ hattends := TendedLedger.elapse_attends h.legible hattends milliseconds
  tracked _ := TendedLedger.isTracked_of_elapse

theorem meanwhile_proceeds (h : env.ledger.Intact) {s : Ledger Oracle} {now : UInt64}
    (hnow : env.ledger.now ≤ now) {serving : Bool} (hlegible : s.Legible)
    (hregister : s.register = env.ledger.register.meanwhile now serving) :
    env.ledger.Proceeds now s where
  legible := hlegible
  register := hregister ▸ .meanwhile _ h.sound hnow serving
  now := congrArg Register.now hregister

theorem keepMark_tends (h : env.ledger.Intact) (mark : Mark) :
    Leaves (Turn.keepMark mark).steps env fun env' => Tends (.keepMark mark) env env' id := by
  have hregister : env.ledger.register.Proceeds (fun _ => True)
      (env.ledger.register.withSource { env.ledger.source with mark := mark }) :=
    ⟨h.sound.withSource (UInt64.le_refl _), .of_records _ h.sound rfl (UInt64.le_refl _),
      .refl _, fun h => h⟩
  exact tends_of_beats rfl ⟨h.legible, hregister, rfl⟩ rfl

theorem calm_tends (h : env.ledger.Intact) (hasks : op.asks = false)
    (hclock : ∀ now, op ≠ .clock now) (houtage : ∀ unavailable, op ≠ .outage unavailable)
    (hnow : op.clockAfter env.ledger.now = env.ledger.now)
    (hfinishes : (Turn.operation op).finishes id = false)
    (hbeats : Leaves op.steps env fun env' => env'.beats = env.beats) :
    Leaves op.steps env fun env' => Tends (.operation op) env env' id := by
  have htends : ∀ env', env.ledger.Stepped env'.ledger → env'.beats = env.beats →
      Tends (.operation op) env env' id := by
    intro env' hstepped hbeats
    have hclockAfter : (Turn.operation op).clockAfter env.ledger.now = env.ledger.now := hnow
    refine tends_of_beats hfinishes ?_ hbeats
    rw [hclockAfter]
    exact h.proceeds_of_stepped hstepped
  exact ((quiet_stepped h.legible hasks hclock houtage).and hbeats).mono
    (fun _ env' h' => htends env' h'.1 h'.2) fun _ env' h' => htends env' h'.1 h'.2

theorem operation_tends (h : env.ledger.Intact)
    (hforward : env.ledger.now ≤ op.clockAfter env.ledger.now)
    (hsupply : op.asks = true → 0 < env.ledger.source.supply) :
    Leaves op.steps env fun env' => Tends (.operation op) env env' id := by
  cases op with
  | begin isolation additive => exact begin_tends h (hsupply rfl) none isolation additive
  | commit other => exact commit_tends h (hsupply rfl) other
  | rollback other => exact rollback_tends h other
  | cancel other reason => exact cancel_tends h other reason
  | elapse milliseconds => exact elapse_tends h milliseconds
  | clock now =>
    exact tends_of_beats rfl (meanwhile_proceeds h hforward h.legible rfl) rfl
  | outage unavailable =>
    exact tends_of_beats rfl (meanwhile_proceeds h (UInt64.le_refl _) h.legible rfl) rfl
  | view other => exact calm_tends h rfl nofun nofun rfl rfl (ends_map.2 (onLedger_beats _))
  | write other table constraints batch =>
    exact calm_tends h rfl nofun nofun rfl rfl (ends_map.2 (write_beats table constraints batch))
  | read reader table row =>
    exact calm_tends h rfl nofun nofun rfl rfl (ends_map.2 (read_beats reader table row))
  | resolve event => exact calm_tends h rfl nofun nofun rfl rfl rfl
  | settle => exact calm_tends h rfl nofun nofun rfl rfl settle_beats
  | compact table row =>
    refine calm_tends h rfl nofun nofun rfl rfl (ends_map.2 (ends_within.2 ?_))
    exact .of_forall (fun _ _ _ => rfl) fun _ _ _ => rfl
  | expire other => exact calm_tends h rfl nofun nofun rfl rfl (onLedger_beats _)
  | tableOutage table unavailable => exact calm_tends h rfl nofun nofun rfl rfl rfl
  | limit quota => exact calm_tends h rfl nofun nofun rfl rfl (onLedger_beats _)

/-- Every turn has its effect on heartbeats, as long as the clock does not go back and the counter
does not wrap. -/
theorem follow_tends (h : env.ledger.Intact)
    (hforward : env.ledger.now ≤ turn.clockAfter env.ledger.now)
    (hsupply : turn.asks = true → 0 < env.ledger.source.supply) (id : TxnId) :
    Tends turn env (env.follow turn) id := by
  refine follow_of_ends (p := fun env' => Tends turn env env' id) ?_
  cases turn with
  | operation op => exact operation_tends h hforward hsupply
  | beginBelow parent isolation additive =>
    exact begin_tends h (hsupply rfl) (some parent) isolation additive
  | keepMark mark => exact keepMark_tends h mark

/-! ## Whole runs -/

theorem course_intact {later : List Turn} (h : env.ledger.Intact)
    (hforward : Turn.Forward env.ledger.now (turns ++ later))
    (hsupplied : Turn.Supplied env (turns ++ later)) :
    (env.course turns).ledger.Intact ∧ Turn.Forward (env.course turns).ledger.now later ∧
      Turn.Supplied (env.course turns) later := by
  induction turns generalizing env with
  | nil => exact ⟨h, hforward, hsupplied⟩
  | cons turn turns ih =>
    have hproceeds := (follow_tends h hforward.1 hsupplied.1 0).proceeds
    exact ih hproceeds.intact (hproceeds.now ▸ hforward.2) hsupplied.2

/-- Without an attempt to finish it, a transaction is tracked or over. -/
theorem course_attends (h : env.ledger.Intact) (hforward : Turn.Forward env.ledger.now turns)
    (hsupplied : Turn.Supplied env turns) (hattends : env.Attends id)
    (hfinishes : ∀ turn ∈ turns, turn.finishes id = false) : (env.course turns).Attends id := by
  induction turns generalizing env with
  | nil => exact hattends
  | cons turn turns ih =>
    have htends := follow_tends h hforward.1 hsupplied.1 id
    refine ih htends.proceeds.intact (htends.proceeds.now ▸ hforward.2) hsupplied.2 ?_ ?_
    · exact htends.attends (hfinishes turn List.mem_cons_self) hattends
    · exact fun turn hturn => hfinishes turn (List.mem_cons_of_mem _ hturn)

/-- After an attempt to finish it, a transaction is not tracked. -/
theorem course_untracked (h : env.ledger.Intact) (hforward : Turn.Forward env.ledger.now turns)
    (hsupplied : Turn.Supplied env turns)
    (hrecord : (env.ledger.register.records id).isSome)
    (huntracked : env.beats.isTracked id = false ∨ ∃ turn ∈ turns, turn.finishes id = true) :
    (env.course turns).beats.isTracked id = false := by
  induction turns generalizing env with
  | nil => exact huntracked.resolve_right fun ⟨turn, hturn, _⟩ => nomatch hturn
  | cons turn turns ih =>
    have htends := follow_tends h hforward.1 hsupplied.1 id
    obtain ⟨txn, hrecord'⟩ := Option.isSome_iff_exists.1 hrecord
    obtain ⟨txn', hkept, -⟩ := htends.proceeds.register.advances.endures id txn hrecord'
    refine ih htends.proceeds.intact (htends.proceeds.now ▸ hforward.2) hsupplied.2
      (Option.isSome_iff_exists.2 ⟨txn', hkept⟩) ?_
    by_cases hfinishes : turn.finishes id = true
    · exact .inl (htends.stops hfinishes)
    · rcases huntracked with huntracked | ⟨finishing, hmem, hfinishing⟩
      · refine .inl (Bool.eq_false_iff.2 fun htracked => ?_)
        rw [htends.tracked hrecord htracked] at huntracked
        cases huntracked
      · rcases List.mem_cons.1 hmem with rfl | hlater
        · exact absurd hfinishing hfinishes
        · exact .inr ⟨finishing, hlater, hfinishing⟩

/-- In every run from the start in which the clock does not go back, with any failures: a
transaction that was begun and is still active is tracked exactly if no commit, rollback or
cancellation of it was attempted, successful or not. -/
theorem isTracked_iff (settings : ServiceSettings) (mark : Mark) (now : UInt64)
    (env began : Environment) (before later : List Turn) (parent : Option TxnId)
    (isolation : Option Isolation) (additive : Option Bool) (txn stored : Txn) (watch : Nat)
    (hstart : start settings mark now = .ok env)
    (hforward : Turn.Forward now (before ++ .begin parent isolation additive :: later))
    (hsupplied : Turn.Supplied env (before ++ .begin parent isolation additive :: later))
    (hbegin : begin parent isolation additive (env.course before) = .ok (txn, watch) began)
    (hstored : (env.course (before ++ .begin parent isolation additive :: later)).standing? txn.id =
      some stored) (hactive : stored.state = .active) :
    (env.course (before ++ .begin parent isolation additive :: later)).beats.isTracked txn.id =
      true ↔ ∀ turn ∈ later, turn.finishes txn.id = false := by
  obtain ⟨hsound, -, rfl, -⟩ := start_eq_ok hstart
  obtain ⟨hintact, hforward, hsupplied⟩ :=
    course_intact ⟨hsound.ledger, hsound.world.plain.sound⟩ hforward hsupplied
  have hbegan : (env.course before).follow (.begin parent isolation additive) = began := by
    refine follow_of_ends (p := (· = began)) ?_
    rw [Turn.begin_steps]
    refine ends_map.2 (.of_forall ?_ ?_)
    · intro _ env' hresult
      cases hbegin.symm.trans hresult
      rfl
    · intro _ env' hresult
      cases hbegin.symm.trans hresult
  have hcourse : env.course (before ++ .begin parent isolation additive :: later) =
      began.course later := by
    rw [course_append, ← hbegan]
    rfl
  have hsupply : 0 < (env.course before).ledger.source.supply :=
    hsupplied.1 (by cases parent <;> rfl)
  obtain ⟨hproceeds, -, hrecord, hbeats⟩ :=
    (begin_starts hintact hsupply parent isolation additive).of_ok hbegin
  have hclock : (Turn.begin parent isolation additive).clockAfter
      (env.course before).ledger.now = began.ledger.now := by
    rw [hproceeds.now]
    cases parent <;> rfl
  have hforward := hclock ▸ hforward.2
  have hsupplied := hbegan ▸ hsupplied.2
  rw [hcourse] at hstored ⊢
  constructor
  · intro htracked turn hturn
    refine Bool.eq_false_iff.2 fun hfinishes => ?_
    rw [course_untracked hproceeds.intact hforward hsupplied hrecord
      (.inr ⟨turn, hturn, hfinishes⟩)] at htracked
    cases htracked
  · intro hfinishes
    have hattends : began.Attends txn.id := .inl (by simp [hbeats])
    rcases course_attends hproceeds.intact hforward hsupplied hattends hfinishes with
      htracked | ⟨found, hfound, hfinal⟩
    · exact htracked
    · have hstanding : (began.course later).ledger.register.standing? txn.id = some stored :=
        hstored
      cases hstanding.symm.trans hfound
      simp [TxnState.isFinal, hactive] at hfinal

/-- Another transaction fails to roll back, and heartbeats fail while the storage takes no more
writes. -/
@[irreducible] def throughOutage : List Turn :=
  [.operation (.limit (some 0)), .operation (.rollback 1), .operation (.elapse 20000),
    .operation (.clock 1020000), .operation (.limit none),
    .operation (.write 2 "accounts" [] [⟨.upsert, [1], [97]⟩])]

theorem isTracked_throughOutage :
    ∃ txn watch began stored,
      begin none none none (fromZero.course [.begin none none none]) = .ok (txn, watch) began ∧
      (fromZero.course ([.begin none none none] ++ .begin none none none ::
        throughOutage)).standing? txn.id = some stored ∧ stored.state = .active ∧
      (fromZero.course ([.begin none none none] ++ .begin none none none ::
        throughOutage)).beats.isTracked txn.id = true := by
  have hbegins : Ends (begin none none none) (fromZero.course [.begin none none none])
      (fun began _ => began.1.id = 2) fun _ _ => False := by decide +kernel
  obtain ⟨⟨txn, watch⟩, began, hbegin, hid⟩ := hbegins.exists_ok
  have hstate : ((fromZero.course ([.begin none none none] ++ .begin none none none ::
      throughOutage)).standing? 2).map Txn.state = some .active := by decide +kernel
  obtain ⟨stored, hstored, hactive⟩ := Option.map_eq_some_iff.1 hstate
  have hforward : Turn.Forward 1000000
      ([.begin none none none] ++ .begin none none none :: throughOutage) := by
    unfold throughOutage
    decide
  have hsupplied : Turn.Supplied fromZero
      ([.begin none none none] ++ .begin none none none :: throughOutage) := by
    unfold throughOutage
    exact ⟨fun _ => by decide, fun _ => by decide +kernel, nofun, nofun, nofun, nofun, nofun, nofun,
      trivial⟩
  have hfinishes : ∀ turn ∈ throughOutage, turn.finishes 2 = false := by
    unfold throughOutage
    decide
  rw [← hid] at hstored hfinishes
  exact ⟨txn, watch, began, stored, hbegin, hstored, hactive,
    (isTracked_iff .standard (.memory (.startingAt 0)) 1000000 fromZero began
      [.begin none none none] throughOutage none none none txn stored watch rfl hforward hsupplied
      hbegin hstored hactive).2 hfinishes⟩

/-- A service that reserves every timestamp by itself. -/
def stepwise : Environment :=
  { fromZero with ledger.source := ⟨.memory (.startingAt 0), 0, 0, 1, 0, 0⟩ }

/-- The commit of a transaction fails, since the mark cannot be stored. The transaction is still
active and its commit can be retried, but no heartbeat keeps it alive. -/
theorem not_isTracked_after_failedCommit :
    let failing : List Turn := [.begin none none none, .keepMark (.memory ⟨1, true, 1⟩)]
    let turns : List Turn :=
      failing ++ [.operation (.commit 1), .keepMark (.memory ⟨1, false, 1⟩)]
    start { ServiceSettings.standard with oracle.blockSize := 1 } (.memory (.startingAt 0))
        1000000 = .ok stepwise ∧
      Ends (commit 1) (stepwise.course failing) (fun _ _ => False)
        (fun e _ => e = .timestamp (.persistence .storeDisabled)) ∧
      ((stepwise.course turns).standing? 1).map Txn.state = some .active ∧
      (stepwise.course turns).beats.isTracked 1 = false := by
  refine ⟨rfl, ?_, ?_, ?_⟩
  · decide +kernel
  · decide +kernel
  · decide +kernel

end Environment

end Mvcc

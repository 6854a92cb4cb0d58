import Mathlib.Logic.Relation
import Mvcc.Proofs.Clock.Ascending
import Mvcc.Proofs.Txn.Slots
import Mvcc.Txn.Ledger

/-!
# Registers

A register is the abstract state of a ledger: its records, its cache, the source of timestamps and
the clock. Every operation of a ledger is a sequence of steps of its register.
-/

namespace Mvcc

def Txn.entered (time : Timestamp) (keepAlive : UInt64) (parent : Option TxnId)
    (isolation : Option Isolation) (additive : Option Bool) : Txn :=
  { Txn.new time time keepAlive with parent, isolation, additive }

/-- Records by id, with what silence is measured against. -/
structure Register (τ : Type) where
  records : TxnId → Option Txn
  recalled : TxnId → Option Txn
  source : τ
  now : UInt64
  settings : TxnSettings
  serving : Bool

namespace Register

variable {τ : Type}

def isSilent (r : Register τ) (txn : Txn) : Bool :=
  Word.addCapped r.settings.timeout r.settings.timeoutSlack < Word.subFloored r.now txn.keepAlive

/-- The record once silence is counted as a rollback. -/
def current (r : Register τ) (txn : Txn) : Txn :=
  { txn with state := if txn.state = .active ∧ r.isSilent txn then .rolledBack else txn.state }

/-- The current standing of a transaction. -/
def standing? (r : Register τ) (id : TxnId) : Option Txn := (r.records id).map r.current

/-- A look-up of `id` may answer with `txn`. -/
def Answers (r : Register τ) (id : TxnId) (txn : Txn) : Prop :=
  r.recalled id = some txn ∨ r.standing? id = some txn

/-- A transaction is stored as committed, and `time` is the commit time it answers. -/
def CommittedAt (r : Register τ) (id : TxnId) (time : Timestamp) : Prop :=
  ∃ txn, r.records id = some txn ∧ txn.state = .committed ∧
    (txn.commitTime <|> txn.globalCommitTime) = some time

def put (r : Register τ) (id : TxnId) (txn : Txn) : Register τ :=
  { r with records := fun other => if other = id then some txn else r.records other }

def withSource (r : Register τ) (source : τ) : Register τ := { r with source := source }

/-- The register with the clock at `now` and the given availability of storage. -/
def meanwhile (r : Register τ) (now : UInt64) (serving : Bool) : Register τ :=
  { r with now := now, serving := serving }

/-! ## Silence -/

theorem current_of_live {r : Register τ} {txn : Txn} (h : r.isSilent txn = false) :
    r.current txn = txn := by
  simp [current, h]

theorem current_of_final {r : Register τ} {txn : Txn} (h : txn.state ≠ .active) :
    r.current txn = txn := by
  simp [current, h]

theorem current_of_silent {r : Register τ} {txn : Txn} (hactive : txn.state = .active)
    (h : r.isSilent txn = true) : r.current txn = { txn with state := .rolledBack } := by
  simp [current, hactive, h]

@[simp] theorem current_commitTime (r : Register τ) (txn : Txn) :
    (r.current txn).commitTime = txn.commitTime := rfl

/-- The timeout does not make a transaction committed. -/
theorem current_committed_iff {r : Register τ} {txn : Txn} :
    (r.current txn).state = .committed ↔ txn.state = .committed := by
  unfold current
  split
  · rename_i h
    simp [h.1]
  · exact Iff.rfl

/-- A transaction is active exactly if it is stored so and not silent. -/
theorem current_active_iff {r : Register τ} {txn : Txn} :
    (r.current txn).state = .active ↔ txn.state = .active ∧ r.isSilent txn = false := by
  unfold current
  by_cases hactive : txn.state = .active
  · cases hsilent : r.isSilent txn <;> simp [hactive]
  · simp [hactive]

theorem isSilent_meanwhile {r : Register τ} {now : UInt64} (hnow : r.now ≤ now) (serving : Bool)
    {txn : Txn} (h : r.isSilent txn = true) : (r.meanwhile now serving).isSilent txn = true := by
  simp only [isSilent, Register.meanwhile, decide_eq_true_eq, UInt64.lt_iff_toNat_lt,
    Word.subFloored_toNat] at h ⊢
  have hnow' := UInt64.le_iff_toNat_le.1 hnow
  omega

theorem standing?_of_record {r : Register τ} {id : TxnId} {txn : Txn}
    (h : r.records id = some txn) : r.standing? id = some (r.current txn) := by
  simp [standing?, h]

theorem standing?_eq_some_iff {r : Register τ} {id : TxnId} {txn : Txn} :
    r.standing? id = some txn ↔ ∃ stored, r.records id = some stored ∧ r.current stored = txn := by
  simp [standing?]

theorem standing?_put (r : Register τ) (id other : TxnId) (txn : Txn) :
    (r.put id txn).standing? other =
      if other = id then some (r.current txn) else r.standing? other := by
  simp only [standing?, put]
  split <;> rfl

@[simp] theorem put_put (r : Register τ) (id : TxnId) (txn txn' : Txn) :
    (r.put id txn).put id txn' = r.put id txn' := by
  simp only [put, mk.injEq, and_true]
  funext other
  split <;> rfl

theorem put_of_record {r : Register τ} {id : TxnId} {txn : Txn} (h : r.records id = some txn) :
    r.put id txn = r := by
  have hrecords : (fun other => if other = id then some txn else r.records other) =
      r.records := by
    funext other
    split
    · rename_i hother
      rw [hother, h]
    · rfl
  rw [put, hrecords]

/-! ## Steps -/

/-- Only caches changed, and new cache entries are standings of finished transactions. -/
def Remembers (r r' : Register τ) : Prop :=
  r' = { r with recalled := r'.recalled } ∧
    ∀ id txn, r'.recalled id = some txn →
      r.recalled id = some txn ∨ r.standing? id = some txn ∧ txn.state.isFinal

/-- A step without a timestamp. Only transactions stored as active change, and only live ones other
than by a rollback. -/
inductive Step (r : Register τ) : Register τ → Prop where
  | rollBack {id : TxnId} {txn : Txn} (h : r.records id = some txn)
    (hactive : txn.state = .active) :
    Step r (r.put id { txn with state := .rolledBack })
  | beat {id : TxnId} {txn : Txn} (h : r.records id = some txn) (hactive : txn.state = .active)
    (hlive : r.isSilent txn = false) (time : UInt64) :
    Step r (r.put id { txn with keepAlive := time })
  | note {id : TxnId} {txn : Txn} (h : r.records id = some txn) (hactive : txn.state = .active)
    (hlive : r.isSilent txn = false) (tables : SortedSet String) :
    Step r (r.put id { txn with destinations := tables })
  | remember {r' : Register τ} (h : r.Remembers r') : Step r r'

abbrev Steps : Register τ → Register τ → Prop := Relation.ReflTransGen Step

/-- A step that draws a timestamp, and discards it, begins a transaction with it or commits a live
one. Admissible parents are given by `under`. -/
inductive Drawn [TimestampSource τ] (under : Option TxnId → Prop) (r : Register τ) :
    Register τ → Prop where
  | unused {time : Timestamp} {source : τ}
    (hdraw : TimestampSource.draw r.source = .ok time source) :
    Drawn under r (r.withSource source)
  | enter {time : Timestamp} {source : τ}
    (hdraw : TimestampSource.draw r.source = .ok time source) (keepAlive : UInt64)
    {parent : Option TxnId} (hparent : under parent) (isolation : Option Isolation)
    (additive : Option Bool) :
    Drawn under r ((r.withSource source).put time
      (.entered time keepAlive parent isolation additive))
  | commit {time : Timestamp} {source : τ}
    (hdraw : TimestampSource.draw r.source = .ok time source) {id : TxnId} {txn : Txn}
    (h : r.records id = some txn) (hactive : txn.state = .active)
    (hlive : r.isSilent txn = false) :
    Drawn under r ((r.withSource source).put id
      { txn with commitTime := some time, state := .committed })

/-- Steps of which at most one drew a timestamp. -/
def Served [TimestampSource τ] (under : Option TxnId → Prop) (r r' : Register τ) : Prop :=
  r.Steps r' ∨ ∃ r₁ r₂, r.Steps r₁ ∧ r₁.Drawn under r₂ ∧ r₂.Steps r'

/-- The results of beginning a transaction: only caches change, a timestamp is discarded, or a
record is added. -/
inductive Entered [TimestampSource τ] (parent : Option TxnId) (isolation : Option Isolation)
    (additive : Option Bool) (r : Register τ) : Register τ → Prop where
  | rejected {r' : Register τ} (h : r.Remembers r') : Entered parent isolation additive r r'
  | unused {r' : Register τ} (h : r.Remembers r') {time : Timestamp} {source : τ}
    (hdraw : TimestampSource.draw r'.source = .ok time source) :
    Entered parent isolation additive r (r'.withSource source)
  | enter {r' : Register τ} (h : r.Remembers r') {time : Timestamp} {source : τ}
    (hdraw : TimestampSource.draw r'.source = .ok time source) (keepAlive : UInt64) :
    Entered parent isolation additive r ((r'.withSource source).put time
      (.entered time keepAlive parent isolation additive))

def Begun [TimestampSource τ] (parent : Option TxnId) (isolation : Option Isolation)
    (additive : Option Bool) (r : Register τ) (txn : Txn) (r' : Register τ) : Prop :=
  ∃ r₁ source, r.Remembers r₁ ∧ TimestampSource.draw r₁.source = .ok txn.id source ∧
    txn = .entered txn.id r.now parent isolation additive ∧
    r' = (r₁.withSource source).put txn.id txn

/-- A timestamp was refused after steps that only change caches. -/
def Starved [TimestampSource τ] (r r' : Register τ) : Prop :=
  ∃ r₁ e source, r.Remembers r₁ ∧ TimestampSource.draw r₁.source = .error e source ∧
    r' = r₁.withSource source

/-- The next timestamp is not the id of a record. -/
def Fresh [TimestampSource τ] (r : Register τ) : Prop :=
  ∀ time source, TimestampSource.draw r.source = .ok time source → r.records time = none

/-- A global commit is stored and the cache entry of the transaction is dropped. -/
inductive Adopted (r : Register τ) (id : TxnId) (time : Timestamp) : Register τ → Prop where
  | intro {txn : Txn} (h : r.records id = some txn) (hstate : txn.state ≠ .rolledBack) :
    Adopted r id time
      { r.put id { txn with globalCommitTime := some time, state := .committed } with
        recalled := fun other => if other = id then none else r.recalled other }

/-! ## Remembering -/

@[refl] theorem Remembers.refl (r : Register τ) : r.Remembers r := ⟨rfl, fun _ _ h => .inl h⟩

theorem Remembers.standing? {r r' : Register τ} (h : r.Remembers r') (id : TxnId) :
    r'.standing? id = r.standing? id := by
  rw [h.1]
  rfl

theorem Remembers.records {r r' : Register τ} (h : r.Remembers r') : r'.records = r.records := by
  rw [h.1]

theorem Remembers.trans {r₁ r₂ r₃ : Register τ} (h : r₁.Remembers r₂) (h' : r₂.Remembers r₃) :
    r₁.Remembers r₃ := by
  refine ⟨h'.1.trans (by rw [h.1]), fun id txn htxn => ?_⟩
  rcases h'.2 id txn htxn with hold | ⟨hnew, hfinal⟩
  · exact h.2 id txn hold
  · exact .inr ⟨by rw [← h.standing? id, hnew], hfinal⟩

theorem Remembers.answers {r r' : Register τ} (h : r.Remembers r') {id : TxnId} {txn : Txn}
    (hanswer : r'.Answers id txn) : r.Answers id txn := by
  rcases hanswer with hrecalled | hstanding
  · rcases h.2 id txn hrecalled with hold | ⟨hnew, -⟩
    · exact .inl hold
    · exact .inr hnew
  · exact .inr (by rw [← h.standing? id, hstanding])

theorem Remembers.steps {r r' : Register τ} (h : r.Remembers r') : r.Steps r' :=
  .single (.remember h)

theorem Drawn.mono [TimestampSource τ] {under under' : Option TxnId → Prop} {r r' : Register τ}
    (h : r.Drawn under r') (hunder : ∀ parent, under parent → under' parent) :
    r.Drawn under' r' := by
  cases h with
  | unused hdraw => exact .unused hdraw
  | enter hdraw keepAlive hparent isolation additive =>
    exact .enter hdraw keepAlive (hunder _ hparent) isolation additive
  | commit hdraw hrecord hactive hlive => exact .commit hdraw hrecord hactive hlive

theorem Served.mono [TimestampSource τ] {under under' : Option TxnId → Prop} {r r' : Register τ}
    (h : r.Served under r') (hunder : ∀ parent, under parent → under' parent) :
    r.Served under' r' :=
  h.imp_right fun ⟨r₁, r₂, hbefore, hdrawn, hafter⟩ => ⟨r₁, r₂, hbefore, hdrawn.mono hunder, hafter⟩

theorem Served.steps [TimestampSource τ] {under : Option TxnId → Prop} {r r' r'' : Register τ}
    (h : r.Served under r') (h' : r'.Steps r'') : r.Served under r'' := by
  rcases h with hsteps | ⟨r₁, r₂, hbefore, hdrawn, hafter⟩
  · exact .inl (hsteps.trans h')
  · exact .inr ⟨r₁, r₂, hbefore, hdrawn, hafter.trans h'⟩

theorem Entered.served [TimestampSource τ] {parent : Option TxnId} {isolation : Option Isolation}
    {additive : Option Bool} {r r' : Register τ} (h : r.Entered parent isolation additive r') :
    r.Served (· = parent) r' := by
  cases h with
  | rejected h => exact .inl h.steps
  | unused h hdraw => exact .inr ⟨_, _, h.steps, .unused hdraw, .refl⟩
  | enter h hdraw keepAlive =>
    exact .inr ⟨_, _, h.steps, .enter hdraw keepAlive (by rfl) isolation additive, .refl⟩

/-! ## Frames of steps -/

/-- All of the register but records and cache: source, clock, settings and availability. -/
def surroundings (r : Register τ) : τ × UInt64 × TxnSettings × Bool :=
  (r.source, r.now, r.settings, r.serving)

theorem Step.surroundings {r r' : Register τ} (h : r.Step r') :
    r'.surroundings = r.surroundings := by
  cases h with
  | remember h =>
    rw [h.1]
    rfl
  | _ => rfl

theorem Steps.surroundings {r r' : Register τ} (h : r.Steps r') :
    r'.surroundings = r.surroundings := by
  induction h with
  | refl => rfl
  | tail _ hstep ih => exact hstep.surroundings.trans ih

theorem Steps.source {r r' : Register τ} (h : r.Steps r') : r'.source = r.source :=
  congrArg Prod.fst h.surroundings

theorem Steps.now {r r' : Register τ} (h : r.Steps r') : r'.now = r.now :=
  congrArg (·.2.1) h.surroundings

/-- What determines standings besides records: clock, settings and availability. -/
def conditions (r : Register τ) : UInt64 × TxnSettings × Bool := r.surroundings.2

theorem Served.conditions [TimestampSource τ] {under : Option TxnId → Prop} {r r' : Register τ}
    (h : r.Served under r') : r'.conditions = r.conditions := by
  rcases h with hsteps | ⟨r₁, r₂, hbefore, hdrawn, hafter⟩
  · exact congrArg Prod.snd hsteps.surroundings
  · have hmiddle : r₂.conditions = r₁.conditions := by cases hdrawn <;> rfl
    have hfirst : r₁.conditions = r.conditions := congrArg Prod.snd hbefore.surroundings
    have hlast : r'.conditions = r₂.conditions := congrArg Prod.snd hafter.surroundings
    rw [hlast, hmiddle, hfirst]

theorem Starved.conditions [TimestampSource τ] {r r' : Register τ} (h : r.Starved r') :
    r'.conditions = r.conditions := by
  obtain ⟨r₁, e, source, hbefore, -, rfl⟩ := h
  have hsame : r₁.conditions = r.conditions := congrArg Prod.snd hbefore.steps.surroundings
  exact hsame

end Register

end Mvcc

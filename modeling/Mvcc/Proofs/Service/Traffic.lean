import Mvcc.Proofs.Service.Reading
import Mvcc.Proofs.Txn.CommitStage
import Mvcc.Proofs.Txn.Run
import Mvcc.Service.Traffic

/-!
# Commits in progress

The invariant of a commit's stage is preserved by all other steps. Between two states a transaction
becomes committed only at a timestamp drawn in between, or at one already drawn by its commit and
not yet stored.
-/

namespace Mvcc.Traffic

open TxnM

variable {t t' t'' : Traffic} {event : Event} {events : List Event}

/-- What a transaction wrote to a row, if it wrote there. -/
def written? (t : Traffic) (table : String) (row : Bytes) (writer : TxnId) :
    Option (Option Bytes) :=
  (t.tables.region table).value? row writer

/-! ## The invariant -/

structure Sound (t : Traffic) : Prop where
  legible : t.ledger.Legible
  serving : t.ledger.register.serving = true
  plain : t.ledger.register.Plain
  tables : t.tables.Legible
  available (table : String) : (t.tables.region table).unavailable = false
  unstamped (table : String) (row : Bytes) (writer : TxnId) :
    (t.tables.region table).stamp? row writer = none
  known {table : String} {row : Bytes} {writer : TxnId} (h : (t.written? table row writer).isSome) :
    (t.ledger.register.records writer).isSome
  fits {id : TxnId} {stage : CommitStage} (h : t.commits id = some stage) :
    stage.Fits t.ledger.register id
  /-- No transaction commits before its commit has begun. -/
  unasked {id : TxnId} (h : t.commits id = none) (time : Timestamp) :
    t.ledger.register.outcome? id ≠ some (.committed time)

theorem sound_idle (name : String) (oracle : Oracle) (now : UInt64) (settings : TxnSettings) :
    (idle name oracle now settings).Sound where
  legible _ := .inl rfl
  serving := rfl
  plain := Ledger.plain_new
  tables _ _ _ := ⟨rfl, rfl⟩
  available _ := rfl
  unstamped _ _ _ := rfl
  known h := by cases h
  fits h := by cases h
  unasked _ _ := by
    rw [Register.outcome?, Register.standing?, idle, Ledger.records_new]
    exact (Option.some_ne_none _).symm

/-! ## From one moment to another -/

structure Follows (t t' : Traffic) : Prop where
  latest_le : t.ledger.register.latest ≤ t'.ledger.register.latest
  settles : t.ledger.register.Settles t'.ledger.register
  committed {id : TxnId} {time : Timestamp}
    (h : t'.ledger.register.outcome? id = some (.committed time)) :
    t.ledger.register.outcome? id = some (.committed time) ∨ t.commits id = some (.drawn time) ∨
      t.ledger.register.latest < time
  drawn {id : TxnId} {time : Timestamp} (h : t'.commits id = some (.drawn time)) :
    t.commits id = some (.drawn time) ∨ t.ledger.register.latest < time
  asked {id : TxnId} (h : (t.commits id).isSome) : (t'.commits id).isSome
  /-- A transaction whose commit has begun writes nothing more. -/
  written? {id : TxnId} (h : (t.commits id).isSome) (table : String) (row : Bytes) :
    t'.written? table row id = t.written? table row id

theorem Follows.refl (t : Traffic) : t.Follows t where
  latest_le := UInt64.le_refl _
  settles := .refl _
  committed h := .inl h
  drawn h := .inl h
  asked h := h
  written? _ _ _ := rfl

theorem Follows.trans (h : t.Follows t') (h' : t'.Follows t'') : t.Follows t'' where
  latest_le := UInt64.le_trans h.latest_le h'.latest_le
  settles := h.settles.trans h'.settles
  committed hcommitted := by
    rcases h'.committed hcommitted with hbefore | hdrawn | hlater
    · exact h.committed hbefore
    · exact .inr (h.drawn hdrawn)
    · exact .inr (.inr (UInt64.lt_of_le_of_lt h.latest_le hlater))
  drawn hdrawn := by
    rcases h'.drawn hdrawn with hbefore | hlater
    · exact h.drawn hbefore
    · exact .inr (UInt64.lt_of_le_of_lt h.latest_le hlater)
  asked hasked := h'.asked (h.asked hasked)
  written? hasked table row :=
    (h'.written? (h.asked hasked) table row).trans (h.written? hasked table row)

/-! ## The ledger moves -/

section Ledger

variable {s : Ledger Oracle}

theorem Sound.moved (h : t.Sound) (hs : s.Legible) (hplain : s.register.Plain)
    (hendures : t.ledger.register.Endures s.register)
    (hconditions : s.register.conditions = t.ledger.register.conditions)
    {commits : TxnId → Option CommitStage}
    (hfits : ∀ id stage, commits id = some stage → stage.Fits s.register id)
    (hunasked : ∀ id, commits id = none →
      ∀ time, s.register.outcome? id ≠ some (.committed time)) :
    Sound ⟨s, t.tables, commits⟩ where
  legible := hs
  serving := by
    have hsame : s.register.serving = t.ledger.register.serving := congrArg (·.2.2) hconditions
    exact hsame.trans h.serving
  plain := hplain
  tables := h.tables
  available := h.available
  unstamped := h.unstamped
  known {table row writer} hwritten := by
    obtain ⟨txn, hrecord⟩ := Option.isSome_iff_exists.1 (h.known hwritten)
    obtain ⟨kept, hkept, -⟩ := hendures writer txn hrecord
    exact Option.isSome_iff_exists.2 ⟨kept, hkept⟩
  fits := hfits _ _
  unasked := hunasked _

theorem Sound.spared (h : t.Sound) (hs : s.Legible)
    (hproceeds : t.ledger.register.Proceeds (· = none) s.register)
    (hspares : ∀ id, t.ledger.register.Spares s.register id) :
    Sound { t with ledger := s } ∧ t.Follows { t with ledger := s } := by
  have hlatest := hproceeds.advances.latest_le
  constructor
  · refine h.moved hs (h.plain.proceeds hproceeds) hproceeds.advances.endures
      (hspares 0).conditions ?_ ?_
    · intro id stage hstage
      exact (h.fits hstage).of_spares (hspares id) hlatest
    · intro id hnone time hcommitted
      exact h.unasked hnone time ((hspares id).committed_iff.1 hcommitted)
  · refine ⟨hlatest, hproceeds.settles, fun hcommitted => ?_, .inl, id, fun _ _ _ => rfl⟩
    exact (h.plain.committed_of_proceeds hproceeds hcommitted).imp_right .inr

theorem Sound.looked (h : t.Sound) (hlooked : t.ledger.Looked s) :
    Sound { t with ledger := s } ∧ t.Follows { t with ledger := s } := by
  refine h.spared hlooked.1 (hlooked.2.steps.proceeds _ h.plain.sound) fun id => ⟨?_, .inl ?_⟩
  · exact congrArg Prod.snd hlooked.2.steps.surroundings
  · exact congrFun hlooked.2.records id

theorem commits_atStage (t : Traffic) (id : TxnId) (stage : CommitStage) (other : TxnId) :
    (t.atStage id stage).commits other = if other = id then some stage else t.commits other := rfl

theorem Sound.carried (h : t.Sound) {id : TxnId} {stage stage' : CommitStage}
    (hstage : t.commits id = some stage) (hcarried : Ledger.Carried id stage t.ledger stage' s) :
    Sound ({ t with ledger := s }.atStage id stage') ∧
      t.Follows ({ t with ledger := s }.atStage id stage') := by
  obtain ⟨hs, hcarries⟩ := hcarried
  have hcommits := commits_atStage { t with ledger := s } id stage'
  constructor
  · refine h.moved hs hcarries.plain hcarries.endures hcarries.conditions ?_ ?_
    · intro other found hfound
      by_cases hother : other = id
      · subst hother
        rw [if_pos rfl, Option.some.injEq] at hfound
        exact hfound ▸ hcarries.fits
      · rw [if_neg hother] at hfound
        exact (h.fits hfound).of_spares (hcarries.spares hother) hcarries.latest_le
    · intro other hnone time hcommitted
      by_cases hother : other = id
      · rw [if_pos hother] at hnone
        cases hnone
      · rw [if_neg hother] at hnone
        exact h.unasked hnone time ((hcarries.spares hother).committed_iff.1 hcommitted)
  · refine ⟨hcarries.latest_le, hcarries.settles, ?_, ?_, ?_, fun _ _ _ => rfl⟩
    · intro other time hcommitted
      rcases hcarries.committed hcommitted with hbefore | ⟨rfl, rfl⟩ | hlater
      · exact .inl hbefore
      · exact .inr (.inl hstage)
      · exact .inr (.inr hlater)
    · intro other time hdrawn
      rw [hcommits] at hdrawn
      by_cases hother : other = id
      · rw [if_pos hother, Option.some.injEq] at hdrawn
        exact .inr (hcarries.drawn hdrawn)
      · rw [if_neg hother] at hdrawn
        exact .inl hdrawn
    · intro other hasked
      rw [hcommits]
      split
      · rfl
      · exact hasked

end Ledger

/-! ## One event -/

def asks (t : Traffic) : Event → Bool
  | .begin .. => true
  | .proceed id => (t.commits id).any CommitStage.asks
  | _ => false

structure Effect (t : Traffic) (event : Event) (t' : Traffic) : Prop where
  sound : t'.Sound
  follows : t.Follows t'
  supply_le : t.ledger.source.supply ≤ t'.ledger.source.supply + if t.asks event then 1 else 0

theorem Effect.refl (h : t.Sound) : t.Effect event t := ⟨h, .refl t, Nat.le_add_right ..⟩

theorem begin_ends (h : t.Sound) (hsupply : 0 < t.ledger.source.supply)
    (isolation : Option Isolation) (additive : Option Bool) :
    Leaves (Ledger.create none isolation additive) t.ledger fun s =>
      s.Legible ∧ (t.ledger.register.Entered none isolation additive s.register ∨
        t.ledger.register.Starved s.register) := by
  have hfresh := h.plain.sound.fresh hsupply
  refine (Ledger.create_ends h.legible hfresh none isolation additive).mono ?_ ?_
  · rintro _ s ⟨⟨hs, hentered⟩, -⟩
    exact ⟨hs, .inl hentered⟩
  · rintro e s (⟨hs, hentered⟩ | ⟨hs, hstarved, -⟩)
    · exact ⟨hs, .inl hentered⟩
    · exact ⟨hs, .inr hstarved⟩

theorem step_begin_of_leaves {isolation : Option Isolation} {additive : Option Bool}
    {p : Ledger Oracle → Prop} (h : Leaves (Ledger.create none isolation additive) t.ledger p) :
    ∃ s, p s ∧ t.step (.begin isolation additive) = { t with ledger := s } := by
  simp only [step]
  cases hcreate : Ledger.create none isolation additive t.ledger with
  | ok txn s => exact ⟨s, h.of_ok hcreate, rfl⟩
  | error e s => exact ⟨s, h.of_error hcreate, rfl⟩

theorem effect_of_begin (h : t.Sound) (hsupply : 0 < t.ledger.source.supply)
    (isolation : Option Isolation) (additive : Option Bool) :
    t.Effect (.begin isolation additive) (t.step (.begin isolation additive)) := by
  have hfresh := h.plain.sound.fresh hsupply
  obtain ⟨s, ⟨hs, hmoved⟩, hstep⟩ := step_begin_of_leaves (begin_ends h hsupply isolation additive)
  rw [hstep]
  rcases hmoved with hentered | hstarved
  · have hproceeds := hentered.served.proceeds h.plain.sound hsupply
    obtain ⟨hsound, hfollows⟩ := h.spared hs hproceeds (hentered.spares hfresh)
    exact ⟨hsound, hfollows, hentered.served.supply_le hsupply⟩
  · have hproceeds := hstarved.proceeds (· = none) h.plain.sound hsupply
    obtain ⟨hsound, hfollows⟩ := h.spared hs hproceeds fun id =>
      ⟨hstarved.conditions, .inl (congrFun hstarved.records id)⟩
    exact ⟨hsound, hfollows, hstarved.supply_le hsupply⟩

theorem effect_of_proceed (h : t.Sound) {id : TxnId}
    (hsupply : t.asks (.proceed id) = true → 0 < t.ledger.source.supply) :
    t.Effect (.proceed id) (t.step (.proceed id)) := by
  simp only [step]
  cases hstage : t.commits id with
  | none => exact .refl h
  | some stage =>
    have hasks : t.asks (.proceed id) = stage.asks := by simp [asks, hstage]
    rw [hasks] at hsupply
    have hcarried := Ledger.proceed_carried h.legible h.plain (h.fits hstage) hsupply
    obtain ⟨hsound, hfollows⟩ := h.carried hstage hcarried
    refine ⟨hsound, hfollows, ?_⟩
    rw [hasks]
    exact hcarried.2.supply_le

theorem written?_of_writeVersion {writer : TxnId} {table : String} {row : Bytes}
    {value : Option Bytes} {region : Partition}
    (hwrite : (t.tables.region table).writeVersion row writer value = .ok region) (table' : String)
    (row' : Bytes) (writer' : TxnId) :
    written? { t with tables := t.tables.put table region } table' row' writer' =
      if table' = table ∧ row' = row ∧ writer' = writer then some value
      else t.written? table' row' writer' := by
  have hworld := Store.world_of_writeVersion (s := ⟨t.ledger, t.tables⟩) hwrite
  exact congrFun (congrFun (congrFun (congrArg World.values hworld) table') row') writer'

/-- A version is written before its writer's commit is requested. -/
theorem effect_of_written (h : t.Sound) {writer : TxnId} {table : String} {row : Bytes}
    {value : Option Bytes} {region : Partition} (hcommits : t.commits writer = none)
    (hrecord : (t.ledger.register.records writer).isSome)
    (hwrite : (t.tables.region table).writeVersion row writer value = .ok region) :
    t.Effect (.write writer table row value) { t with tables := t.tables.put table region } := by
  have hshows := Partition.shows_of_writeVersion hwrite
  have hworld := Store.world_of_writeVersion (s := ⟨t.ledger, t.tables⟩) hwrite
  have hwritten := written?_of_writeVersion hwrite
  have hstamps : ∀ table' row' writer',
      ((t.tables.put table region).region table').stamp? row' writer' =
        (t.tables.region table').stamp? row' writer' := fun table' row' writer' =>
    congrFun (congrFun (congrFun (congrArg World.stamps hworld) table') row') writer'
  refine ⟨⟨h.legible, h.serving, h.plain, ?_, ?_, ?_, ?_, h.fits, h.unasked⟩,
    ⟨UInt64.le_refl _, .refl _, .inl, .inl, id, ?_⟩, Nat.le_add_right ..⟩
  · intro table' row'
    simp only [Tables.region_put]
    split
    · exact hshows.legible (h.tables table row')
    · exact h.tables table' row'
  · intro table'
    simp only [Tables.region_put]
    split
    · exact hshows.unavailable.trans (h.available table)
    · exact h.available table'
  · exact fun table' row' writer' => (hstamps table' row' writer').trans (h.unstamped ..)
  · intro table' row' writer' hsome
    rw [hwritten] at hsome
    split at hsome
    · rename_i hkey
      rw [hkey.2.2]
      exact hrecord
    · exact h.known hsome
  · intro id hasked table' row'
    rw [hwritten, if_neg]
    rintro ⟨-, -, rfl⟩
    rw [hcommits] at hasked
    cases hasked

theorem effect_of_write (h : t.Sound) (writer : TxnId) (table : String) (row : Bytes)
    (value : Option Bytes) :
    t.Effect (.write writer table row value) (t.step (.write writer table row value)) := by
  simp only [step]
  split
  · rename_i txn s region hcommits hload hwrite
    have hrecord := ((Ledger.load_ends h.legible).of_ok hload).2
    refine effect_of_written h hcommits ?_ hwrite
    rw [← hrecord]
    rfl
  · exact .refl h

theorem effect_of_asked (h : t.Sound) (id : TxnId) :
    t.Effect (.commit id) (t.atStage id .begun) := by
  have hcommits := commits_atStage t id .begun
  refine ⟨?_, ⟨UInt64.le_refl _, .refl _, .inl, ?_, ?_, fun _ _ _ => rfl⟩, Nat.le_add_right ..⟩
  · refine h.moved h.legible h.plain (fun _ txn hrecord => ⟨txn, hrecord, rfl⟩) rfl ?_ ?_
    · intro other stage hstage
      by_cases hother : other = id
      · rw [if_pos hother] at hstage
        cases hstage
        trivial
      · rw [if_neg hother] at hstage
        exact h.fits hstage
    · intro other hnone
      by_cases hother : other = id
      · rw [if_pos hother] at hnone
        cases hnone
      · rw [if_neg hother] at hnone
        exact h.unasked hnone
  · intro other time hdrawn
    rw [hcommits] at hdrawn
    by_cases hother : other = id
    · rw [if_pos hother] at hdrawn
      cases hdrawn
    · rw [if_neg hother] at hdrawn
      exact .inl hdrawn
  · intro other hsome
    rw [hcommits]
    split
    · rfl
    · exact hsome

/-- Every event has its effect, as long as the counter does not wrap. -/
theorem effect_step (h : t.Sound) (hsupply : t.asks event = true → 0 < t.ledger.source.supply) :
    t.Effect event (t.step event) := by
  cases event with
  | begin isolation additive => exact effect_of_begin h (hsupply rfl) isolation additive
  | write writer table row value => exact effect_of_write h writer table row value
  | commit id =>
    simp only [step]
    split
    · exact effect_of_asked h id
    · exact effect_of_asked h id
    · exact .refl h
  | proceed id => exact effect_of_proceed h hsupply
  | read reader table row =>
    have hlooked := readRow_looked h.legible (t.tables.region table) reader row
    obtain ⟨hsound, hfollows⟩ := h.looked hlooked
    refine ⟨hsound, hfollows, ?_⟩
    have hsource : (t.step (.read reader table row)).ledger.source = t.ledger.source :=
      hlooked.2.steps.source
    rw [hsource]
    exact Nat.le_add_right ..

/-! ## Runs -/

def requests : Traffic → List Event → Nat
  | _, [] => 0
  | t, event :: events => (if t.asks event then 1 else 0) + requests (t.step event) events

def Answered : Traffic → List Event → Prop
  | _, [] => True
  | t, event :: events =>
    (t.asks event = true → ∀ refusal oracle, t.ledger.source.next ≠ .error refusal oracle) ∧
      Answered (t.step event) events

/-- The oracle's counter does not wrap in a run: every request is answered, or there are few enough
of them. -/
def Ample (t : Traffic) (events : List Event) : Prop :=
  t.requests events ≤ t.ledger.source.supply ∨ 0 < t.ledger.source.supply ∧ t.Answered events

theorem supply_pos_of_answered (h : t.Sound) (hsupply : 0 < t.ledger.source.supply)
    (hanswered : t.asks event = true →
      ∀ refusal oracle, t.ledger.source.next ≠ .error refusal oracle) :
    0 < (t.step event).ledger.source.supply := by
  cases hasks : t.asks event with
  | false =>
    have heffect : t.Effect event (t.step event) := effect_step h fun _ => hsupply
    have hle := heffect.supply_le
    rw [hasks] at hle
    exact Nat.lt_of_lt_of_le hsupply hle
  | true =>
    have hnever := hanswered hasks
    cases event with
    | begin isolation additive =>
      obtain ⟨s, ⟨-, hmoved⟩, hstep⟩ :=
        step_begin_of_leaves (begin_ends h hsupply isolation additive)
      rw [hstep]
      rcases hmoved with hentered | ⟨r, refusal, oracle, hlooked, hdraw, -⟩
      · exact hentered.served.supply_pos hsupply
      · rw [hlooked.steps.source] at hdraw
        exact absurd hdraw (hnever refusal oracle)
    | proceed id =>
      obtain ⟨stage, hstage, hchecked⟩ := (Option.any_eq_true _ _).1 hasks
      cases stage with
      | checked =>
        simp only [step, hstage]
        exact Ledger.supply_pos_of_drawn hsupply hnever
      | _ => cases hchecked
    | _ => cases hasks

theorem Ample.step (h : t.Sound) (hample : t.Ample (event :: events)) :
    (t.asks event = true → 0 < t.ledger.source.supply) ∧ (t.step event).Ample events := by
  rcases hample with hrequests | ⟨hsupply, hanswer, hanswered⟩
  · rw [requests] at hrequests
    have hpos : t.asks event = true → 0 < t.ledger.source.supply := by
      intro hasks
      rw [if_pos hasks] at hrequests
      omega
    have hle := (effect_step h hpos).supply_le
    exact ⟨hpos, .inl (by omega)⟩
  · exact ⟨fun _ => hsupply, .inr ⟨supply_pos_of_answered h hsupply hanswer, hanswered⟩⟩

theorem run_append (t : Traffic) (events later : List Event) :
    t.run (events ++ later) = (t.run events).run later :=
  List.foldl_append

/-- A prefix of a run preserves the invariant and leaves the assumptions of the rest. -/
theorem run_follows {later : List Event} (h : t.Sound) (hample : t.Ample (events ++ later)) :
    (t.run events).Sound ∧ t.Follows (t.run events) ∧ (t.run events).Ample later := by
  induction events generalizing t with
  | nil => exact ⟨h, .refl t, hample⟩
  | cons event events ih =>
    obtain ⟨hsupply, hrest⟩ := Ample.step h hample
    have heffect := effect_step h hsupply
    obtain ⟨hsound, hfollows, hlater⟩ := ih heffect.sound hrest
    exact ⟨hsound, heffect.follows.trans hfollows, hlater⟩

end Mvcc.Traffic

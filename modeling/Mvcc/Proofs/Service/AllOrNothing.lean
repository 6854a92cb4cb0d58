import Mvcc.Proofs.Service.Nested
import Mvcc.Proofs.Txn.Depth
import Mvcc.Proofs.Txn.SlotCodec

/-!
# Torn writes

A batch is written row by row, and its table is recorded afterwards. Rows are not removed again, so
a batch that passes its check and whose table cannot be recorded fails and stays written. This
occurs for transactions committed below an active one, and for too many tables or too long a table
name. Nothing else tears a write.
-/

namespace Mvcc

/-! ## Noting a table -/

/-- Whether it can still be noted that the transaction wrote to a table. -/
def Txn.Takes (txn : Txn) (table : String) : Prop :=
  txn.state = .active ∧
    (txn.destinations.contains table = true ∨ Slot.Storable (txn.destinations.add table))

def Txn.noting (txn : Txn) (table : String) : Txn :=
  { txn with destinations := txn.destinations.add table }

namespace Ledger

open TxnM

variable {τ : Type} {s : Ledger τ} {id : TxnId} {txn : Txn}

/-- While the ledger can write, a table is noted of a transaction that shows signs of life exactly
if the transaction takes it; otherwise nothing happens. -/
theorem recordDestination_exact (hs : s.Legible) (hwritable : s.Writable)
    (hrecord : s.register.records id = some txn)
    (hlive : txn.state = .active → s.register.isSilent txn = false) (table : String) :
    Ends (recordDestination id table) s
      (fun _ s' => txn.Takes table ∧ s'.register = s.register.put id (txn.noting table))
      fun _ s' => ¬ txn.Takes table ∧ s' = s := by
  unfold recordDestination
  refine ends_bind.2 ((loadExisting_ends hs).mono ?_ ?_)
  · intro found s₁ hloaded
    obtain ⟨rfl, hfound⟩ := hloaded
    cases hfound.symm.trans hrecord
    simp only [ends_bind, ends_get]
    by_cases hactive : txn.state = .active
    · have hcurrent : s₁.currentState txn.state txn.keepAlive = .active :=
        (Register.current_active_iff (r := s₁.register)).2 ⟨hactive, hlive hactive⟩
      simp only [hcurrent, ne_eq, not_true_eq_false, if_false]
      by_cases hcontains : txn.destinations.contains table = true
      · rw [if_pos hcontains, ends_pure, Txn.noting, SortedMap.add_of_contains hcontains]
        exact ⟨⟨hactive, .inl hcontains⟩, (Register.put_of_record hrecord).symm⟩
      · rw [if_neg hcontains, ends_bind, ends_ofExcept]
        cases hslot : Slot.encodeDestinations (txn.destinations.add table) with
        | error fault =>
          refine ⟨fun htakes => ?_, rfl⟩
          obtain ⟨slot, hstored⟩ :=
            Slot.encodeDestinations_eq_ok_iff.2 (htakes.2.resolve_left hcontains)
          cases hslot.symm.trans hstored
        | ok slot =>
          have hstorable := Slot.encodeDestinations_eq_ok_iff.1 ⟨slot, hslot⟩
          have hdecode := Slot.decode_insert_destinations (records_eq_some_iff.1 hrecord) hslot
          refine ((putSlot_ends hs hdecode).and (putSlot_writable hwritable id _ _)).mono ?_
            fun _ _ h => h.2.elim
          exact fun _ s₂ h => ⟨⟨hactive, .inr hstorable⟩, h.1.2⟩
    · have hcurrent : s₁.currentState txn.state txn.keepAlive ≠ .active := fun hcurrent =>
        hactive ((Register.current_active_iff (r := s₁.register)).1 hcurrent).1
      simp only [hcurrent, ne_eq, not_false_eq_true, if_true]
      exact ⟨fun htakes => hactive htakes.1, rfl⟩
  · intro e s₁ hfailed
    obtain ⟨rfl, hunavailable | hnone⟩ := hfailed
    · cases (serving_iff.2 hwritable.available).symm.trans hunavailable
    · cases hnone.symm.trans hrecord

end Ledger

namespace Environment

open TxnM

variable {env env' : Environment} {id : TxnId} {table : String} {batch : List Mutation}
  {constraints : List Constraint}

/-! ## Judging -/

theorem judge_alike :
    Leaves (judge id table constraints batch) env fun env' => env.ledger.Alike env'.ledger := by
  have hresolve : ∀ s, env.ledger.Alike s → ∀ id, Leaves (View.resolve id) s env.ledger.Alike :=
    fun s hs id => (Ledger.resolve_alike s id).imp fun _ => hs.trans
  have hview : Leaves (view id) env fun env' => env.ledger.Alike env'.ledger :=
    ends_within.2 (Ledger.resolve_alike env.ledger id)
  refine ends_bind.2 (hview.mono (fun txn env₁ halike => ?_) fun _ _ h => h)
  have hchecked := checkBatch_keeps hresolve halike
    ⟨constraints, (env₁.tables.region table).history⟩ txn batch
  unfold Ends check
  cases houtcome : (checkBatch ⟨constraints, (env₁.tables.region table).history⟩ txn batch
      env₁.ledger).1.outcome txn.id with
  | ok outcome => simpa only [houtcome] using hchecked
  | error e => simpa only [houtcome] using hchecked

/-- After a batch that passes, the transaction has a record that is committed or not silent. -/
theorem judge_ready (h : env.ledger.Intact) :
    Ends (judge id table constraints batch) env
      (fun outcome env' => (env.ledger.Looked env'.ledger ∧ env'.tables = env.tables) ∧
        env.ledger.Alike env'.ledger ∧ (outcome.isSuccess = true →
          ∃ txn, env.ledger.register.records id = some txn ∧
            (txn.state = .active → env.ledger.register.isSilent txn = false)))
      fun _ env' => env.ledger.Looked env'.ledger ∧ env'.tables = env.tables := by
  refine ((judge_looked h.legible constraints batch).and judge_alike).mono ?_ fun _ _ h => h.1
  rintro outcome env' ⟨⟨hlooked, htables, hsuccess⟩, halike⟩
  refine ⟨⟨hlooked, htables⟩, halike, fun houtcome => ?_⟩
  obtain ⟨view, hview, -, hactive, -⟩ := hsuccess houtcome
  refine h.sound.live_of_answer hview.head.1 ?_
  exact View.state_ne_of_effectiveState (by simp [hactive]) view.record List.mem_cons_self

/-! ## The whole write -/

/-- No version of a table and no record of the transaction changed. -/
structure Untouched (env env' : Environment) : Prop where
  value? (table : String) (row : Bytes) (writer : TxnId) :
    (env'.tables.region table).value? row writer = (env.tables.region table).value? row writer
  stamp? (table : String) (row : Bytes) (writer : TxnId) :
    (env'.tables.region table).stamp? row writer = (env.tables.region table).stamp? row writer
  records : env'.ledger.register.records = env.ledger.register.records

/-- A batch was written and its table noted, and nothing else happened. -/
structure Carried (env : Environment) (id : TxnId) (table : String) (batch : List Mutation)
    (env' : Environment) : Prop where
  holds : env.Holds id table batch env'
  noted : ∃ txn, env.ledger.register.records id = some txn ∧
    env'.ledger.register.records id = some (txn.noting table) ∧
    (txn.noting table).destinations.contains table = true
  records (other : TxnId) (hne : other ≠ id) :
    env'.ledger.register.records other = env.ledger.register.records other

/-- A write that succeeds is carried out as a whole, and one that does not leaves nothing
behind. -/
def AllOrNothing (env : Environment) (id : TxnId) (table : String)
    (constraints : List Constraint) (batch : List Mutation) : Prop :=
  Ends (write id table constraints batch) env
    (fun outcome env' =>
      if outcome.isSuccess then env.Carried id table batch env' else env.Untouched env')
    fun _ env' => env.Untouched env'

/-- The batch passes its check. -/
def Passes (env : Environment) (id : TxnId) (table : String) (constraints : List Constraint)
    (batch : List Mutation) : Prop :=
  ∃ outcome env', judge id table constraints batch env = .ok outcome env' ∧
    outcome.isSuccess = true

/-- The batch would leave a version other than it is. -/
def Alters (env : Environment) (id : TxnId) (table : String) (batch : List Mutation) : Prop :=
  ∃ row value, lastWritten batch row = some value ∧
    (env.tables.region table).value? row id ≠ some value

/-- A write is torn if the batch passes and alters something, while its table can no longer be
noted. -/
def Torn (env : Environment) (id : TxnId) (table : String) (constraints : List Constraint)
    (batch : List Mutation) : Prop :=
  env.Passes id table constraints batch ∧ env.Alters id table batch ∧
    ∃ txn, env.ledger.register.records id = some txn ∧ ¬ txn.Takes table

theorem untouched_of_looked (hlooked : env.ledger.Looked env'.ledger)
    (htables : env'.tables = env.tables) : env.Untouched env' where
  value? _ _ _ := by rw [htables]
  stamp? _ _ _ := by rw [htables]
  records := hlooked.2.records

theorem allOrNothing_of_not_passes (h : env.ledger.Intact)
    (hpasses : ¬ env.Passes id table constraints batch) :
    env.AllOrNothing id table constraints batch := by
  rw [AllOrNothing, write_eq, ends_bind]
  refine Ends.of_forall (fun outcome env₁ hjudge => ?_) fun e env₁ hjudge => ?_
  · obtain ⟨⟨hlooked, htables⟩, -⟩ := (judge_ready h).of_ok hjudge
    have houtcome : outcome.isSuccess = false :=
      Bool.eq_false_iff.2 fun hsuccess => hpasses ⟨outcome, env₁, hjudge, hsuccess⟩
    simp only [houtcome, Bool.false_eq_true, if_false, ends_pure]
    exact untouched_of_looked hlooked htables
  · obtain ⟨hlooked, htables⟩ := (judge_ready h).of_error hjudge
    exact untouched_of_looked hlooked htables

theorem Passes.exists_record (h : env.ledger.Intact)
    (hpasses : env.Passes id table constraints batch) :
    ∃ txn, env.ledger.register.records id = some txn ∧
      (txn.state = .active → env.ledger.register.isSilent txn = false) := by
  obtain ⟨outcome, env₁, hjudge, hsuccess⟩ := hpasses
  exact ((judge_ready h).of_ok hjudge).2.2 hsuccess

/-- A batch that passes is written; the result of the write depends on the transaction's record. -/
theorem write_of_passes (h : env.ledger.Intact) (hwritable : env.ledger.Writable)
    (havailable : (env.tables.region table).unavailable = false)
    (hpasses : env.Passes id table constraints batch) {txn : Txn}
    (hrecord : env.ledger.register.records id = some txn)
    (hlive : txn.state = .active → env.ledger.register.isSilent txn = false) :
    Ends (write id table constraints batch) env
      (fun outcome env' => txn.Takes table ∧ outcome.isSuccess = true ∧
        env.Carried id table batch env')
      fun _ env' => ¬ txn.Takes table ∧ env.Holds id table batch env' ∧
        env'.ledger.register.records = env.ledger.register.records := by
  obtain ⟨outcome, env₁, hjudge, hsuccess⟩ := hpasses
  obtain ⟨⟨hlooked, htables⟩, halike, -⟩ := (judge_ready h).of_ok hjudge
  rw [write_eq, ends_bind, Ends, hjudge]
  simp only [hsuccess, if_true, ends_bind]
  rw [← htables] at havailable
  refine (applyBatch_holds batch).mono ?_
    fun _ _ h => absurd (havailable.symm.trans h.2) Bool.false_ne_true
  rintro _ env₂ ⟨hledger, hholds⟩
  have hheld : ∀ ledger, env.Holds id table batch { env₂ with ledger := ledger } :=
    fun _ => ⟨htables ▸ hholds.legible, htables ▸ hholds.unavailable, htables ▸ hholds.value?,
      htables ▸ hholds.stamp?⟩
  have hrecords : env₂.ledger.register.records = env.ledger.register.records := by
    rw [hledger, hlooked.2.records]
  have hlegible : env₂.ledger.Legible := hledger ▸ hlooked.1
  have hlive₂ : txn.state = .active → env₂.ledger.register.isSilent txn = false := by
    rw [hledger, hlooked.isSilent]
    exact hlive
  have hnoted := Ledger.recordDestination_exact hlegible (hledger ▸ hwritable.of_alike halike)
    (hrecords ▸ hrecord) hlive₂ table
  refine ends_within.2 (hnoted.mono ?_ ?_)
  · rintro _ ledger ⟨htakes, hregister⟩
    refine ⟨htakes, hsuccess, hheld ledger, ⟨txn, hrecord, ?_, ?_⟩, fun other hne => ?_⟩
    · exact Ledger.records_of_put hregister
    · exact SortedMap.contains_add txn.destinations table
    · rw [hregister, ← hrecords]
      exact if_neg hne
  · rintro e ledger ⟨htakes, rfl⟩
    exact ⟨htakes, hheld _, hrecords⟩

/-- A batch that was written but not recorded left everything unchanged exactly if it altered
nothing. -/
theorem Holds.untouched_iff (h : env.Holds id table batch env')
    (hrecords : env'.ledger.register.records = env.ledger.register.records) :
    env.Untouched env' ↔ ¬ env.Alters id table batch := by
  constructor
  · rintro huntouched ⟨row, value, hwritten, hne⟩
    have hvalue := h.value? table row id
    rw [if_pos ⟨rfl, rfl⟩, hwritten, huntouched.value?] at hvalue
    exact hne hvalue
  · intro halters
    refine ⟨fun other row writer => ?_, h.stamp?, hrecords⟩
    rw [h.value?]
    split
    · rename_i hown
      obtain ⟨rfl, rfl⟩ := hown
      cases hwritten : lastWritten batch row with
      | none => rfl
      | some value =>
        by_cases hsame : (env.tables.region other).value? row writer = some value
        · rw [hsame]
          rfl
        · exact absurd ⟨row, value, hwritten, hsame⟩ halters
    · rfl

/-- In every history of an environment: while storage is available, a write is all or nothing unless
it is torn. -/
theorem allOrNothing_iff_not_torn (settings : ServiceSettings) (mark : Mark) (now : UInt64)
    (started : Environment) (acts : List Activity) (id : TxnId) (table : String)
    (constraints : List Constraint) (batch : List Mutation)
    (hstart : start settings mark now = .ok started) (hprovided : Provided started acts)
    (hwritable : (live started acts).ledger.Writable)
    (havailable : ((live started acts).tables.region table).unavailable = false) :
    (live started acts).AllOrNothing id table constraints batch ↔
      ¬ (live started acts).Torn id table constraints batch := by
  have hintact := intact_live (start_intact hstart) hprovided
  by_cases hpasses : (live started acts).Passes id table constraints batch
  · obtain ⟨txn, hrecord, hlive⟩ := hpasses.exists_record hintact
    have hwrite := write_of_passes hintact hwritable havailable hpasses hrecord hlive
    have htorn : (live started acts).Torn id table constraints batch ↔
        (live started acts).Alters id table batch ∧ ¬ txn.Takes table := by
      simp only [Torn, hpasses, true_and, hrecord, Option.some.injEq, exists_eq_left']
    rw [htorn, AllOrNothing]
    cases hended : write id table constraints batch (live started acts) with
    | ok outcome written =>
      obtain ⟨htakes, hsuccess, hcarried⟩ := hwrite.of_ok hended
      refine iff_of_true ?_ fun htorn => htorn.2 htakes
      simpa only [Ends, hended, hsuccess, if_true] using hcarried
    | error e left =>
      obtain ⟨htakes, hholds, hrecords⟩ := hwrite.of_error hended
      simp only [Ends, hended, htakes, not_false_eq_true, and_true]
      exact hholds.untouched_iff hrecords
  · exact iff_of_true (allOrNothing_of_not_passes hintact hpasses) fun htorn => hpasses htorn.1

/-- A transaction writes to a table and begins another below itself. -/
@[irreducible] def notedOnce : List Activity :=
  [.operation (.begin none none), .operation (.write 1 "accounts" [] [⟨.upsert, [1], [97]⟩]),
    .beginBelow 1 none none]

/-- It writes to the table again, to one row twice. -/
theorem allOrNothing_of_notedOnce :
    AllOrNothing (live fromZero notedOnce) 1 "accounts" []
      [⟨.upsert, [1], [98]⟩, ⟨.insert, [2], [99]⟩, ⟨.delete, [1], []⟩] := by
  have hprovided : Provided fromZero notedOnce := by
    unfold notedOnce
    exact ⟨fun _ => by decide, nofun, fun _ => by decide +kernel, trivial⟩
  have hwritable : (live fromZero notedOnce).ledger.Writable :=
    ⟨by decide +kernel, by decide +kernel⟩
  refine (allOrNothing_iff_not_torn .standard (.memory (.startingAt 0)) 1000000 fromZero notedOnce 1
    "accounts" [] _ rfl hprovided hwritable (by decide +kernel)).2 ?_
  rintro ⟨-, -, txn, hrecord, hnot⟩
  have htaken : ((live fromZero notedOnce).ledger.register.records 1).all (fun txn =>
      txn.state = .active && txn.destinations.contains "accounts") = true := by
    decide +kernel
  rw [hrecord] at htaken
  simp only [Option.all_some, Bool.and_eq_true, decide_eq_true_eq] at htaken
  exact hnot ⟨htaken.1, .inl htaken.2⟩

/-- A transaction commits below one that is still active. -/
@[irreducible] def handedUp : List Activity :=
  [.operation (.begin none none), .beginBelow 1 none none, .operation (.commit 2)]

/-- Its batch passes and is written, and then it is refused for the commit. -/
theorem not_allOrNothing_of_handedUp :
    ¬ AllOrNothing (live fromZero handedUp) 2 "accounts" [] [⟨.upsert, [1], [97]⟩] := by
  have hbefore : ((live fromZero handedUp).tables.region "accounts").value? [1] 2 = none := by
    decide +kernel
  have hwrite : Ends (write 2 "accounts" [] [⟨.upsert, [1], [97]⟩]) (live fromZero handedUp)
      (fun _ _ => False) fun e env' => e = .wrongState 2 .committed ∧
        (env'.tables.region "accounts").value? [1] 2 = some (some [97]) := by
    decide +kernel
  intro h
  cases hended : write 2 "accounts" [] [⟨.upsert, [1], [97]⟩] (live fromZero handedUp) with
  | ok outcome written => exact hwrite.of_ok hended
  | error e left =>
    have hafter := (hwrite.of_error hended).2
    rw [(h.of_error hended).value?, hbefore] at hafter
    cases hafter

end Environment

end Mvcc

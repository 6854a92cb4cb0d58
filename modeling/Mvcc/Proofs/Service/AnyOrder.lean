import Mvcc.Proofs.Service.Reporting
import Mvcc.Proofs.Snapshot.Tidying

/-!
# Resolution in any order

While transactions do not change, the order, the multiplicity and the assignment to workers of
resolution events do not affect the result: every worker finds the same outcome of a writer, and
stamps of different versions commute.
-/

namespace Mvcc

/-! ## Single attempts -/

namespace ResolutionStatus

theorem add_comm (status : ResolutionStatus) (resolution resolution' : Resolution) :
    (status.add resolution).add resolution' = (status.add resolution').add resolution := by
  rcases resolution with ⟨_ | _⟩ | _ | _ <;> rcases resolution' with ⟨_ | _⟩ | _ | _ <;> rfl

/-- The counters, but for that of events that were not even queued. -/
def worked (status : ResolutionStatus) : ResolutionStatus := { status with dropped := 0 }

theorem worked_add (status : ResolutionStatus) (resolution : Resolution) :
    (status.add resolution).worked = status.worked.add resolution := by
  rcases resolution with ⟨_ | _⟩ | _ | _ <;> rfl

end ResolutionStatus

namespace Partition

variable {p : Partition} {row row' : Bytes} {writer writer' : TxnId}
  {resolution resolution' : Resolution}

/-- The partition after an attempt to resolve a version. -/
def resolved (p : Partition) (row : Bytes) (writer : TxnId) : Resolution → Partition
  | .stamped stamp => p.stamped row writer stamp
  | .active | .failed => p

theorem retouched_resolved (p : Partition) (row : Bytes) (writer : TxnId)
    (resolution : Resolution) : p.Retouched (p.resolved row writer resolution) := by
  cases resolution with
  | stamped stamp => exact p.retouched_stamped row writer stamp
  | active | failed => exact .refl p

theorem hasVersion_resolved (p : Partition) (row row' : Bytes) (writer writer' : TxnId)
    (resolution : Resolution) :
    (p.resolved row writer resolution).hasVersion row' writer' = p.hasVersion row' writer' := by
  cases resolution with
  | stamped stamp => exact p.hasVersion_stamped row row' writer writer' stamp
  | active | failed => rfl

theorem resolved_comm (h : row = row' ∧ writer = writer' → resolution = resolution') :
    (p.resolved row writer resolution).resolved row' writer' resolution' =
      (p.resolved row' writer' resolution').resolved row writer resolution := by
  cases resolution with
  | active | failed => rfl
  | stamped stamp =>
    cases resolution' with
    | active | failed => rfl
    | stamped stamp' => exact stamped_comm fun hsame => Resolution.stamped.inj (h hsame)

theorem Carries.resolved_of_same {stamp : Stamp} (h : p.Carries row' writer' stamp)
    (hsame : row = row' ∧ writer = writer' → resolution = .stamped stamp) :
    (p.resolved row writer resolution).Carries row' writer' stamp := by
  cases resolution with
  | stamped stamp' =>
    exact h.stamped_of_same fun hkey => Resolution.stamped.inj (hsame hkey)
  | active | failed => exact h

end Partition

/-! ## Workers -/

namespace Workshop

/-- Two workshops with the same tables, in which as much work was done. -/
structure Alike {σ : Type} [CellHolder σ] (shop shop' : Workshop σ) : Prop where
  region (table : String) : shop.region table = shop'.region table
  committed : shop.status.committed = shop'.status.committed
  rolledBack : shop.status.rolledBack = shop'.status.rolledBack
  active : shop.status.active = shop'.status.active

/-- The state that workers change: the tables and the counters. -/
structure Bench where
  regions : String → Partition
  status : ResolutionStatus

namespace Bench

variable {answers : TxnId → Except TxnError View} {bench : Bench} {event event' : ResolveEvent}

/-- The result of resolving an event, from the look-ups of writers. -/
def due (answers : TxnId → Except TxnError View) (bench : Bench) (event : ResolveEvent) :
    Resolution :=
  CellHolder.due (bench.regions event.table).unavailable (answers event.writer)

def handle (answers : TxnId → Except TxnError View) (bench : Bench) (event : ResolveEvent) :
    Bench where
  regions table :=
    if table = event.table then
      (bench.regions table).resolved event.row event.writer (bench.due answers event)
    else bench.regions table
  status := bench.status.add (bench.due answers event)

theorem handle_regions (answers : TxnId → Except TxnError View) (bench : Bench)
    (event : ResolveEvent) (table : String) :
    (bench.handle answers event).regions table =
      if table = event.table then
        (bench.regions table).resolved event.row event.writer (bench.due answers event)
      else bench.regions table := rfl

theorem handle_status (answers : TxnId → Except TxnError View) (bench : Bench)
    (event : ResolveEvent) :
    (bench.handle answers event).status = bench.status.add (bench.due answers event) := rfl

/-- Handling one event does not change the result due for another. -/
theorem due_handle (answers : TxnId → Except TxnError View) (bench : Bench)
    (event event' : ResolveEvent) :
    (bench.handle answers event).due answers event' = bench.due answers event' := by
  have hunavailable : ((bench.handle answers event).regions event'.table).unavailable =
      (bench.regions event'.table).unavailable := by
    rw [handle_regions]
    split
    · exact (Partition.retouched_resolved ..).unavailable
    · rfl
  rw [due, hunavailable, due]

theorem handle_comm (answers : TxnId → Except TxnError View) (bench : Bench)
    (event event' : ResolveEvent) :
    (bench.handle answers event).handle answers event' =
      (bench.handle answers event').handle answers event := by
  have hregions (table : String) :
      ((bench.handle answers event).handle answers event').regions table =
        ((bench.handle answers event').handle answers event).regions table := by
    simp only [handle_regions, due_handle]
    by_cases htable : table = event.table <;> by_cases htable' : table = event'.table
    · simp only [if_pos htable, if_pos htable']
      refine Partition.resolved_comm fun hsame => ?_
      rw [due, due, ← htable, ← htable', hsame.2]
    · simp only [if_pos htable, if_neg htable']
    · simp only [if_neg htable, if_pos htable']
    · simp only [if_neg htable, if_neg htable']
  have hstatus : ((bench.handle answers event).handle answers event').status =
      ((bench.handle answers event').handle answers event).status := by
    simp only [handle_status, due_handle]
    exact ResolutionStatus.add_comm ..
  exact congrArg₂ Bench.mk (funext hregions) hstatus

/-- The version of an event, if present, carries the stamp that resolving the event gives. -/
def Stands (answers : TxnId → Except TxnError View) (bench : Bench) (event : ResolveEvent) :
    Prop :=
  ∀ stamp, bench.due answers event = .stamped stamp →
    (bench.regions event.table).hasVersion event.row event.writer = true →
    (bench.regions event.table).Carries event.row event.writer stamp

theorem stands_handle (answers : TxnId → Except TxnError View) (bench : Bench)
    (event : ResolveEvent) : (bench.handle answers event).Stands answers event := by
  intro stamp hdue hversion
  rw [due_handle] at hdue
  rw [handle_regions, if_pos rfl, hdue] at hversion ⊢
  exact Partition.carries_stamped_iff.2 ((Partition.hasVersion_stamped ..).symm.trans hversion)

theorem Stands.handle (h : bench.Stands answers event') (event : ResolveEvent) :
    (bench.handle answers event).Stands answers event' := by
  intro stamp hdue hversion
  rw [due_handle] at hdue
  rw [handle_regions] at hversion ⊢
  by_cases htable : event'.table = event.table
  · rw [if_pos htable] at hversion ⊢
    rw [Partition.hasVersion_resolved] at hversion
    refine (h stamp hdue hversion).resolved_of_same fun hsame => ?_
    rw [← hdue, due, due, htable, hsame.2]
  · rw [if_neg htable] at hversion ⊢
    exact h stamp hdue hversion

theorem Stands.handle_regions (h : bench.Stands answers event) (table : String) :
    ∃ puts, (bench.handle answers event).regions table =
      { bench.regions table with puts := puts } := by
  rw [Bench.handle_regions]
  split
  · rename_i htable
    subst htable
    cases hdue : bench.due answers event with
    | active | failed => exact ⟨_, rfl⟩
    | stamped stamp =>
      cases hversion : (bench.regions event.table).hasVersion event.row event.writer with
      | false => exact ⟨_, Partition.stamped_of_absent hversion⟩
      | true => exact ⟨_, Partition.stamped_of_carries (h stamp hdue hversion)⟩
  · exact ⟨_, rfl⟩

/-! ## Lists of events -/

theorem foldl_handle_perm (answers : TxnId → Except TxnError View) (bench : Bench)
    {events order : List ResolveEvent} (h : order.Perm events) :
    order.foldl (handle answers) bench = events.foldl (handle answers) bench :=
  h.foldl_eq' (fun event _ event' _ bench => handle_comm answers bench event event') bench

theorem Stands.foldl_handle (h : bench.Stands answers event) (events : List ResolveEvent) :
    (events.foldl (Bench.handle answers) bench).Stands answers event := by
  induction events generalizing bench with
  | nil => exact h
  | cons first rest ih => exact ih (h.handle first)

theorem stands_foldl_handle (answers : TxnId → Except TxnError View) (bench : Bench)
    {events : List ResolveEvent} (h : event ∈ events) :
    (events.foldl (handle answers) bench).Stands answers event := by
  induction events generalizing bench with
  | nil => cases h
  | cons first rest ih =>
    cases h with
    | head => exact (stands_handle answers bench event).foldl_handle rest
    | tail _ hrest => exact ih (bench.handle answers first) hrest

theorem foldl_handle_regions {events : List ResolveEvent}
    (h : ∀ event ∈ events, bench.Stands answers event) (table : String) :
    ∃ puts, (events.foldl (handle answers) bench).regions table =
      { bench.regions table with puts := puts } := by
  induction events generalizing bench with
  | nil => exact ⟨_, rfl⟩
  | cons event events ih =>
    obtain ⟨hevent, hevents⟩ := List.forall_mem_cons.1 h
    obtain ⟨puts, hfirst⟩ := hevent.handle_regions table
    obtain ⟨puts', hrest⟩ := ih fun other hother => (hevents other hother).handle event
    exact ⟨puts', hrest.trans (by rw [hfirst])⟩

end Bench

variable {σ : Type} [CellHolder σ] [Supplier σ] {shop : Workshop σ}
  {known : TxnId → Except TxnError (Option Txn)} {s : σ}

def bench (shop : Workshop σ) : Bench := ⟨shop.region, shop.status.worked⟩

omit [Supplier σ] in
theorem alike_of_bench {shop' : Workshop σ} (h : shop.bench = shop'.bench) : shop.Alike shop' where
  region := congrFun (congrArg Bench.regions h)
  committed := congrArg (·.status.committed) h
  rolledBack := congrArg (·.status.rolledBack) h
  active := congrArg (·.status.active) h

theorem handle_supplier (shop : Workshop σ) (event : ResolveEvent) :
    (shop.handle event).supplier =
      (shop.stamp event.table event.row event.writer).2.supplier := by
  unfold handle resolve
  dsimp only
  split <;> rfl

section

variable [LawfulCellHolder σ]

theorem stamp_fst (shop : Workshop σ) (table : String) (row : Bytes) (writer : TxnId) :
    (shop.stamp table row writer).1 =
      CellHolder.due (shop.region table).unavailable (Supplier.answers shop.supplier writer) := by
  unfold stamp region
  split
  · exact CellHolder.resolve_fst row writer shop.supplier
  · rw [← Site.answers_eq ⟨shop.tables.region table, shop.supplier⟩]
    exact CellHolder.resolve_fst row writer (⟨_, shop.supplier⟩ : Site σ)

theorem handle_bench (shop : Workshop σ) (event : ResolveEvent) :
    (shop.handle event).bench = shop.bench.handle (Supplier.answers shop.supplier) event := by
  have hdue : (shop.resolve event.table event.row event.writer).1 =
      shop.bench.due (Supplier.answers shop.supplier) event := shop.stamp_fst ..
  have htreated := shop.handle_treated event
  have hstatus := shop.handle_status event
  rw [hdue] at htreated hstatus
  have hregion (table : String) : (shop.handle event).region table =
      (shop.bench.handle (Supplier.answers shop.supplier) event).regions table := by
    rw [Bench.handle_regions]
    generalize shop.bench.due (Supplier.answers shop.supplier) event = resolution at htreated
    cases htreated with
    | stamped _ _ hregion =>
      rw [hregion]
      split
      · rename_i htable
        rw [htable]
        rfl
      · rfl
    | left hleft hregion =>
      rw [hregion]
      cases resolution with
      | stamped stamp => cases hleft
      | active | failed => exact (ite_self _).symm
  refine congrArg₂ Bench.mk (funext hregion) ?_
  rw [hstatus, ResolutionStatus.worked_add]
  rfl

end

section

variable [SteadyCellHolder σ]

theorem handle_steady (hs : Supplier.Steady known shop.supplier) (event : ResolveEvent) :
    Supplier.Steady known (shop.handle event).supplier := by
  rw [handle_supplier]
  unfold stamp
  split
  · exact CellHolder.resolve_steady hs event.row event.writer
  · have hsite : Supplier.Steady known
        (⟨shop.tables.region event.table, shop.supplier⟩ : Site σ) := Site.steady_iff.2 hs
    exact Site.steady_iff.1 (CellHolder.resolve_steady hsite event.row event.writer)

theorem foldl_handle_steady (hs : Supplier.Steady known shop.supplier)
    (events : List ResolveEvent) :
    Supplier.Steady known (events.foldl handle shop).supplier := by
  induction events generalizing shop with
  | nil => exact hs
  | cons event events ih => exact ih (handle_steady hs event)

/-- Workers give the same result in every steady state. -/
theorem handle_bench_of_steady (hs : Supplier.Steady known s)
    (hshop : Supplier.Steady known shop.supplier) (event : ResolveEvent) :
    (shop.handle event).bench = shop.bench.handle (Supplier.answers s) event := by
  rw [handle_bench, hshop.answers_eq hs]

theorem foldl_handle_bench (hs : Supplier.Steady known s)
    (hshop : Supplier.Steady known shop.supplier) (events : List ResolveEvent) :
    (events.foldl handle shop).bench =
      events.foldl (Bench.handle (Supplier.answers s)) shop.bench := by
  induction events generalizing shop with
  | nil => rfl
  | cons event events ih =>
    rw [List.foldl_cons, ih (handle_steady hshop event), handle_bench_of_steady hs hshop event,
      List.foldl_cons]

end

end Workshop

/-! ## Several workers -/

namespace ResolverPool

variable {σ : Type} [CellHolder σ] [Supplier σ]
  {known : TxnId → Except TxnError (Option Txn)} {s : σ} {bench : Workshop.Bench}
  {p : ResolverPool σ}

/-- No other party changes the tables or the transactions. -/
def Undisturbed (events : List (Event σ)) : Prop :=
  ∀ tables supplier, .meanwhile tables supplier ∉ events

/-- The tables and counters are those after the events that were finished. -/
structure Working (known : TxnId → Except TxnError (Option Txn)) (s : σ) (bench : Workshop.Bench)
    (p : ResolverPool σ) : Prop where
  steady : Supplier.Steady known p.shop.supplier
  bench : p.shop.bench =
    (p.finished.map (·.1)).foldl (Workshop.Bench.handle (Supplier.answers s)) bench

theorem Working.of_same {q : ResolverPool σ} (h : p.Working known s bench)
    (hshop : q.shop = p.shop) (hfinished : q.finished = p.finished) :
    q.Working known s bench :=
  ⟨hshop ▸ h.steady, by rw [hshop, hfinished, h.bench]⟩

variable [SteadyCellHolder σ]

theorem Working.finish (hs : Supplier.Steady known s) (h : p.Working known s bench)
    (worker : Nat) : (p.finish worker).Working known s bench := by
  cases p.finish_cases worker with
  | inl hidle => rwa [hidle]
  | inr hdone =>
    obtain ⟨event, -, hp⟩ := hdone
    rw [hp]
    refine ⟨Workshop.handle_steady h.steady event, ?_⟩
    rw [Workshop.handle_bench_of_steady hs h.steady, h.bench]
    simp

theorem Working.step (hs : Supplier.Steady known s) (h : p.Working known s bench)
    {event : Event σ} (hevent : ∀ tables supplier, event ≠ .meanwhile tables supplier) :
    (p.step event).Working known s bench := by
  cases event with
  | start =>
    simp only [ResolverPool.step, start]
    split
    · split <;> exact h.of_same rfl rfl
    · exact h
  | shutdown =>
    simp only [ResolverPool.step]
    split <;> exact h.of_same rfl rfl
  | release =>
    simp only [ResolverPool.step]
    split
    · obtain ⟨hshop, -, hfinished⟩ :=
        work_vacate { p with queue := { p.queue with running := false }, owned := false }
      exact h.of_same hshop hfinished
    · exact h
  | yield worker =>
    simp only [ResolverPool.step, yield]
    split
    · exact h
    · obtain ⟨hshop, -, hfinished⟩ := (p.dismiss worker).work_vacate
      exact h.of_same hshop hfinished
  | offer event =>
    cases p.offer_cases event with
    | inl htaken =>
      obtain ⟨-, -, -, hp⟩ := htaken
      simp only [ResolverPool.step, hp]
      exact ⟨h.steady, h.bench⟩
    | inr hrefused =>
      obtain ⟨-, -, hp⟩ := hrefused
      simp only [ResolverPool.step, hp]
      exact ⟨h.steady, h.bench⟩
  | take worker =>
    rcases p.take_cases worker with hidle | ⟨event, waiting, -, -, -, hp⟩
    · simpa only [ResolverPool.step, hidle] using h
    · simp only [ResolverPool.step, hp]
      exact h.of_same rfl rfl
  | finish worker => exact h.finish hs worker
  | meanwhile tables supplier => exact absurd rfl (hevent tables supplier)

theorem Working.run (hs : Supplier.Steady known s) (h : p.Working known s bench)
    {events : List (Event σ)} (hevents : Undisturbed events) :
    (p.run events).Working known s bench := by
  induction events generalizing p with
  | nil => exact h
  | cons event events ih =>
    refine ih (h.step hs ?_) fun tables supplier hmem =>
      hevents tables supplier (List.mem_cons_of_mem event hmem)
    rintro tables supplier rfl
    exact hevents tables supplier List.mem_cons_self

end ResolverPool

namespace Workshop

variable {σ : Type} [CellHolder σ] [Supplier σ] [SteadyCellHolder σ] {shop : Workshop σ}
  {known : TxnId → Except TxnError (Option Txn)}

/-- For any events, including several on one version, unknown or active writers and absent versions:
while the transactions do not change, the final tables and counters do not depend on the order in
which the events are handled, nor on the number of workers that share them and their interleaving.
Handling an event again changes no table, apart from the storage's count of writes. -/
theorem handled_in_any_order (hsteady : Supplier.Steady known shop.supplier)
    (events : List ResolveEvent) :
    let done := events.foldl handle shop
    (∀ order : List ResolveEvent, order.Perm events → (order.foldl handle shop).Alike done) ∧
    (∀ (workers size : Nat) (steps : List (ResolverPool.Event σ)),
      ResolverPool.Undisturbed steps →
      let p := (ResolverPool.new workers size shop).run steps
      (p.finished.map (·.1)).Perm events → p.shop.Alike done) ∧
    ∀ again : List ResolveEvent, again ⊆ events → ∀ table, ∃ puts,
      (again.foldl handle done).region table = { done.region table with puts := puts } := by
  intro done
  have hdone : done.bench =
      events.foldl (Bench.handle (Supplier.answers shop.supplier)) shop.bench :=
    foldl_handle_bench hsteady hsteady events
  refine ⟨?order, ?pool, ?again⟩
  case order =>
    intro order hperm
    apply alike_of_bench
    rw [hdone, foldl_handle_bench hsteady hsteady, Bench.foldl_handle_perm _ _ hperm]
  case pool =>
    intro workers size steps hundisturbed p hperm
    have hstart : (ResolverPool.new workers size shop).Working known shop.supplier shop.bench :=
      ⟨hsteady, rfl⟩
    apply alike_of_bench
    rw [hdone, (hstart.run hsteady hundisturbed).bench, Bench.foldl_handle_perm _ _ hperm]
  case again =>
    intro again hagain table
    have hstands : ∀ event ∈ again, done.bench.Stands (Supplier.answers shop.supplier) event := by
      intro event hevent
      rw [hdone]
      exact Bench.stands_foldl_handle _ _ (hagain hevent)
    obtain ⟨puts, hregion⟩ := Bench.foldl_handle_regions hstands table
    refine ⟨puts, Eq.trans ?_ hregion⟩
    have hbench := foldl_handle_bench hsteady (foldl_handle_steady hsteady events) again
    exact congrFun (congrArg Bench.regions hbench) table

/-- The version of a transaction that rolled back, twice, those of one that is active, one that does
not exist and one that committed, and one that was never written. -/
def familyEvents : List ResolveEvent :=
  [⟨"accounts", [1], 8, true⟩, ⟨"accounts", [1], 5, false⟩, ⟨"accounts", [1], 99, false⟩,
    ⟨"accounts", [1], 3, true⟩, ⟨"accounts", [1], 8, false⟩, ⟨"accounts", [2], 2, false⟩]

theorem family_handled_in_any_order :
    let shop : Workshop (Ledger Oracle) :=
      ⟨Tables.empty.put "accounts" Site.familySite.region, Site.familyLedger, none, .zero, []⟩
    let steps : List (ResolverPool.Event (Ledger Oracle)) :=
      .start :: familyEvents.map .offer ++
        [.take 0, .take 1, .finish 1, .take 1, .finish 1, .take 1, .finish 0, .take 0, .finish 0,
          .take 0, .finish 1, .finish 0]
    let p := (ResolverPool.new 2 8 shop).run steps
    p.finished.map (·.1) ≠ familyEvents ∧ p.shop.Alike (familyEvents.foldl handle shop) := by
  intro shop steps p
  have hsteady : Supplier.Steady Site.familyLedger.known shop.supplier := Site.familyLedger_steady
  have hundisturbed : ResolverPool.Undisturbed steps := by
    intro tables supplier hmem
    simp [steps, familyEvents] at hmem
  have hfinished : p.finished.map (·.1) =
      [⟨"accounts", [1], 5, false⟩, ⟨"accounts", [1], 99, false⟩, ⟨"accounts", [1], 8, true⟩,
        ⟨"accounts", [1], 8, false⟩, ⟨"accounts", [1], 3, true⟩, ⟨"accounts", [2], 2, false⟩] := by
    decide +kernel
  refine ⟨?_, (handled_in_any_order hsteady familyEvents).2.1 2 8 steps hundisturbed ?_⟩
  · rw [hfinished]
    decide
  · rw [hfinished]
    decide

end Workshop

end Mvcc

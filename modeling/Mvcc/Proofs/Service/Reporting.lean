import Mvcc.Proofs.Service.OwnTable
import Mvcc.Proofs.Service.Store
import Mvcc.Proofs.Snapshot.Pool

/-!
# Reported resolutions

A resolution is reported when the storage accepts the stamp. Stamping a missing version succeeds
without effect, so it is reported too: counters and reports show that a writer has finished, and
that its version carries the stamp only if it was present.
-/

namespace Mvcc

open TxnM

namespace Site

variable {σ : Type} [Supplier σ] {site : Site σ}

theorem supplier_of_resolve {id : TxnId} {view : View} {site' : Site σ}
    (h : View.resolve id site = .ok view site') :
    ∃ s, View.resolve id site.supplier = .ok view s := by
  have hends : Ends (View.resolve id) site
      (fun found _ => ∃ s, View.resolve id site.supplier = .ok found s) fun _ _ => True :=
    resolve_ends_iff.2 (.of_forall (fun _ s hresolve => ⟨s, hresolve⟩) fun _ _ _ => trivial)
  exact hends.of_ok h

end Site

/-! ## Workers -/

namespace ResolutionStatus

theorem applied_add_stamped (status : ResolutionStatus) (stamp : Stamp) :
    (status.add (.stamped stamp)).applied = status.applied + 1 := by
  cases stamp <;> simp only [add, applied] <;> omega

theorem applied_add_left (status : ResolutionStatus) {resolution : Resolution}
    (h : resolution.isStamped = false) : (status.add resolution).applied = status.applied := by
  cases resolution with
  | stamped outcome => cases h
  | active | failed => rfl

end ResolutionStatus

namespace Workshop

variable {σ : Type} [CellHolder σ] {shop : Workshop σ} {table : String} {row : Bytes}
  {writer : TxnId}

/-- A table as workers see it; one of them may be the supplier's own partition. -/
def region (shop : Workshop σ) (table : String) : Partition :=
  if shop.ownTable = some table then CellHolder.region shop.supplier else shop.tables.region table

variable [Supplier σ]

theorem handle_region (shop : Workshop σ) (event : ResolveEvent) :
    (shop.handle event).region = (shop.stamp event.table event.row event.writer).2.region := by
  unfold handle resolve
  dsimp only
  split <;> rfl

theorem handle_reported (shop : Workshop σ) (event : ResolveEvent) :
    (shop.handle event).reported = shop.reported ++
      if event.reported = true ∧
        (shop.resolve event.table event.row event.writer).1.isStamped = true
      then [(event.row, event.writer)] else [] := by
  have hstamp : (shop.stamp event.table event.row event.writer).2.reported = shop.reported := by
    unfold stamp
    split <;> rfl
  unfold handle resolve
  dsimp only
  split
  · rename_i h
    rw [if_pos (by simpa using h), hstamp]
  · rename_i h
    rw [if_neg (by simpa using h), hstamp, List.append_nil]

/-- The result of resolving a version, and the state afterwards. -/
inductive Treated (shop : Workshop σ) (table : String) (row : Bytes) (writer : TxnId) :
    Resolution → Workshop σ → Prop where
  | stamped {view : View} {stamp : Stamp} {s : σ} {shop' : Workshop σ}
    (hview : View.resolve writer shop.supplier = .ok view s) (houtcome : view.outcome = some stamp)
    (hregion : ∀ other, shop'.region other =
      if other = table then (shop.region table).stamped row writer stamp else shop.region other) :
    Treated shop table row writer (.stamped stamp) shop'
  /-- The writer is active, or resolution failed. -/
  | left {resolution : Resolution} {shop' : Workshop σ} (hleft : resolution.isStamped = false)
    (hregion : ∀ other, shop'.region other = shop.region other) :
    Treated shop table row writer resolution shop'

theorem treated_of_resolved {ρ : Type} [CellHolder ρ] [Supplier ρ] {s s' : ρ}
    {resolution : Resolution} {shop' : Workshop σ}
    (h : CellHolder.Resolved row writer s resolution s')
    (hview : ∀ view s₁, View.resolve writer s = .ok view s₁ →
      ∃ s₁, View.resolve writer shop.supplier = .ok view s₁)
    (hself : shop.region table = CellHolder.region s)
    (hregion : ∀ other, shop'.region other =
      if other = table then CellHolder.region s' else shop.region other) :
    shop.Treated table row writer resolution shop' := by
  have hkept (hsame : CellHolder.region s' = CellHolder.region s) (other : String) :
      shop'.region other = shop.region other := by
    rw [hregion]
    split
    · rename_i hother
      rw [hsame, ← hself, hother]
    · rfl
  cases h with
  | stamped hfound houtcome hstamped =>
    obtain ⟨s₁, hresolve⟩ := hview _ _ hfound
    refine .stamped hresolve houtcome fun other => ?_
    rw [hregion, hstamped, hself]
  | active _ _ hsame => exact .left rfl (hkept hsame)
  | failed _ hsame => exact .left rfl (hkept hsame)

variable [LawfulCellHolder σ]

theorem stamp_treated (shop : Workshop σ) (table : String) (row : Bytes) (writer : TxnId) :
    shop.Treated table row writer (shop.stamp table row writer).1
      (shop.stamp table row writer).2 := by
  unfold stamp
  split
  · rename_i hown
    refine treated_of_resolved (CellHolder.resolve_resolved row writer shop.supplier)
      (fun _ s₁ h => ⟨s₁, h⟩) (if_pos hown) fun other => ?_
    by_cases hother : other = table
    · rw [if_pos hother, hother]
      exact if_pos hown
    · have hne : shop.ownTable ≠ some other := by
        rw [hown]
        exact fun heq => hother (Option.some.inj heq).symm
      rw [if_neg hother, Workshop.region, Workshop.region, if_neg hne, if_neg hne]
  · rename_i hown
    let site : Site σ := ⟨shop.tables.region table, shop.supplier⟩
    have hsupplier : CellHolder.region (CellHolder.resolve row writer site).2.supplier =
        CellHolder.region shop.supplier := by
      have hresolve : ∀ s : σ, CellHolder.region s = CellHolder.region shop.supplier → ∀ id,
          Leaves (View.resolve id) s
            fun s' => CellHolder.region s' = CellHolder.region shop.supplier :=
        fun s hs id => (CellHolder.resolve_region s id).imp fun _ h => h.trans hs
      exact Site.resolve_keeps hresolve rfl row writer
    refine treated_of_resolved (CellHolder.resolve_resolved row writer site)
      (fun _ _ h => Site.supplier_of_resolve h) (if_neg hown) fun other => ?_
    by_cases hother : other = table
    · rw [if_pos hother, hother]
      refine (if_neg hown).trans ((Tables.region_put ..).trans (if_pos rfl))
    · rw [if_neg hother, Workshop.region, Workshop.region, hsupplier, Tables.region_put,
        if_neg hother]

theorem handle_treated (shop : Workshop σ) (event : ResolveEvent) :
    shop.Treated event.table event.row event.writer
      (shop.resolve event.table event.row event.writer).1 (shop.handle event) := by
  have htreated : shop.Treated event.table event.row event.writer
      (shop.resolve event.table event.row event.writer).1
      (shop.stamp event.table event.row event.writer).2 := shop.stamp_treated ..
  have hregion := shop.handle_region event
  generalize (shop.resolve event.table event.row event.writer).1 = resolution at htreated
  cases htreated with
  | stamped hview houtcome hstamped =>
    exact .stamped hview houtcome fun other => hregion ▸ hstamped other
  | left hleft hkept => exact .left hleft fun other => hregion ▸ hkept other

/-- For every event: if the worker counts a stamp, the writer has finished with that outcome, and
the version carries the stamp afterwards exactly if it was present before; if it was absent, the
table is unchanged, and the stamp is counted and reported nevertheless. If the worker counts no
stamp, it reports none and changes no table. -/
theorem handle_carries_iff (shop : Workshop σ) (event : ResolveEvent) :
    (∀ stamp, (shop.resolve event.table event.row event.writer).1 = .stamped stamp →
      (∃ view s, View.resolve event.writer shop.supplier = .ok view s ∧
        view.outcome = some stamp) ∧
      (((shop.handle event).region event.table).Carries event.row event.writer stamp ↔
        (shop.region event.table).hasVersion event.row event.writer = true) ∧
      ((shop.region event.table).hasVersion event.row event.writer = false →
        (shop.handle event).region event.table = shop.region event.table) ∧
      (∀ other, other ≠ event.table → (shop.handle event).region other = shop.region other) ∧
      (shop.handle event).status.applied = shop.status.applied + 1 ∧
      (shop.handle event).reported =
        shop.reported ++ if event.reported = true then [(event.row, event.writer)] else []) ∧
    ((shop.resolve event.table event.row event.writer).1.isStamped = false →
      (∀ table, (shop.handle event).region table = shop.region table) ∧
      (shop.handle event).status.applied = shop.status.applied ∧
      (shop.handle event).reported = shop.reported) := by
  have htreated := shop.handle_treated event
  rw [handle_status, handle_reported]
  generalize (shop.resolve event.table event.row event.writer).1 = resolution at htreated
  cases htreated with
  | @stamped view stamp s _ hview houtcome hregion =>
    have hself : (shop.handle event).region event.table =
        (shop.region event.table).stamped event.row event.writer stamp :=
      (hregion event.table).trans (if_pos rfl)
    refine ⟨?_, nofun⟩
    rintro _ ⟨⟩
    refine ⟨⟨view, s, hview, houtcome⟩, ?_, fun habsent => ?_, fun other hother => ?_, ?_, ?_⟩
    · rw [hself]
      exact Partition.carries_stamped_iff
    · rw [hself]
      exact Partition.stamped_of_absent habsent
    · rw [hregion, if_neg hother]
    · exact ResolutionStatus.applied_add_stamped shop.status stamp
    · simp [Resolution.isStamped]
  | left hleft hregion =>
    refine ⟨?_, fun _ => ⟨hregion, ?_, ?_⟩⟩
    · rintro stamp rfl
      cases hleft
    · exact ResolutionStatus.applied_add_left shop.status hleft
    · simp [hleft]

/-- A table with one version, that of the first transaction. -/
def oneVersion : Partition :=
  (Partition.new "accounts").withCell (Version.key [1] 1) Version.dataColumn
    (Version.encodeValue (some [97]))

/-- The version of a transaction that has committed. -/
theorem handle_carries_of_committed :
    let shop : Workshop (Ledger Oracle) := ⟨Tables.empty.put "accounts" oneVersion,
      Ledger.run (Ledger.fromZero .standard) [.create none none none, .commit 1], none, .zero, []⟩
    ((shop.handle ⟨"accounts", [1], 1, true⟩).region "accounts").Carries [1] 1 (.committed 2) := by
  intro shop
  have hresolution : (shop.resolve "accounts" [1] 1).1 = .stamped (.committed 2) := rfl
  have hpresent : (shop.region "accounts").hasVersion [1] 1 = true := by decide
  exact ((handle_carries_iff shop ⟨"accounts", [1], 1, true⟩).1 _ hresolution).2.1.2 hpresent

/-- The version of a rolled-back transaction is purged before its event is handled. The stamp is
counted and reported, but no version carries it. -/
theorem handle_of_purged :
    ∃ site : Site (Ledger Oracle),
      CellHolder.compactRow [1] (⟨oneVersion, Ledger.run (Ledger.fromZero .standard)
        [.create none none none, .rollback 1]⟩ : Site (Ledger Oracle)) = .ok ⟨0, 0, 1⟩ site ∧
      let shop : Workshop (Ledger Oracle) :=
        ⟨Tables.empty.put "accounts" site.region, site.supplier, none, .zero, []⟩
      (shop.resolve "accounts" [1] 1).1 = .stamped .rolledBack ∧
        (shop.handle ⟨"accounts", [1], 1, true⟩).status.rolledBack = 1 ∧
        (shop.handle ⟨"accounts", [1], 1, true⟩).reported = [([1], 1)] ∧
        ¬ ((shop.handle ⟨"accounts", [1], 1, true⟩).region "accounts").Carries [1] 1
          .rolledBack := by
  refine ⟨_, rfl, rfl, rfl, rfl, ?_⟩
  decide

/-! ## Draining the queue -/

def IsStamped (shop : Workshop σ) (table : String) (row : Bytes) (writer : TxnId) : Prop :=
  ∃ stamp, (shop.region table).Carries row writer stamp

/-- Handling an event neither writes nor purges a version, and removes no stamp. -/
theorem handle_keeps (shop : Workshop σ) (event : ResolveEvent) (table : String) (row : Bytes)
    (writer : TxnId) :
    ((shop.handle event).region table).hasVersion row writer =
        (shop.region table).hasVersion row writer ∧
      (shop.IsStamped table row writer → (shop.handle event).IsStamped table row writer) := by
  have htreated := shop.handle_treated event
  unfold IsStamped
  generalize (shop.resolve event.table event.row event.writer).1 = resolution at htreated
  cases htreated with
  | stamped _ _ hregion =>
    rw [hregion]
    split
    · rename_i htable
      subst htable
      refine ⟨Partition.hasVersion_stamped .., ?_⟩
      rintro ⟨stamp, hcarries⟩
      exact hcarries.stamped ..
    · exact ⟨rfl, fun h => h⟩
  | left _ hregion =>
    rw [hregion]
    exact ⟨rfl, fun h => h⟩

theorem foldl_handle_keeps (shop : Workshop σ) (events : List ResolveEvent) (table : String)
    (row : Bytes) (writer : TxnId) :
    ((events.foldl handle shop).region table).hasVersion row writer =
        (shop.region table).hasVersion row writer ∧
      (shop.IsStamped table row writer →
        (events.foldl handle shop).IsStamped table row writer) := by
  induction events generalizing shop with
  | nil => exact ⟨rfl, fun h => h⟩
  | cons event events ih =>
    obtain ⟨hversion, hstamped⟩ := shop.handle_keeps event table row writer
    obtain ⟨hversion', hstamped'⟩ := ih (shop.handle event)
    exact ⟨hversion'.trans hversion, fun h => hstamped' (hstamped h)⟩

theorem isStamped_handle (shop : Workshop σ) (event : ResolveEvent)
    (h : (shop.resolve event.table event.row event.writer).1.isStamped = true)
    (hversion : (shop.region event.table).hasVersion event.row event.writer = true) :
    (shop.handle event).IsStamped event.table event.row event.writer := by
  have htreated := shop.handle_treated event
  unfold IsStamped
  generalize (shop.resolve event.table event.row event.writer).1 = resolution at h htreated
  cases htreated with
  | @stamped _ stamp _ _ _ _ hregion =>
    rw [hregion, if_pos rfl]
    exact ⟨stamp, Partition.carries_stamped_iff.2 hversion⟩
  | left hleft => cases h.symm.trans hleft

/-- A cell reported by a drain comes from a waiting event, and is stamped in the end exactly if its
version was present at the start. -/
theorem foldl_handle_reported (shop : Workshop σ) (events : List ResolveEvent) :
    ∃ news, (events.foldl handle shop).reported = shop.reported ++ news ∧
      ∀ entry ∈ news, ∃ event ∈ events, event.reported = true ∧
        entry = (event.row, event.writer) ∧
        ((events.foldl handle shop).IsStamped event.table event.row event.writer ↔
          (shop.region event.table).hasVersion event.row event.writer = true) := by
  induction events generalizing shop with
  | nil => exact ⟨[], (List.append_nil _).symm, nofun⟩
  | cons event events ih =>
    obtain ⟨news, hnews, hall⟩ := ih (shop.handle event)
    rw [handle_reported, List.append_assoc] at hnews
    refine ⟨_, hnews, fun entry hentry => ?_⟩
    rcases List.mem_append.1 hentry with hfirst | hlater
    · split at hfirst
      · rename_i hcounted
        obtain rfl := List.mem_singleton.1 hfirst
        obtain ⟨hversion, hstamped⟩ := (shop.handle event).foldl_handle_keeps events event.table
          event.row event.writer
        refine ⟨event, List.mem_cons_self, hcounted.1, rfl, ?_, fun hpresent => ?_⟩
        · rintro ⟨stamp, hcarries⟩
          rw [← (shop.handle_keeps event event.table event.row event.writer).1, ← hversion]
          exact hcarries.1
        · exact hstamped (shop.isStamped_handle event hcounted.2 hpresent)
      · cases hfirst
    · obtain ⟨source, hsource, hreported, hentry, hstamped⟩ := hall entry hlater
      refine ⟨source, List.mem_cons_of_mem _ hsource, hreported, hentry, ?_⟩
      rwa [(shop.handle_keeps event source.table source.row source.writer).1] at hstamped

theorem drain_reported (shop : Workshop σ) (queue : ResolveQueue) :
    ∃ news, (shop.drain queue).1.reported = shop.reported ++ news ∧
      ∀ entry ∈ news, ∃ event ∈ queue.waiting, event.reported = true ∧
        entry = (event.row, event.writer) ∧
        ((shop.drain queue).1.IsStamped event.table event.row event.writer ↔
          (shop.region event.table).hasVersion event.row event.writer = true) := by
  unfold drain
  split
  · exact foldl_handle_reported shop queue.waiting
  · exact ⟨[], (List.append_nil _).symm, nofun⟩

end Workshop

end Mvcc

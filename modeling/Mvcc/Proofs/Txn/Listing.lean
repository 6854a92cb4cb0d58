import Mvcc.Proofs.Txn.Finality
import Mvcc.Proofs.Txn.Footprint

/-!
# Listings

A listing decodes all rows; a look-up reads one row and uses the cache. While the clock does not go
back both agree: every row is that of a record, and rows are in the order of transaction ids.
-/

namespace Mvcc.Ledger

open TxnM

variable {τ : Type} {s : Ledger τ} {id : TxnId} {listing : Listing}

/-! ## Looking up -/

/-- A look-up finds the transaction active and matching the listing. -/
def FindsListed (s : Ledger τ) (listing : Listing) (id : TxnId) : Prop :=
  ∃ txn s', find id s = .ok (some txn) s' ∧ txn.state = .active ∧
    listing.least ≤ txn.beginTime ∧ txn.beginTime ≤ listing.greatest ∧
    ∀ table, listing.table = some table → txn.destinations.contains table = true

def Lists (s : Ledger τ) (listing : Listing) (id : TxnId) : Prop :=
  ∃ txn, s.register.standing? id = some txn ∧ txn.state = .active ∧ listing.admits txn = true

theorem admits_iff {txn : Txn} : listing.admits txn = true ↔
    listing.least ≤ txn.beginTime ∧ txn.beginTime ≤ listing.greatest ∧
      ∀ table, listing.table = some table → txn.destinations.contains table = true := by
  simp [Listing.admits, Option.all_eq_true, and_assoc]

/-- While the storage is available, a look-up gives the standing of the transaction. -/
theorem find_eq_standing (hs : s.Legible) (hfaithful : s.register.Faithful)
    (havailable : s.partition.unavailable = false) (id : TxnId) :
    ∃ s', find id s = .ok (s.register.standing? id) s' := by
  have hfind : Ends (find id) s (fun found _ => found = s.register.standing? id)
      fun _ _ => False := by
    refine (find_ends hs).mono ?_ ?_
    · rintro found s' ⟨-, hanswer⟩
      cases found with
      | some txn => exact (hfaithful.answers_iff.1 hanswer).symm
      | none => rw [Register.standing?, hanswer.2, Option.map_none]
    · rintro e s' ⟨-, hserving⟩
      cases (serving_iff.2 havailable).symm.trans hserving
  obtain ⟨_, s', hanswer, rfl⟩ := hfind.exists_ok
  exact ⟨s', hanswer⟩

theorem findsListed_iff (hs : s.Legible) (hfaithful : s.register.Faithful)
    (havailable : s.partition.unavailable = false) :
    s.FindsListed listing id ↔ s.Lists listing id := by
  obtain ⟨s', hfind⟩ := find_eq_standing hs hfaithful havailable id
  constructor
  · rintro ⟨txn, s'', hfound, hactive, hadmits⟩
    rw [hfind] at hfound
    injection hfound with hstanding
    exact ⟨txn, hstanding, hactive, admits_iff.2 hadmits⟩
  · rintro ⟨txn, hstanding, hactive, hadmits⟩
    exact ⟨txn, s', hstanding ▸ hfind, hactive, admits_iff.1 hadmits⟩

theorem faithful_restarted (s : Ledger τ) : s.restarted.register.Faithful :=
  fun id _ h => nomatch (ExpiringCache.remembered?_new s.settings.completedCapacity.toNat
    s.settings.completedLifetime id).symm.trans h

/-! ## Reading all rows -/

/-- The transaction with this id, if it is to be listed. -/
def listed? (s : Ledger τ) (listing : Listing) (id : TxnId) : Option TxnId :=
  (s.register.standing? id).bind fun txn =>
    if txn.state = .active ∧ listing.admits txn = true then some id else none

theorem listed?_eq_some_iff {other : TxnId} :
    s.listed? listing id = some other ↔ id = other ∧ s.Lists listing id := by
  unfold listed? Lists
  cases s.register.standing? id with
  | none => simp
  | some txn => by_cases h : txn.state = .active ∧ listing.admits txn = true <;> simp [h]

theorem activeIn_eq {txn : Txn} (h : s.partition.record? id = some txn) :
    s.activeIn listing (Slot.rowKey id, s.partition.columns (Slot.rowKey id)) =
      .ok (s.listed? listing id) := by
  have hkey : Slot.ofRowKey (Slot.rowKey id) = .ok id := by simp [Slot.ofRowKey, Slot.rowKey]
  have hdecode := Partition.record?_eq_some_iff.1 h
  have hstanding : s.register.standing? id = some (s.register.current txn) :=
    Register.standing?_of_record h
  have hcurrent : s.currentState txn.state txn.keepAlive = (s.register.current txn).state := rfl
  have hadmits : listing.admits (s.register.current txn) = listing.admits txn := rfl
  simp [activeIn, listed?, hkey, hdecode, hstanding, hcurrent, hadmits, bind, Except.bind, pure,
    Except.pure]

theorem listActive_eq (hrecorded : s.partition.Recorded)
    (havailable : s.partition.unavailable = false) :
    listActive listing s = .ok
      ((s.partition.rowsFrom []).filterMap fun row => s.listed? listing (BigEndian.toWord row.1))
      s := by
  have hrows : ∀ row ∈ s.partition.rowsFrom [],
      s.activeIn listing row = .ok (s.listed? listing (BigEndian.toWord row.1)) := by
    rintro ⟨row, cells⟩ hrow
    have hcolumns := Partition.columns_of_mem_rowsFrom hrow
    obtain ⟨id, rfl, hsome⟩ := hrecorded row (by rw [(Partition.mem_rowsFrom_iff.1 hrow).2]; rfl)
    obtain ⟨txn, hrecord⟩ := Option.isSome_iff_exists.1 hsome
    rw [← hcolumns, activeIn_eq hrecord, Slot.rowKey, BigEndian.toWord_ofWord]
  have hscan : s.partition.scan [] = .ok (s.partition.rowsFrom []) :=
    Partition.serve_of_available havailable _
  have hends : Ends (listActive listing) s
      (fun ids s' => ids = (s.partition.rowsFrom []).filterMap (fun row =>
        s.listed? listing (BigEndian.toWord row.1)) ∧ s' = s) fun _ _ => False := by
    simp only [listActive, ends_bind, ends_get, ends_ofExcept, hscan,
      Except.list_mapM_eq_ok_map hrows, ends_pure, List.filterMap_map]
    exact ⟨rfl, trivial⟩
  obtain ⟨_, _, hlist, rfl, rfl⟩ := hends.exists_ok
  exact hlist

/-- Rows lie in the order of the ids, so that a listing ascends. -/
theorem pairwise_listed (hrecorded : s.partition.Recorded) :
    ((s.partition.rowsFrom []).filterMap fun row =>
      s.listed? listing (BigEndian.toWord row.1)).Pairwise (· < ·) := by
  have hlength : ∀ row ∈ s.partition.rowsFrom [], row.1.length = 8 := by
    rintro ⟨row, cells⟩ hrow
    obtain ⟨id, rfl, -⟩ := hrecorded row (by rw [(Partition.mem_rowsFrom_iff.1 hrow).2]; rfl)
    exact BigEndian.ofWord_length id
  refine List.pairwise_filterMap.2 ((Partition.rowsFrom_ascending _ []).imp_of_mem ?_)
  intro row row' hrow hrow' hlt id hid id' hid'
  obtain ⟨rfl, -⟩ := listed?_eq_some_iff.1 hid
  obtain ⟨rfl, -⟩ := listed?_eq_some_iff.1 hid'
  exact BigEndian.toWord_lt_toWord (hlength row hrow) (hlength row' hrow') hlt

theorem mem_listed_iff : id ∈ ((s.partition.rowsFrom []).filterMap fun row =>
    s.listed? listing (BigEndian.toWord row.1)) ↔ s.Lists listing id := by
  rw [List.mem_filterMap]
  constructor
  · rintro ⟨row, -, hlisted⟩
    obtain ⟨rfl, hlists⟩ := listed?_eq_some_iff.1 hlisted
    exact hlists
  · rintro ⟨txn, hstanding, hlisted⟩
    obtain ⟨stored, hrecord, -⟩ := Register.standing?_eq_some_iff.1 hstanding
    obtain ⟨raw, hcore, -⟩ := (Slot.decode_eq_ok_iff.1 (records_eq_some_iff.1 hrecord)).2.core
    refine ⟨_, Partition.mem_rowsFrom_of_cell? List.nil_prefix hcore, ?_⟩
    rw [Slot.rowKey, BigEndian.toWord_ofWord]
    exact listed?_eq_some_iff.2 ⟨rfl, txn, hstanding, hlisted⟩

/-! ## Runs -/

variable [TimestampSource τ] [AscendingSource τ]

/-- In every reachable state of runs whose clock does not go back: while the storage is available, a
listing succeeds, is strictly ascending, and consists of the transactions that a look-up finds
active and matching, cached or not. -/
theorem mem_listActive_iff_found (name : String) (source : τ) (now : UInt64)
    (settings : TxnSettings) (ops : List Operation)
    (hsupplied : Supplied (new name source now settings) ops) (hforward : Forward now ops)
    (havailable : (run (new name source now settings) ops).partition.unavailable = false)
    (listing : Listing) :
    ∃ ids, listActive listing (run (new name source now settings) ops) =
        .ok ids (run (new name source now settings) ops) ∧
      ids.Pairwise (· < ·) ∧
      ∀ id, (id ∈ ids ↔ (run (new name source now settings) ops).FindsListed listing id) ∧
        (id ∈ ids ↔ (run (new name source now settings) ops).restarted.FindsListed listing id) := by
  have hready := ready_new_of_supplied hsupplied
  have hlegible := hready.run_whole.legible
  have hfaithful := faithful_run_whole hready faithful_new hforward
  have hrecorded := Ready.recorded_run ((List.append_nil ops).symm ▸ hready) recorded_new
  refine ⟨_, listActive_eq hrecorded havailable, pairwise_listed hrecorded, fun id => ⟨?_, ?_⟩⟩
  · exact mem_listed_iff.trans (findsListed_iff hlegible hfaithful havailable).symm
  · exact mem_listed_iff.trans
      (findsListed_iff (s := restarted _) hlegible (faithful_restarted _) havailable).symm

/-- Of three transactions one has rolled back and is cached, one fell silent during an outage and
one wrote to a table. -/
theorem mem_listActive_iff_found_after_outage :
    let ops : List Operation :=
      [.create none none none, .create none none none, .create (some 1) none none, .rollback 2,
        .find 2, .recordDestination 3 "accounts", .clock 1100000, .keepAlive 3, .outage true,
        .clock 1200000, .outage false]
    Supplied (fromZero .standard) ops ∧ Forward 1000000 ops ∧
      (run (fromZero .standard) ops).partition.unavailable = false ∧
      ∃ ids, listActive ⟨2, 9, some "accounts"⟩ (run (fromZero .standard) ops) =
          .ok ids (run (fromZero .standard) ops) ∧
        ids.Pairwise (· < ·) ∧
        ∀ id, (id ∈ ids ↔
            (run (fromZero .standard) ops).FindsListed ⟨2, 9, some "accounts"⟩ id) ∧
          (id ∈ ids ↔
            (run (fromZero .standard) ops).restarted.FindsListed ⟨2, 9, some "accounts"⟩ id) := by
  intro ops
  have hample : Ample (fromZero .standard) ops := .inl (by decide)
  have hsupplied := hample.supplied (fun _ => .inl rfl) sound_new
  have hforward : Forward 1000000 ops := by decide
  have havailable : (run (fromZero .standard) ops).partition.unavailable = false := rfl
  exact ⟨hsupplied, hforward, havailable, mem_listActive_iff_found "stratum_txn"
    (fromZero .standard).source 1000000 .standard ops hsupplied hforward havailable _⟩

end Mvcc.Ledger

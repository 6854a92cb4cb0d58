import Mvcc.Proofs.Service.Writing
import Mvcc.Proofs.Snapshot.Tidying

/-!
# Stamps agree with outcomes

Workers and compaction stamp a version only with the outcome of its writer, and purge it only if the
writer rolled back.
-/

namespace Mvcc

open TxnM

namespace Site

/-! ## One version -/

variable {tables : Tables} {table : String} {row : Bytes} {writer : TxnId}
  {site : Site (Ledger Oracle)}

/-- The store in which a site is the partition of one of the tables. -/
def store (tables : Tables) (table : String) (site : Site (Ledger Oracle)) : Store :=
  ⟨site.supplier, tables.put table site.region⟩

theorem lookup_ends (h : (site.store tables table).Sound) (writer : TxnId) :
    Ends (View.resolve writer) site
      (fun view site' => (site.store tables table).Moves [] (site'.store tables table) ∧
        site'.region = site.region ∧
        ∀ stamp, view.outcome = some stamp → site'.supplier.register.outcome? writer = some stamp)
      fun _ site' => (site.store tables table).Moves [] (site'.store tables table) := by
  refine resolve_ends_iff.2 ((Ledger.resolve_ends h.ledger).mono ?_ ?_)
  · rintro view s ⟨hlooked, hview⟩
    have hmoves : (site.store tables table).Moves [] (store tables table ⟨site.region, s⟩) :=
      .of_stepped h hlooked.stepped
    refine ⟨hmoves, rfl, fun stamp hstamp => hmoves.steps.outcome? ?_⟩
    rw [← hstamp]
    exact (h.world.plain.outcome_of_lineage hview).symm
  · exact fun _ s hlooked => .of_stepped h hlooked.stepped

theorem alter_ends {change : Partition → Except StorageError Partition}
    (h : (site.store tables table).Sound)
    (hchange : ∀ region, change site.region = .ok region →
      (site.store tables table).Moves [] ((site.store tables table).withTable table region)) :
    Leaves (CellHolder.alter change) site
      fun site' => (site.store tables table).Moves [] (site'.store tables table) := by
  unfold Leaves Ends CellHolder.alter
  cases hregion : change (CellHolder.region site) with
  | error fault => exact .refl h
  | ok region =>
    refine (hchange region hregion).of_regions rfl fun name => ?_
    simp only [store, Store.withTable, Tables.region_put]
    split <;> rfl

theorem region_store : (site.store tables table).tables.region table = site.region := by
  rw [store, Tables.region_put, if_pos rfl]

theorem stamp_ends (h : (site.store tables table).Sound) (row : Bytes) {stamp : Stamp}
    (houtcome : site.supplier.register.outcome? writer = some stamp) :
    Leaves (CellHolder.alter (·.stampVersion row writer stamp)) site
      fun site' => (site.store tables table).Moves [] (site'.store tables table) :=
  alter_ends h fun _ hchange =>
    Store.moves_of_stampVersion h houtcome (region_store.symm ▸ hchange)

theorem purge_ends (h : (site.store tables table).Sound) (row : Bytes)
    (houtcome : site.supplier.register.outcome? writer = some .rolledBack) :
    Leaves (CellHolder.alter (·.purgeVersion row writer)) site
      fun site' => (site.store tables table).Moves [] (site'.store tables table) :=
  alter_ends h fun _ hchange =>
    Store.moves_of_purgeVersion h houtcome (region_store.symm ▸ hchange)

/-! ## Workers -/

theorem resolve_moves (h : (site.store tables table).Sound) (row : Bytes) (writer : TxnId) :
    (site.store tables table).Moves []
      ((CellHolder.resolve row writer site).2.store tables table) := by
  have hlookup := lookup_ends h writer
  unfold CellHolder.resolve
  cases hresolved : View.resolve writer site with
  | error e site₁ => exact hlookup.of_error hresolved
  | ok view site₁ =>
    obtain ⟨hmoves, -, houtcome⟩ := hlookup.of_ok hresolved
    cases hstamp : view.outcome with
    | none => simpa only [hstamp] using hmoves
    | some stamp =>
      have hstamped := stamp_ends (hmoves.sound h) row (houtcome stamp hstamp)
      simp only [hstamp]
      cases halter : CellHolder.alter (·.stampVersion row writer stamp) site₁ with
      | error e site₂ => exact hmoves.trans (hstamped.of_error halter)
      | ok _ site₂ => exact hmoves.trans (hstamped.of_ok halter)

/-! ## Compaction -/

theorem classify_ends (h : (site.store tables table).Sound) {stamp : Option Stamp}
    (hstamp : ∀ found, stamp = some found → site.supplier.register.outcome? writer = some found) :
    Ends (classify writer stamp) site
      (fun action site' => (site.store tables table).Moves [] (site'.store tables table) ∧
        action.BorneOut (site'.supplier.register.outcome? writer))
      fun _ site' => (site.store tables table).Moves [] (site'.store tables table) := by
  unfold classify
  match stamp with
  | some .rolledBack => exact ⟨.refl h, hstamp .rolledBack rfl⟩
  | some (.committed time) => exact ⟨.refl h, trivial⟩
  | none =>
    rw [ends_bind]
    refine (lookup_ends h writer).mono ?_ (fun _ _ h => h)
    rintro view site' ⟨hmoves, -, houtcome⟩
    refine ⟨hmoves, ?_⟩
    cases hfound : view.outcome with
    | none => exact trivial
    | some found =>
      cases found with
      | committed time => exact houtcome (.committed time) hfound
      | rolledBack => exact houtcome .rolledBack hfound

theorem apply_ends (h : (site.store tables table).Sound) {action : CompactionAction}
    (haction : action.BorneOut (site.supplier.register.outcome? writer)) :
    Leaves (CellHolder.apply row writer action) site
      fun site' => (site.store tables table).Moves [] (site'.store tables table) := by
  cases action with
  | keep => exact .refl h
  | settle stamp => exact stamp_ends h row haction
  | purge => exact purge_ends h row haction

/-- The stamps of listed versions are still the outcomes of their writers when they are processed.
-/
theorem compactVersions_ends (h : (site.store tables table).Sound) (row : Bytes)
    (versions : List Version) (summary : CompactionSummary)
    (hstamps : ∀ version ∈ versions, ∀ stamp, version.stamp = some stamp →
      site.supplier.register.outcome? version.writer = some stamp) :
    Leaves (CellHolder.compactVersions row versions summary) site
      fun site' => (site.store tables table).Moves [] (site'.store tables table) := by
  induction versions generalizing site summary with
  | nil => exact .refl h
  | cons version older ih =>
    obtain ⟨hstamp, hstamps⟩ := List.forall_mem_cons.1 hstamps
    simp only [CellHolder.compactVersions, CellHolder.compactVersion, ends_bind]
    refine (classify_ends h hstamp).mono ?_ (fun _ _ h => h)
    rintro action site₁ ⟨hclassified, haction⟩
    refine (apply_ends (hclassified.sound h) haction).mono ?_ (fun _ _ h' => hclassified.trans h')
    intro _ site₂ happlied
    have hmoves := hclassified.trans happlied
    refine Leaves.imp (ih (hmoves.sound h) _ fun other hother stamp hfound => ?_)
      fun _ h' => hmoves.trans h'
    exact hmoves.steps.outcome? (hstamps other hother stamp hfound)

theorem compactRow_ends (h : (site.store tables table).Sound) (row : Bytes) :
    Leaves (CellHolder.compactRow row) site
      fun site' => (site.store tables table).Moves [] (site'.store tables table) := by
  simp only [CellHolder.compactRow, ends_bind, ends_get, ends_ofExcept]
  have hregion : CellHolder.region site = site.region := rfl
  rw [hregion]
  cases hversions : site.region.versions row with
  | error fault => exact .refl h
  | ok versions =>
    have hregion : (site.store tables table).tables.region table = site.region := region_store
    have hlegible : site.region.Legible := hregion ▸ h.tables table
    obtain ⟨listed, hlisted, -, hmem⟩ := Partition.exists_versions (hlegible row)
      (Partition.available_of_versions hversions)
    cases hversions.symm.trans hlisted
    refine compactVersions_ends h row versions .zero fun version hversion stamp hstamp => ?_
    have hfound := (Partition.version?_eq_some_iff.1 ((hmem version).1 hversion)).2.2
    have hstamped :
        (site.store tables table).world.stamps table row version.writer = some stamp := by
      rw [← hstamp, ← hfound]
      exact congrArg (fun region => region.stamp? row version.writer) hregion
    exact h.world.stamped hstamped

end Site

namespace Environment

variable {env : Environment}

theorem compact_ends (h : env.store.Sound) (table : String) (row : Bytes) :
    Leaves (compact table row) env fun env' => env.store.Moves [] env'.store := by
  have hself := Store.moves_withTable_self h table
  have hsite : (Site.store env.tables table ⟨env.tables.region table, env.ledger⟩).Sound :=
    hself.sound h
  exact ends_within.2 ((Site.compactRow_ends hsite row).imp fun _ h' => hself.trans h')

def resolve (event : ResolveEvent) (env : Environment) : Environment :=
  let shop := (env.workshop env.ledger).handle event
  { env.afterWork shop with ledger := shop.supplier }

end Environment

namespace Workshop

def store (shop : Workshop (Ledger Oracle)) : Store := ⟨shop.supplier, shop.tables⟩

/-- Handling an event resolves a version in the table of the event. -/
theorem handle_store (shop : Workshop (Ledger Oracle)) (hown : shop.ownTable = none)
    (event : ResolveEvent) :
    (shop.handle event).store = Site.store shop.tables event.table
        (CellHolder.resolve event.row event.writer
          (⟨shop.tables.region event.table, shop.supplier⟩ : Site (Ledger Oracle))).2 ∧
      (shop.handle event).ownTable = none := by
  have hother : ¬ shop.ownTable = some event.table := by simp [hown]
  simp only [handle, resolve, stamp, if_neg hother]
  split
  · exact ⟨rfl, hown⟩
  · exact ⟨rfl, hown⟩

theorem handle_moves (shop : Workshop (Ledger Oracle)) (h : shop.store.Sound)
    (hown : shop.ownTable = none) (event : ResolveEvent) :
    shop.store.Moves [] (shop.handle event).store ∧ (shop.handle event).ownTable = none := by
  obtain ⟨hstore, hown'⟩ := handle_store shop hown event
  have hself := Store.moves_withTable_self h event.table
  have hsite : (Site.store shop.tables event.table
      ⟨shop.tables.region event.table, shop.supplier⟩).Sound := hself.sound h
  rw [hstore]
  exact ⟨hself.trans (Site.resolve_moves hsite event.row event.writer), hown'⟩

theorem foldl_handle_moves (shop : Workshop (Ledger Oracle)) (h : shop.store.Sound)
    (hown : shop.ownTable = none) (events : List ResolveEvent) :
    shop.store.Moves [] (events.foldl handle shop).store := by
  induction events generalizing shop with
  | nil => exact .refl h
  | cons event events ih =>
    obtain ⟨hmoves, hown'⟩ := handle_moves shop h hown event
    exact hmoves.trans (ih _ (hmoves.sound h) hown')

theorem handle_looked {s : Ledger Oracle} (shop : Workshop (Ledger Oracle))
    (h : s.Looked shop.supplier) (hown : shop.ownTable = none) (event : ResolveEvent) :
    s.Looked (shop.handle event).supplier ∧ (shop.handle event).ownTable = none := by
  obtain ⟨hstore, hown'⟩ := handle_store shop hown event
  have hsupplier : (shop.handle event).supplier = _ := congrArg Store.ledger hstore
  rw [hsupplier]
  exact ⟨Site.resolve_keeps (fun _ => Ledger.Looked.resolve) h event.row event.writer, hown'⟩

theorem foldl_handle_looked {s : Ledger Oracle} (shop : Workshop (Ledger Oracle))
    (h : s.Looked shop.supplier) (hown : shop.ownTable = none) (events : List ResolveEvent) :
    s.Looked (events.foldl handle shop).supplier := by
  induction events generalizing shop with
  | nil => exact h
  | cons event events ih =>
    obtain ⟨hlooked, hown'⟩ := handle_looked shop h hown event
    exact ih _ hlooked hown'

end Workshop

namespace Environment

variable {env : Environment}

theorem resolve_moves (h : env.store.Sound) (event : ResolveEvent) :
    env.store.Moves [] (env.resolve event).store :=
  (Workshop.handle_moves (env.workshop env.ledger) h rfl event).1

theorem settle_moves (h : env.store.Sound) : env.store.Moves [] env.settle.store := by
  unfold settle
  cases env.queue with
  | none => exact .refl h
  | some queue =>
    simp only [Workshop.drain]
    split
    · exact Workshop.foldl_handle_moves (env.workshop env.ledger) h rfl queue.waiting
    · exact .refl h

/-! ## The ledger alone -/

theorem resolve_looked (h : env.ledger.Legible) (event : ResolveEvent) :
    env.ledger.Looked (env.resolve event).ledger :=
  (Workshop.handle_looked (env.workshop env.ledger) (.refl h) rfl event).1

theorem settle_looked (h : env.ledger.Legible) : env.ledger.Looked env.settle.ledger := by
  unfold settle
  cases env.queue with
  | none => exact .refl h
  | some queue =>
    simp only [Workshop.drain]
    split
    · exact Workshop.foldl_handle_looked (env.workshop env.ledger) (.refl h) rfl queue.waiting
    · exact .refl h

theorem compact_looked (h : env.ledger.Legible) (table : String) (row : Bytes) :
    Leaves (compact table row) env fun env' => env.ledger.Looked env'.ledger :=
  ends_within.2 (Site.compactRow_keeps (fun _ => Ledger.Looked.resolve) (.refl h) row)

end Environment

end Mvcc

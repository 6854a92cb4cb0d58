import Mvcc.Cell.Tables
import Mvcc.Proofs.Cell.Versions
import Mvcc.Proofs.Service.World
import Mvcc.Proofs.Txn.Simulation

/-!
# Stores

A store is a ledger with its tables. Look-ups change the ledger alone; writes, stamps and purges
change one table alone. Each is a step of the world of the store.
-/

namespace Mvcc

namespace Tables

theorem region_put (tables : Tables) (name other : String) (region : Partition) :
    (tables.put name region).region other =
      if other = name then region else tables.region other := by
  simp only [Tables.region, put, SortedMap.get?_insert]
  split
  · rename_i h
    rw [h]
    rfl
  · rfl

def Legible (tables : Tables) : Prop := ∀ name, (tables.region name).Legible

end Tables

/-- A ledger, and the tables to which its transactions write. -/
structure Store where
  ledger : Ledger Oracle
  tables : Tables

namespace Store

def world (s : Store) : World where
  register := s.ledger.register
  values table := (s.tables.region table).value?
  stamps table := (s.tables.region table).stamp?

structure Sound (s : Store) : Prop where
  ledger : s.ledger.Legible
  tables : s.tables.Legible
  world : s.world.Sound

/-- Steps of the world between two stores that draw no timestamp and do not change the clock. -/
structure Moves (s : Store) (entries : List Entry) (s' : Store) : Prop where
  ledger : s'.ledger.Legible
  tables : s'.tables.Legible
  steps : s.world.Steps entries s'.world
  source : s'.ledger.source = s.ledger.source
  now : s'.ledger.now = s.ledger.now

variable {s s' s'' : Store} {entries more : List Entry}

theorem Moves.refl (h : s.Sound) : s.Moves [] s := ⟨h.ledger, h.tables, .refl _, rfl, rfl⟩

theorem Moves.trans (h : s.Moves entries s') (h' : s'.Moves more s'') :
    s.Moves (entries ++ more) s'' :=
  ⟨h'.ledger, h'.tables, h.steps.trans h'.steps, h'.source.trans h.source, h'.now.trans h.now⟩

theorem Moves.sound (h : s.Sound) (hmoves : s.Moves entries s') : s'.Sound :=
  ⟨hmoves.ledger, hmoves.tables, hmoves.steps.sound h.world⟩

theorem Moves.of_regions (h : s.Moves entries s') (hledger : s''.ledger = s'.ledger)
    (hregions : ∀ name, s''.tables.region name = s'.tables.region name) : s.Moves entries s'' := by
  have hworld : s''.world = s'.world := by
    simp only [world, hledger, hregions]
  refine ⟨hledger ▸ h.ledger, fun name => hregions name ▸ h.tables name, ?_, ?_, ?_⟩
  · rw [hworld]
    exact h.steps
  · rw [hledger, h.source]
  · rw [hledger, h.now]

/-! ## The ledger moves -/

def withLedger (s : Store) (ledger : Ledger Oracle) : Store := { s with ledger := ledger }

theorem Moves.of_stepped (h : s.Sound) {ledger : Ledger Oracle}
    (hstepped : s.ledger.Stepped ledger) : s.Moves [] (s.withLedger ledger) := by
  refine ⟨hstepped.1, h.tables, ?_, hstepped.2.source, hstepped.2.now⟩
  exact World.Step.single (.ledger (hstepped.2.proceeds _ h.world.plain.sound))

/-! ## A table moves -/

def withTable (s : Store) (name : String) (region : Partition) : Store :=
  { s with tables := s.tables.put name region }

theorem Sound.legible_put (h : s.Sound) {name : String} {region : Partition}
    (hregion : region.Legible) : (s.withTable name region).tables.Legible := by
  intro table
  simp only [withTable, Tables.region_put]
  split
  · exact hregion
  · exact h.tables table

variable {table : String} {row : Bytes} {writer : TxnId} {region : Partition}
  {values : Bytes → TxnId → Option (Option Bytes)} {stamps : Bytes → TxnId → Option Stamp}

theorem world_withTable {w : World} (hvalue : region.value? = values)
    (hstamp : region.stamp? = stamps)
    (hregister : w.register = s.world.register)
    (hvalues : ∀ other, w.values other = if other = table then values else s.world.values other)
    (hstamps : ∀ other, w.stamps other = if other = table then stamps else s.world.stamps other) :
    (s.withTable table region).world = w := by
  obtain ⟨register, values', stamps'⟩ := w
  simp only [world, withTable, World.mk.injEq]
  refine ⟨hregister.symm, ?_, ?_⟩
  · refine funext fun other => Eq.trans ?_ (hvalues other).symm
    rw [Tables.region_put, ← hvalue]
    split <;> rfl
  · refine funext fun other => Eq.trans ?_ (hstamps other).symm
    rw [Tables.region_put, ← hstamp]
    split <;> rfl

private theorem changed_in_table {α : Type} (found : String → Bytes → TxnId → α) (change : α)
    (table other : String) (row : Bytes) (writer : TxnId) :
    (fun row' writer' => if other = table ∧ row' = row ∧ writer' = writer then change
      else found other row' writer') =
    if other = table then
      fun row' writer' => if row' = row ∧ writer' = writer then change else found table row' writer'
    else found other := by
  funext row' writer'
  by_cases h : other = table
  · subst h
    simp
  · simp [h]

private theorem found_in_table {α : Type} (found : String → α) (table other : String) :
    found other = if other = table then found table else found other := by
  split
  · rename_i h
    rw [h]
  · rfl

/-- Changing a table without changing its values and stamps changes no world. -/
theorem moves_withTable (h : s.Sound) (hregion : region.Legible)
    (hvalue : region.value? = (s.tables.region table).value?)
    (hstamp : region.stamp? = (s.tables.region table).stamp?) :
    s.Moves [] (s.withTable table region) := by
  refine ⟨h.ledger, h.legible_put hregion, ?_, rfl, rfl⟩
  rw [world_withTable hvalue hstamp rfl (found_in_table s.world.values table)
    (found_in_table s.world.stamps table)]
  exact .refl _

theorem moves_withTable_self (h : s.Sound) (table : String) :
    s.Moves [] (s.withTable table (s.tables.region table)) :=
  moves_withTable h (h.tables table) rfl rfl

theorem Moves.of_shows (h : s.Sound) (hshows : (s.tables.region table).Shows region values stamps)
    {w : World} (hstep : s.world.Step entries w) (hworld : (s.withTable table region).world = w) :
    s.Moves entries (s.withTable table region) := by
  refine ⟨h.ledger, h.legible_put (fun row => hshows.legible (h.tables table row)), ?_, rfl, rfl⟩
  rw [hworld]
  exact hstep.single

theorem world_of_writeVersion {value : Option Bytes}
    (hwrite : (s.tables.region table).writeVersion row writer value = .ok region) :
    (s.withTable table region).world = s.world.write ⟨table, row, writer, value⟩ := by
  have hshows := Partition.shows_of_writeVersion hwrite
  exact world_withTable hshows.value? hshows.stamp? rfl
    (fun other => changed_in_table s.world.values (some value) table other row writer)
    (found_in_table s.world.stamps table)

/-- A live transaction writes a version after all other writers are out of the way. -/
theorem moves_of_writeVersion (h : s.Sound) (hrecord : (s.ledger.register.records writer).isSome)
    (hactive : s.ledger.register.outcome? writer = none) (hclear : s.world.Clear table row writer)
    {value : Option Bytes}
    (hwrite : (s.tables.region table).writeVersion row writer value = .ok region) :
    s.Moves [⟨table, row, writer, value⟩] (s.withTable table region) :=
  .of_shows h (Partition.shows_of_writeVersion hwrite) (.write hrecord hactive hclear)
    (world_of_writeVersion hwrite)

theorem moves_of_stampVersion (h : s.Sound) {stamp : Stamp}
    (houtcome : s.ledger.register.outcome? writer = some stamp)
    (hchange : (s.tables.region table).stampVersion row writer stamp = .ok region) :
    s.Moves [] (s.withTable table region) := by
  rcases Partition.shows_of_stampVersion hchange with rfl | hshows
  · exact moves_withTable_self h table
  · have hworld : (s.withTable table region).world = s.world.stamp table row writer stamp :=
      world_withTable hshows.value? hshows.stamp? rfl (found_in_table s.world.values table)
        fun other => changed_in_table s.world.stamps (some stamp) table other row writer
    exact .of_shows h hshows (.stamp houtcome) hworld

theorem moves_of_purgeVersion (h : s.Sound)
    (houtcome : s.ledger.register.outcome? writer = some .rolledBack)
    (hchange : (s.tables.region table).purgeVersion row writer = .ok region) :
    s.Moves [] (s.withTable table region) := by
  have hshows := Partition.shows_of_purgeVersion hchange
  have hworld : (s.withTable table region).world = s.world.purge table row writer :=
    world_withTable hshows.value? hshows.stamp? rfl
      (fun other => changed_in_table s.world.values none table other row writer)
      fun other => changed_in_table s.world.stamps none table other row writer
  exact .of_shows h hshows (.purge houtcome) hworld

end Store

end Mvcc

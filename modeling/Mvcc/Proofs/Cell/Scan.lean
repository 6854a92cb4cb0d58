import Mvcc.Proofs.Cell.Partition

/-!
# Scans

After any changes a cell holds the last value put there and not deleted since, and a row is present
as long as it has a cell. A scan lists all rows whose keys start with the stem, in order. Cell
reads, row reads and scans agree.
-/

namespace Mvcc

inductive CellChange where
  | put (row column value : Bytes)
  | delete (row column : Bytes)

namespace CellChange

def cell : CellChange → Bytes × Bytes
  | .put row column _ => (row, column)
  | .delete row column => (row, column)

def value? : CellChange → Option Bytes
  | .put _ _ value => some value
  | .delete .. => none

variable {changes : List CellChange} {row column value : Bytes}

theorem eq_put_of_value? {change : CellChange} (hcell : change.cell = (row, column))
    (hvalue : change.value? = some value) : change = .put row column value := by
  cases change with
  | put row' column' value' =>
    cases hcell
    cases hvalue
    rfl
  | delete row' column' => cases hvalue

/-- Of some changes in their order, the last one of a cell put this value there: it is a put that is
not followed by another put or a delete of the cell. -/
def Lasts (changes : List CellChange) (row column value : Bytes) : Prop :=
  ∃ earlier later, changes = earlier ++ .put row column value :: later ∧
    ∀ change ∈ later, change.cell ≠ (row, column)

theorem not_lasts_nil : ¬ Lasts [] row column value := by
  rintro ⟨earlier, later, hnil, -⟩
  simp at hnil

theorem lasts_concat {change : CellChange} :
    Lasts (changes ++ [change]) row column value ↔
      if change.cell = (row, column) then change.value? = some value
      else Lasts changes row column value := by
  constructor
  · rintro ⟨earlier, later, hchanges, hlater⟩
    rcases List.eq_nil_or_concat later with rfl | ⟨front, last, rfl⟩
    · obtain ⟨-, hput⟩ := List.append_inj' hchanges rfl
      cases hput
      simp [cell, value?]
    · rw [List.concat_eq_append] at hchanges hlater
      rw [← List.cons_append, ← List.append_assoc] at hchanges
      obtain ⟨rfl, hlast⟩ := List.append_inj' hchanges rfl
      cases hlast
      rw [if_neg (hlater change (by simp))]
      exact ⟨earlier, front, rfl, fun other hother => hlater other (by simp [hother])⟩
  · intro h
    split at h
    · rename_i hcell
      exact ⟨changes, [], by rw [eq_put_of_value? hcell h], by simp⟩
    · rename_i hcell
      obtain ⟨earlier, later, rfl, hlater⟩ := h
      refine ⟨earlier, later ++ [change], by simp, fun other hother => ?_⟩
      rcases List.mem_append.1 hother with hother | hother
      · exact hlater other hother
      · rw [List.mem_singleton.1 hother]
        exact hcell

end CellChange

namespace Partition

open CellChange

variable {p p' : Partition} {changes : List CellChange}

def changed (p : Partition) : CellChange → Partition
  | .put row column value => p.withCell row column value
  | .delete row column => p.withoutCell row column

def change (p : Partition) : CellChange → Except StorageError Partition
  | .put row column value => p.put row column value
  | .delete row column => p.delete row column

def changeAll (p : Partition) (changes : List CellChange) : Except StorageError Partition :=
  changes.foldlM change p

theorem change_eq (p : Partition) (change : CellChange) :
    p.change change = p.serve (p.changed change) := by
  cases change <;> rfl

@[simp] theorem unavailable_changed (p : Partition) (change : CellChange) :
    (p.changed change).unavailable = p.unavailable := by
  cases change <;> rfl

theorem cell?_changed (p : Partition) (change : CellChange) (row column : Bytes) :
    (p.changed change).cell? row column =
      if change.cell = (row, column) then change.value? else p.cell? row column := by
  cases change with
  | put row' column' value =>
    simp only [changed, cell?_withCell, cell, value?, Prod.mk.injEq, eq_comm]
  | delete row' column' =>
    simp only [changed, cell?_withoutCell, cell, value?, Prod.mk.injEq, eq_comm]

/-! ## Rows without cells -/

def Occupied (p : Partition) : Prop :=
  ∀ row cells, p.rows.get? row = some cells → cells.isEmpty = false

theorem Occupied.withCell (h : p.Occupied) (row column value : Bytes) :
    (p.withCell row column value).Occupied := by
  intro other cells hcells
  simp only [Partition.withCell, SortedMap.get?_insert] at hcells
  split at hcells
  · cases hcells
    exact SortedMap.isEmpty_insert ..
  · exact h other cells hcells

theorem Occupied.withoutCell (h : p.Occupied) (row column : Bytes) :
    (p.withoutCell row column).Occupied := by
  intro other cells hcells
  simp only [Partition.withoutCell, replaceRow] at hcells
  split at hcells
  · rw [SortedMap.get?_erase] at hcells
    split at hcells
    · cases hcells
    · exact h other cells hcells
  · rename_i hleft
    rw [SortedMap.get?_insert] at hcells
    split at hcells
    · cases hcells
      simpa using hleft
    · exact h other cells hcells

theorem Occupied.changed (h : p.Occupied) (change : CellChange) : (p.changed change).Occupied := by
  cases change with
  | put row column value => exact h.withCell row column value
  | delete row column => exact h.withoutCell row column

theorem Occupied.get?_eq_some_iff (h : p.Occupied) {row : Bytes} {cells : Columns} :
    p.rows.get? row = some cells ↔
      p.columns row = cells ∧ ∃ column value, p.cell? row column = some value := by
  constructor
  · intro hcells
    have hcolumns : p.columns row = cells := by rw [columns, hcells, Option.getD_some]
    refine ⟨hcolumns, ?_⟩
    by_contra hnone
    simp only [not_exists] at hnone
    have hempty : cells.isEmpty = true := SortedMap.isEmpty_iff.2 fun column => by
      rw [← hcolumns]
      exact Option.eq_none_iff_forall_ne_some.2 (hnone column)
    rw [h row cells hcells] at hempty
    cases hempty
  · rintro ⟨rfl, column, value, hcell⟩
    cases hrow : p.rows.get? row with
    | none => simp [cell?, columns, hrow] at hcell
    | some cells => rw [columns, hrow, Option.getD_some]

/-! ## Changes -/

/-- An available partition whose cells are those left by the changes, and whose rows are those of
its cells. -/
structure Reflects (p : Partition) (changes : List CellChange) : Prop where
  available : p.unavailable = false
  occupied : p.Occupied
  cell?_eq_some_iff (row column value : Bytes) :
    p.cell? row column = some value ↔ Lasts changes row column value

theorem reflects_new (name : String) : (new name).Reflects [] where
  available := rfl
  occupied _ _ h := nomatch h
  cell?_eq_some_iff _ _ _ := ⟨fun h => (nomatch h), fun h => absurd h not_lasts_nil⟩

theorem Reflects.change (h : p.Reflects changes) (change : CellChange) :
    ∃ p', p.change change = .ok p' ∧ p'.Reflects (changes ++ [change]) := by
  refine ⟨p.changed change, ?_, ?_, h.occupied.changed change, fun row column value => ?_⟩
  · rw [change_eq, serve_of_available h.available]
  · rw [unavailable_changed, h.available]
  · rw [cell?_changed, lasts_concat, ← h.cell?_eq_some_iff]
    split <;> rfl

theorem Reflects.changeAll (h : p.Reflects changes) (more : List CellChange) :
    ∃ p', p.changeAll more = .ok p' ∧ p'.Reflects (changes ++ more) := by
  induction more generalizing p changes with
  | nil => exact ⟨p, rfl, by rwa [List.append_nil]⟩
  | cons change more ih =>
    obtain ⟨p', hchange, h'⟩ := h.change change
    obtain ⟨p'', hmore, h''⟩ := ih h'
    refine ⟨p'', ?_, by rwa [List.append_cons]⟩
    rw [Partition.changeAll, List.foldlM_cons, hchange]
    exact hmore

/-- After any puts and deletes on an empty partition, all of which succeed: a cell reads as the last
put that no delete followed; a row reads as its cells by ascending column; and a listing of a key
prefix has the rows with that prefix and at least one cell, by ascending key, each with all its
cells. A row whose last cell was deleted reads as empty and is not listed. -/
theorem scan_changeAll (name : String) (changes : List CellChange) :
    ∃ p, (new name).changeAll changes = .ok p ∧
      (∀ row column, ∃ found, p.get row column = .ok found ∧
        ∀ value, found = some value ↔ Lasts changes row column value) ∧
      (∀ row, ∃ cells, p.getRow row = .ok cells ∧ cells.entries.Pairwise (·.1 < ·.1) ∧
        ∀ column value, (column, value) ∈ cells.entries ↔ Lasts changes row column value) ∧
      ∀ stem, ∃ rows, p.scan stem = .ok rows ∧ rows.Pairwise (·.1 < ·.1) ∧
        ∀ row cells, (row, cells) ∈ rows ↔
          stem <+: row ∧ p.getRow row = .ok cells ∧
            ∃ column value, Lasts changes row column value := by
  obtain ⟨p, hchanges, h⟩ := (reflects_new name).changeAll changes
  rw [List.nil_append] at h
  refine ⟨p, hchanges, ?cells, ?rows, ?listing⟩
  case cells =>
    intro row column
    exact ⟨_, serve_of_available h.available _, h.cell?_eq_some_iff row column⟩
  case rows =>
    intro row
    refine ⟨_, serve_of_available h.available _, (p.columns row).ascending, fun column value => ?_⟩
    rw [SortedMap.mem_entries_iff]
    exact h.cell?_eq_some_iff row column value
  case listing =>
    intro stem
    refine ⟨_, serve_of_available h.available _, p.rowsFrom_ascending stem, fun row cells => ?_⟩
    rw [mem_rowsFrom_iff, h.occupied.get?_eq_some_iff, getRow, serve_of_available h.available,
      Except.ok.injEq]
    simp only [h.cell?_eq_some_iff]

end Partition

end Mvcc

import Mvcc.Cell.Partition
import Mvcc.Proofs.Data.SortedMap

/-!
# Cells of a partition

A partition is determined by its cells. Writing or deleting a cell changes no other cell, also where
a row is created or removed with it.
-/

namespace Mvcc.Partition

/-! ## Serving -/

theorem serve_of_available {α : Type} {p : Partition} (h : p.unavailable = false) (answer : α) :
    p.serve answer = .ok answer := by
  simp [serve, h]

theorem serve_eq_ok_iff {α : Type} {p : Partition} {answer found : α} :
    p.serve answer = .ok found ↔ p.unavailable = false ∧ answer = found := by
  cases h : p.unavailable <;> simp [serve, h]

/-! ## Columns and cells -/

theorem columns_withCell (p : Partition) (row column value other : Bytes) :
    (p.withCell row column value).columns other =
      if other = row then (p.columns row).insert column value else p.columns other := by
  simp only [columns, withCell, SortedMap.get?_insert]
  split <;> rfl

theorem columns_withoutCell (p : Partition) (row column other : Bytes) :
    (p.withoutCell row column).columns other =
      if other = row then (p.columns row).erase column else p.columns other := by
  rw [withoutCell, columns, replaceRow]
  dsimp only
  split
  · rename_i hempty
    rw [SortedMap.get?_erase, SortedMap.eq_empty_of_isEmpty hempty]
    split <;> rfl
  · rw [SortedMap.get?_insert]
    split <;> rfl

theorem cell?_withCell (p : Partition) (row column value row' column' : Bytes) :
    (p.withCell row column value).cell? row' column' =
      if row' = row ∧ column' = column then some value else p.cell? row' column' := by
  rw [cell?, columns_withCell]
  by_cases hrow : row' = row
  · subst hrow
    by_cases hcolumn : column' = column <;> simp [SortedMap.get?_insert, hcolumn, cell?]
  · simp [hrow, cell?]

theorem cell?_withoutCell (p : Partition) (row column row' column' : Bytes) :
    (p.withoutCell row column).cell? row' column' =
      if row' = row ∧ column' = column then none else p.cell? row' column' := by
  rw [cell?, columns_withoutCell]
  by_cases hrow : row' = row
  · subst hrow
    by_cases hcolumn : column' = column <;> simp [SortedMap.get?_erase, hcolumn, cell?]
  · simp [hrow, cell?]

/-! ## Writing -/

@[simp] theorem unavailable_withCell (p : Partition) (row column value : Bytes) :
    (p.withCell row column value).unavailable = p.unavailable := rfl

/-- The order of two writes matters only where they put different values in one cell. -/
theorem withCell_comm {p : Partition} {row column value row' column' value' : Bytes}
    (h : row = row' ∧ column = column' → value = value') :
    (p.withCell row column value).withCell row' column' value' =
      (p.withCell row' column' value').withCell row column value := by
  have hrows : ((p.withCell row column value).withCell row' column' value').rows =
      ((p.withCell row' column' value').withCell row column value).rows := by
    simp only [withCell]
    by_cases hrow : row = row'
    · subst hrow
      have hcells : ((p.columns row).insert column value).insert column' value' =
          ((p.columns row).insert column' value').insert column value :=
        SortedMap.insert_comm fun hcolumn => h ⟨rfl, hcolumn⟩
      simp only [columns, SortedMap.get?_insert_self, Option.getD_some] at hcells ⊢
      refine SortedMap.ext_get? fun key => ?_
      simp only [SortedMap.get?_insert, hcells]
      split <;> rfl
    · have hkept := columns_withCell p row column value row'
      have hkept' := columns_withCell p row' column' value' row
      rw [if_neg (Ne.symm hrow)] at hkept
      rw [if_neg hrow] at hkept'
      simp only [withCell] at hkept hkept'
      rw [hkept, hkept']
      exact SortedMap.insert_comm fun hsame => absurd hsame hrow
  calc (p.withCell row column value).withCell row' column' value'
    _ = { p with
          rows := ((p.withCell row column value).withCell row' column' value').rows
          puts := p.puts + 1 + 1 } := rfl
    _ = (p.withCell row' column' value').withCell row column value := by
      rw [hrows]
      rfl

/-- Writing what is there already is counted, and changes nothing else. -/
theorem withCell_of_cell? {p : Partition} {row column value : Bytes}
    (h : p.cell? row column = some value) :
    p.withCell row column value = { p with puts := p.puts + 1 } := by
  have hrow : p.rows.get? row = some (p.columns row) := by
    cases hcells : p.rows.get? row with
    | none => simp [cell?, columns, hcells] at h
    | some cells => simp [columns, hcells]
  have hcells : (p.columns row).insert column value = p.columns row := SortedMap.insert_of_get? h
  rw [withCell, hcells, SortedMap.insert_of_get? hrow]

/-! ## Listing -/

theorem isPrefix_of_between {stem key key' : Bytes} (hfrom : ¬ key < stem) (hlt : key < key')
    (hstem : stem <+: key') : stem <+: key := by
  induction stem generalizing key key' with
  | nil => exact List.nil_prefix
  | cons byte stem ih =>
    obtain ⟨rest, rfl⟩ := hstem
    cases key with
    | nil => exact absurd (List.nil_lt_cons ..) hfrom
    | cons first key =>
      rw [List.cons_lt_cons_iff] at hfrom
      rw [List.cons_append, List.cons_lt_cons_iff] at hlt
      obtain ⟨hfirst, hbehind⟩ := not_or.1 hfrom
      obtain hless | ⟨rfl, hlt⟩ := hlt
      · exact absurd hless hfirst
      · have hprefix := ih (fun hless => hbehind ⟨rfl, hless⟩) hlt (List.prefix_append ..)
        exact List.cons_prefix_cons.2 ⟨rfl, hprefix⟩

/-- Starting at the stem and stopping at the first other key loses no row: keys with a common prefix
are contiguous. -/
theorem rowsFrom_eq (p : Partition) (stem : Bytes) :
    p.rowsFrom stem = (p.rows.filterKeys (stem.isPrefixOf ·)).entries := by
  have hbelow : p.rows.entries.Pairwise fun earlier later =>
      decide (later.1 < stem) = true → decide (earlier.1 < stem) = true :=
    p.rows.ascending.imp fun hlt hbelow => by
      simpa using List.lt_trans hlt (by simpa using hbelow)
  have hstem : (p.rows.entries.filter fun row => !decide (row.1 < stem)).Pairwise
      fun earlier later => stem.isPrefixOf later.1 = true → stem.isPrefixOf earlier.1 = true := by
    refine (p.rows.ascending.filter _).imp_of_mem fun hearlier _ hlt hlater => ?_
    have hfrom := (List.mem_filter.1 hearlier).2
    rw [List.isPrefixOf_iff_prefix] at hlater ⊢
    exact isPrefix_of_between (by simpa using hfrom) hlt hlater
  rw [rowsFrom, SortedMap.dropWhile_eq_filter hbelow, SortedMap.takeWhile_eq_filter hstem,
    List.filter_filter, SortedMap.filterKeys]
  refine List.filter_congr fun row _ => ?_
  cases hrow : stem.isPrefixOf row.1 with
  | false => rfl
  | true =>
    have hle := (List.isPrefixOf_iff_prefix.1 hrow).le
    simpa using hle

theorem mem_rowsFrom_iff {p : Partition} {stem row : Bytes} {cells : Columns} :
    (row, cells) ∈ p.rowsFrom stem ↔ stem <+: row ∧ p.rows.get? row = some cells := by
  rw [rowsFrom_eq, SortedMap.mem_entries_iff, SortedMap.get?_filterKeys]
  simp

theorem columns_of_mem_rowsFrom {p : Partition} {stem row : Bytes} {cells : Columns}
    (h : (row, cells) ∈ p.rowsFrom stem) : p.columns row = cells := by
  simp [columns, (mem_rowsFrom_iff.1 h).2]

theorem mem_rowsFrom_of_cell? {p : Partition} {stem row column value : Bytes}
    (hstem : stem <+: row) (h : p.cell? row column = some value) :
    (row, p.columns row) ∈ p.rowsFrom stem := by
  refine mem_rowsFrom_iff.2 ⟨hstem, ?_⟩
  cases hrow : p.rows.get? row with
  | none => simp [cell?, columns, hrow] at h
  | some cells => simp [columns, hrow]

theorem rowsFrom_ascending (p : Partition) (stem : Bytes) :
    (p.rowsFrom stem).Pairwise (·.1 < ·.1) := by
  rw [rowsFrom_eq]
  exact (p.rows.filterKeys _).ascending

theorem rowsFrom_withCell {p : Partition} {row column : Bytes} (h : (p.cell? row column).isSome)
    (stem column' value : Bytes) :
    (p.withCell row column' value).rowsFrom stem = (p.rowsFrom stem).map fun entry =>
      if entry.1 = row then (row, (p.columns row).insert column' value) else entry := by
  have hmem : ∃ entry ∈ p.rows.entries, entry.1 = row := by
    cases hrow : p.rows.get? row with
    | none => simp [cell?, columns, hrow] at h
    | some cells => exact ⟨(row, cells), SortedMap.mem_entries_iff.2 hrow, rfl⟩
  have hkeys : (fun entry : Bytes × Columns => stem.isPrefixOf entry.1) ∘ (fun entry =>
      if entry.1 = row then (row, (p.columns row).insert column' value) else entry) =
        fun entry => stem.isPrefixOf entry.1 := by
    funext entry
    by_cases hentry : entry.1 = row <;> simp [hentry]
  simp only [rowsFrom_eq, withCell, SortedMap.filterKeys, SortedMap.insert,
    SortedMap.insertEntry_of_mem _ p.rows.ascending hmem, List.filter_map]
  exact congrArg (List.map _) (congrArg (List.filter · p.rows.entries) hkeys)

end Mvcc.Partition

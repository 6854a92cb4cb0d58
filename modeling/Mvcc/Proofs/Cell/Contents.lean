import Mathlib.Data.List.Sort
import Mvcc.Proofs.Cell.Versions

/-!
# Contents of rows

The contents of a row are its writers with their values, or the error of listing it. Stamping
preserves the contents, also of rows that fail to list, and purging removes one writer.
-/

namespace Mvcc

namespace Version

def bare (version : Version) : TxnId × Option Bytes := (version.writer, version.value)

def bareEntry (stem : Bytes) (entry : Bytes × Columns) :
    Except StorageError (Option (TxnId × Option Bytes)) :=
  (ofEntry stem entry).map (Option.map bare)

end Version

namespace Partition

variable {p : Partition} {row row' : Bytes} {writer : TxnId}

/-- The writers of a row with what they wrote, newest first. -/
def contents (p : Partition) (row : Bytes) : Except StorageError (List (TxnId × Option Bytes)) :=
  (p.versions row).map (List.map Version.bare)

theorem contents_eq (p : Partition) (row : Bytes) :
    p.contents row = (do
      let entries ← p.scan (Version.stem row)
      let found ← entries.mapM (Version.bareEntry (Version.stem row))
      pure (found.filterMap id).reverse) := by
  rw [contents, versions]
  cases p.scan (Version.stem row) with
  | error e => rfl
  | ok entries =>
    simp only [bind, Except.bind]
    have hbare : entries.mapM (Version.bareEntry (Version.stem row)) =
        (entries.mapM (Version.ofEntry (Version.stem row))).map
          (List.map (Option.map Version.bare)) := Except.map_list_mapM.symm
    rw [hbare]
    cases entries.mapM (Version.ofEntry (Version.stem row)) with
    | error e => rfl
    | ok found =>
      simp only [pure, Except.pure, Except.map, Except.ok.injEq, List.map_reverse,
        List.filterMap_map, List.map_filterMap]
      rfl

/-! ## Stamping -/

/-- A stamp that can be read makes no difference to the rest of a stored row, in place of none or
of another that can be read. -/
theorem bareEntry_insert_stamp {stem key : Bytes} {cells : Columns} {stamp : Stamp}
    (hstamp : ∀ raw, cells.get? Version.stampColumn = some raw →
      ∃ found, Version.decodeStamp raw = .ok found) :
    Version.bareEntry stem (key, cells.insert Version.stampColumn stamp.encode) =
      Version.bareEntry stem (key, cells) := by
  have hdata : (cells.insert Version.stampColumn stamp.encode).get? Version.dataColumn =
      cells.get? Version.dataColumn := by
    rw [SortedMap.get?_insert, if_neg (by decide)]
  unfold Version.bareEntry Version.ofEntry
  split
  · simp only [Version.ofColumns, hdata, SortedMap.get?_insert_self]
    cases (cells.get? Version.dataColumn).mapM Version.decodeValue with
    | error e => rfl
    | ok value =>
      have hnew : (some stamp.encode).mapM Version.decodeStamp = .ok (some stamp) := by
        simp [Functor.map, Except.map]
      rw [hnew]
      cases hold : cells.get? Version.stampColumn with
      | none => cases value <;> rfl
      | some raw =>
        obtain ⟨found, hfound⟩ := hstamp raw hold
        have hraw : (some raw).mapM Version.decodeStamp = .ok (some found) := by
          simp [hfound, Functor.map, Except.map]
        rw [hraw]
        cases value <;> rfl
  · rfl

theorem bareEntry_of_other (hne : row' ≠ row)
    (hstem : Version.stem row <+: Version.key row' writer) (cells : Columns) :
    Version.bareEntry (Version.stem row) (Version.key row' writer, cells) = .ok none := by
  unfold Version.bareEntry Version.ofEntry
  split
  · rename_i hlength
    have hown := eq_key_of_length hstem hlength
    exact absurd (Version.key_inj.1 hown).1 hne
  · rfl

/-- Stamping a version that is there changes no contents. A stamp that it replaces has to be one
that can be read. -/
theorem contents_withStamp
    (hdata : (p.cell? (Version.key row' writer) Version.dataColumn).isSome) (stamp : Stamp)
    (hstamp : row' = row → ∀ raw, p.cell? (Version.key row writer) Version.stampColumn = some raw →
      ∃ found, Version.decodeStamp raw = .ok found) :
    (p.withCell (Version.key row' writer) Version.stampColumn stamp.encode).contents row =
      p.contents row := by
  rw [contents_eq, contents_eq]
  cases havailable : p.unavailable with
  | true => simp [scan, serve, havailable, withCell, bind, Except.bind]
  | false =>
    have hserving : (p.withCell (Version.key row' writer) Version.stampColumn
        stamp.encode).unavailable = false := havailable
    simp only [scan, serve_of_available havailable, serve_of_available hserving,
      rowsFrom_withCell hdata, bind, Except.bind, Except.list_mapM_map]
    rw [Except.list_mapM_congr]
    rintro ⟨key, cells⟩ hentry
    obtain ⟨hstem, -⟩ := mem_rowsFrom_iff.1 hentry
    by_cases hkey : key = Version.key row' writer
    · subst hkey
      have hcells : p.columns (Version.key row' writer) = cells := columns_of_mem_rowsFrom hentry
      rw [if_pos rfl, hcells]
      by_cases hrow : row' = row
      · subst hrow
        refine bareEntry_insert_stamp fun raw hraw => hstamp rfl raw ?_
        rw [cell?, hcells]
        exact hraw
      · rw [bareEntry_of_other hrow hstem, bareEntry_of_other hrow hstem]
    · rw [if_neg hkey]

/-! ## Purging -/

theorem ofColumns_eq_ok {cells : Columns} {version : Option Version}
    (h : Version.ofColumns writer cells = .ok version) :
    (∃ value, (cells.get? Version.dataColumn).mapM Version.decodeValue = .ok value) ∧
      ∃ stamp, (cells.get? Version.stampColumn).mapM Version.decodeStamp = .ok stamp := by
  unfold Version.ofColumns at h
  obtain ⟨value, hvalue, hrest⟩ := Except.bind_eq_ok_iff.1 h
  obtain ⟨stamp, hstamp, -⟩ := Except.bind_eq_ok_iff.1 hrest
  exact ⟨⟨value, hvalue⟩, stamp, hstamp⟩

theorem legibleAt_of_versions {found : List Version} (h : p.versions row = .ok found) :
    p.LegibleAt row := by
  intro writer
  obtain ⟨entries, hentries, hrest⟩ := Except.bind_eq_ok_iff.1 h
  obtain ⟨-, rfl⟩ := serve_eq_ok_iff.1 hentries
  obtain ⟨found, hfound, -⟩ := Except.bind_eq_ok_iff.1 hrest
  cases hcells : p.rows.get? (Version.key row writer) with
  | none => simp [value?, stamp?, cell?, columns, hcells, pure, Except.pure]
  | some cells =>
    have hentry : (Version.key row writer, cells) ∈ p.rowsFrom (Version.stem row) :=
      mem_rowsFrom_iff.2 ⟨List.prefix_append .., hcells⟩
    obtain ⟨version, hversion⟩ := Except.exists_ok_of_list_mapM hfound _ hentry
    rw [Version.ofEntry, if_pos (by simp [Version.key])] at hversion
    obtain ⟨⟨value, hvalue⟩, stamp, hstamp⟩ := ofColumns_eq_ok hversion
    have hcolumns : p.columns (Version.key row writer) = cells := columns_of_mem_rowsFrom hentry
    rw [← hcolumns] at hvalue hstamp
    exact ⟨Except.option_mapM_eq_bind hvalue, Except.option_mapM_eq_bind hstamp⟩

theorem versions_spec {versions : List Version} (h : p.versions row = .ok versions) :
    versions.Pairwise (fun newer older => older.writer < newer.writer) ∧
      ∀ version, version ∈ versions ↔ p.version? row version.writer = some version := by
  obtain ⟨listed, hlisted, hdescending, hmem⟩ :=
    exists_versions (legibleAt_of_versions h) (available_of_versions h)
  cases h.symm.trans hlisted
  exact ⟨hdescending, hmem⟩

theorem versions_eq_of_mem_iff {versions : List Version} (h : p.LegibleAt row)
    (havailable : p.unavailable = false)
    (hdescending : versions.Pairwise fun newer older => older.writer < newer.writer)
    (hmem : ∀ version, version ∈ versions ↔ p.version? row version.writer = some version) :
    p.versions row = .ok versions := by
  obtain ⟨listed, hlisted, hdescending', hmem'⟩ := exists_versions h havailable
  have hirrefl : Std.Irrefl fun newer older : Version => older.writer < newer.writer :=
    ⟨fun version => UInt64.lt_irrefl version.writer⟩
  have hantisymm : Std.Antisymm fun newer older : Version => older.writer < newer.writer :=
    ⟨fun newer older hlt hgt => absurd hlt (UInt64.lt_asymm hgt)⟩
  rw [hlisted,
    hdescending'.eq_of_mem_iff hdescending fun version => (hmem' version).trans (hmem version).symm]

theorem versions_of_contents {written : List (TxnId × Option Bytes)}
    (h : p.contents row = .ok written) :
    ∃ versions, p.versions row = .ok versions ∧ versions.map Version.bare = written := by
  unfold contents at h
  cases hversions : p.versions row with
  | error e => simp [hversions, Except.map] at h
  | ok versions => exact ⟨versions, rfl, by simpa [hversions, Except.map] using h⟩

/-- A row that can be listed holds, once a version was purged, what the others wrote. -/
theorem contents_purged {written : List (TxnId × Option Bytes)} (h : p.contents row = .ok written)
    (writer : TxnId) :
    (p.purged row writer).contents row = .ok (written.filter (·.1 ≠ writer)) := by
  obtain ⟨versions, hversions, rfl⟩ := versions_of_contents h
  obtain ⟨hdescending, hmem⟩ := versions_spec hversions
  have hshows := shows_purged p row writer
  have hkept : (p.purged row writer).versions row =
      .ok (versions.filter (·.writer ≠ writer)) := by
    refine versions_eq_of_mem_iff (hshows.legible (legibleAt_of_versions hversions))
      (hshows.unavailable.trans (available_of_versions hversions)) (hdescending.filter _)
      fun version => ?_
    rw [List.mem_filter, hmem, version?_eq_some_iff, version?_eq_some_iff, hshows.value?,
      hshows.stamp?]
    by_cases hwriter : version.writer = writer <;> simp [hwriter]
  rw [contents, hkept]
  simp only [Except.map, List.filter_map]
  rfl

end Partition

end Mvcc

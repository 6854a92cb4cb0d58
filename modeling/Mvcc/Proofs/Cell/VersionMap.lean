import Mvcc.Proofs.Cell.Versions

/-!
# A partition as a map of versions

Rows share one ordered key space, and a version has one column for its value and one for its stamp.
Writes, stamps and purges of a partition refine the same edits of a map from rows and writers to
values and stamps, as observed by listings.
-/

namespace Mvcc

inductive VersionEdit where
  | write (row : Bytes) (writer : TxnId) (value : Option Bytes)
  | stamp (row : Bytes) (writer : TxnId) (stamp : Stamp)
  | purge (row : Bytes) (writer : TxnId)

structure StampedValue where
  /-- The written value; none for a delete. -/
  value : Option Bytes
  stamp : Option Stamp
  deriving DecidableEq

/-! ## The map -/

/-- The values and stamps of all versions, by row and writer. -/
abbrev VersionMap := Bytes → TxnId → Option StampedValue

namespace VersionMap

def empty : VersionMap := fun _ _ => none

def alter (map : VersionMap) (row : Bytes) (writer : TxnId)
    (change : Option StampedValue → Option StampedValue) : VersionMap := fun row' writer' =>
  if row' = row ∧ writer' = writer then change (map row writer) else map row' writer'

/-- A write keeps the stamp that is there, and a stamp needs something to be put on. -/
def edit (map : VersionMap) : VersionEdit → VersionMap
  | .write row writer value =>
    map.alter row writer fun old => some ⟨value, old.bind (·.stamp)⟩
  | .stamp row writer stamp =>
    map.alter row writer fun old => old.map ({ · with stamp := some stamp })
  | .purge row writer => map.alter row writer fun _ => none

def after (edits : List VersionEdit) : VersionMap := edits.foldl edit empty

theorem map_alter {α : Type} (f : StampedValue → α) (map : VersionMap) (row row' : Bytes)
    (writer writer' : TxnId) (change : Option StampedValue → Option StampedValue) :
    (map.alter row writer change row' writer').map f =
      if row' = row ∧ writer' = writer then (change (map row writer)).map f
      else (map row' writer').map f := by
  unfold alter
  split <;> rfl

theorem bind_alter {α : Type} (f : StampedValue → Option α) (map : VersionMap) (row row' : Bytes)
    (writer writer' : TxnId) (change : Option StampedValue → Option StampedValue) :
    (map.alter row writer change row' writer').bind f =
      if row' = row ∧ writer' = writer then (change (map row writer)).bind f
      else (map row' writer').bind f := by
  unfold alter
  split <;> rfl

end VersionMap

/-! ## The partition -/

namespace Partition

variable {p p' : Partition} {map : VersionMap}

def edit (p : Partition) : VersionEdit → Except StorageError Partition
  | .write row writer value => p.writeVersion row writer value
  | .stamp row writer stamp => p.stampVersion row writer stamp
  | .purge row writer => p.purgeVersion row writer

def editAll (p : Partition) (edits : List VersionEdit) : Except StorageError Partition :=
  edits.foldlM edit p

/-- An available partition that represents a version map; there is no stamp without a value. -/
structure Holds (p : Partition) (map : VersionMap) : Prop where
  available : p.unavailable = false
  legible : p.Legible
  value? (row : Bytes) (writer : TxnId) :
    p.value? row writer = (map row writer).map (·.value)
  stamp? (row : Bytes) (writer : TxnId) :
    p.stamp? row writer = (map row writer).bind (·.stamp)

theorem holds_new (name : String) : (new name).Holds .empty where
  available := rfl
  legible _ _ := ⟨rfl, rfl⟩
  value? _ _ := rfl
  stamp? _ _ := rfl

theorem Holds.isSome_cell? (h : p.Holds map) (row : Bytes) (writer : TxnId) :
    (p.cell? (Version.key row writer) Version.dataColumn).isSome = (map row writer).isSome := by
  have hread := (h.legible row writer).1
  rw [← Except.isSome_of_option_mapM hread, h.value?, Option.isSome_map]

theorem Holds.version? (h : p.Holds map) (row : Bytes) (version : Version) :
    p.version? row version.writer = some version ↔
      map row version.writer = some ⟨version.value, version.stamp⟩ := by
  rw [version?_eq_some_iff, h.value?, h.stamp?]
  cases map row version.writer with
  | none => simp
  | some entry =>
    cases entry
    simp

theorem Holds.of_shows (h : p.Holds map) {values : Bytes → TxnId → Option (Option Bytes)}
    {stamps : Bytes → TxnId → Option Stamp} (hshows : p.Shows p' values stamps) {map' : VersionMap}
    (hvalues : ∀ row writer, values row writer = (map' row writer).map (·.value))
    (hstamps : ∀ row writer, stamps row writer = (map' row writer).bind (·.stamp)) :
    p'.Holds map' where
  available := hshows.unavailable.trans h.available
  legible row := hshows.legible (h.legible row)
  value? row writer := by rw [hshows.value?, hvalues]
  stamp? row writer := by rw [hshows.stamp?, hstamps]

/-! ## One edit -/

theorem Holds.write (h : p.Holds map) (row : Bytes) (writer : TxnId) (value : Option Bytes) :
    ∃ p', p.edit (.write row writer value) = .ok p' ∧
      p'.Holds (map.edit (.write row writer value)) := by
  refine ⟨_, writeVersion_of_available h.available row writer value, ?_⟩
  apply h.of_shows (shows_withValue p row writer value)
  · intro row' writer'
    rw [VersionMap.edit, VersionMap.map_alter, h.value?]
    rfl
  · intro row' writer'
    rw [VersionMap.edit, VersionMap.bind_alter, h.stamp?]
    split
    · rename_i hkey
      rw [hkey.1, hkey.2]
      rfl
    · rfl

theorem Holds.stamp (h : p.Holds map) (row : Bytes) (writer : TxnId) (stamp : Stamp) :
    ∃ p', p.edit (.stamp row writer stamp) = .ok p' ∧
      p'.Holds (map.edit (.stamp row writer stamp)) := by
  refine ⟨_, stampVersion_of_available h.available row writer stamp, ?_⟩
  rw [h.isSome_cell?]
  cases hentry : map row writer with
  | none =>
    have hsame : map.edit (.stamp row writer stamp) = map := by
      funext row' writer'
      simp only [VersionMap.edit, VersionMap.alter, hentry]
      split
      · rename_i hkey
        rw [hkey.1, hkey.2, hentry]
        rfl
      · rfl
    rw [hsame]
    exact h
  | some entry =>
    apply h.of_shows (shows_withStamp p row writer stamp)
    · intro row' writer'
      rw [VersionMap.edit, VersionMap.map_alter, h.value?, hentry]
      split
      · rename_i hkey
        rw [hkey.1, hkey.2, hentry]
        rfl
      · rfl
    · intro row' writer'
      rw [VersionMap.edit, VersionMap.bind_alter, h.stamp?, hentry]
      rfl

theorem Holds.purge (h : p.Holds map) (row : Bytes) (writer : TxnId) :
    ∃ p', p.edit (.purge row writer) = .ok p' ∧ p'.Holds (map.edit (.purge row writer)) := by
  refine ⟨_, purgeVersion_of_available h.available row writer, ?_⟩
  apply h.of_shows (shows_purged p row writer)
  · intro row' writer'
    rw [VersionMap.edit, VersionMap.map_alter, h.value?]
    rfl
  · intro row' writer'
    rw [VersionMap.edit, VersionMap.bind_alter, h.stamp?]
    rfl

theorem Holds.edit (h : p.Holds map) (change : VersionEdit) :
    ∃ p', p.edit change = .ok p' ∧ p'.Holds (map.edit change) := by
  cases change with
  | write row writer value => exact h.write row writer value
  | stamp row writer stamp => exact h.stamp row writer stamp
  | purge row writer => exact h.purge row writer

/-! ## All edits -/

theorem Holds.editAll (h : p.Holds map) (edits : List VersionEdit) :
    ∃ p', p.editAll edits = .ok p' ∧ p'.Holds (edits.foldl VersionMap.edit map) := by
  induction edits generalizing p map with
  | nil => exact ⟨p, rfl, h⟩
  | cons change edits ih =>
    obtain ⟨p', hchange, h'⟩ := h.edit change
    obtain ⟨p'', hrest, h''⟩ := ih h'
    refine ⟨p'', ?_, h''⟩
    rw [Partition.editAll, List.foldlM_cons, hchange]
    exact hrest

/-- After any edits of an empty partition, all of which succeed, a row lists exactly the versions
that the same edits leave in a map, each once and the newest writer first, for keys of arbitrary
bytes and length. -/
theorem versions_editAll (name : String) (edits : List VersionEdit) :
    ∃ p, (new name).editAll edits = .ok p ∧ ∀ row, ∃ versions, p.versions row = .ok versions ∧
      versions.Pairwise (fun newer older => older.writer < newer.writer) ∧
      ∀ version, version ∈ versions ↔
        VersionMap.after edits row version.writer = some ⟨version.value, version.stamp⟩ := by
  obtain ⟨p, hedits, h⟩ := (holds_new name).editAll edits
  refine ⟨p, hedits, fun row => ?_⟩
  obtain ⟨versions, hversions, hdescending, hmem⟩ := exists_versions (h.legible row) h.available
  refine ⟨versions, hversions, hdescending, fun version => ?_⟩
  rw [hmem, h.version?]
  rfl

end Partition

end Mvcc

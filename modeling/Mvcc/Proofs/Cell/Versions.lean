import Mvcc.Cell.Version
import Mvcc.Proofs.Cell.Partition
import Mvcc.Proofs.Data.BigEndian
import Mvcc.Proofs.Data.Except

/-!
# Versions of a partition

Listing a row returns exactly the versions that have a value, newest writer first. Writing, stamping
and purging change one version.
-/

namespace Mvcc

/-! ## Keys and cells -/

namespace Version

/-- A key says which row and which writer it belongs to. -/
theorem key_inj {row row' : Bytes} {writer writer' : TxnId} :
    key row writer = key row' writer' ↔ row = row' ∧ writer = writer' := by
  constructor
  · intro h
    have hlength := congrArg List.length h
    simp only [key, stem, List.length_append, BigEndian.encode_length,
      BigEndian.ofWord_length] at hlength
    have hstem := List.append_inj h (by simp [stem]; omega)
    have hrow := List.append_inj hstem.1 (by simp)
    exact ⟨hrow.2, BigEndian.ofWord_inj.1 hstem.2⟩
  · rintro ⟨rfl, rfl⟩
    rfl

theorem lt_of_key_lt {row : Bytes} {writer writer' : TxnId}
    (h : key row writer < key row writer') : writer < writer' := by
  have hword : BigEndian.ofWord writer < BigEndian.ofWord writer' := by
    rcases Std.lt_trichotomy (BigEndian.ofWord writer) (BigEndian.ofWord writer') with
      hlt | heq | hgt
    · exact hlt
    · rw [BigEndian.ofWord_inj.1 heq] at h
      exact absurd h Std.lt_irrefl
    · have hback : key row writer' < key row writer := List.append_left_lt hgt
      exact absurd (Std.lt_trans h hback) Std.lt_irrefl
  simpa using BigEndian.toWord_lt_toWord (by simp) (by simp) hword

@[simp] theorem decodeValue_encodeValue (value : Option Bytes) :
    decodeValue (encodeValue value) = .ok value := by
  cases value <;> simp [encodeValue, decodeValue]

@[simp] theorem decodeStamp_encode (stamp : Stamp) : decodeStamp stamp.encode = .ok stamp := by
  cases stamp <;> simp [decodeStamp, Stamp.encode, Stamp.decode]

end Version

namespace Partition

variable {p p' : Partition} {row row' : Bytes} {writer writer' : TxnId}

def value? (p : Partition) (row : Bytes) (writer : TxnId) : Option (Option Bytes) :=
  (p.cell? (Version.key row writer) Version.dataColumn).bind fun raw =>
    (Version.decodeValue raw).toOption

def stamp? (p : Partition) (row : Bytes) (writer : TxnId) : Option Stamp :=
  (p.cell? (Version.key row writer) Version.stampColumn).bind fun raw =>
    (Version.decodeStamp raw).toOption

/-- Every value and every stamp of a row can be read. -/
def LegibleAt (p : Partition) (row : Bytes) : Prop :=
  ∀ writer,
    (p.cell? (Version.key row writer) Version.dataColumn).mapM Version.decodeValue =
      .ok (p.value? row writer) ∧
    (p.cell? (Version.key row writer) Version.stampColumn).mapM Version.decodeStamp =
      .ok (p.stamp? row writer)

def Legible (p : Partition) : Prop := ∀ row, p.LegibleAt row

def version? (p : Partition) (row : Bytes) (writer : TxnId) : Option Version :=
  (p.value? row writer).map fun value => ⟨writer, value, p.stamp? row writer⟩

theorem version?_eq_some_iff {version : Version} :
    p.version? row writer = some version ↔
      version.writer = writer ∧ p.value? row writer = some version.value ∧
        p.stamp? row writer = version.stamp := by
  unfold version?
  cases hvalue : p.value? row writer with
  | none => simp
  | some value =>
    constructor
    · rintro ⟨⟩
      exact ⟨rfl, rfl, rfl⟩
    · rintro ⟨rfl, ⟨⟩, hstamp⟩
      rw [hstamp]
      rfl

/-! ## Listing -/

/-- The version that a stored row holds, if its key belongs to `row`. -/
def listed? (p : Partition) (row : Bytes) (entry : Bytes × Columns) : Option Version :=
  if entry.1.length = (Version.stem row).length + 8 then
    p.version? row (BigEndian.toWord (entry.1.drop (Version.stem row).length))
  else none

theorem eq_key_of_length {key : Bytes} (hstem : Version.stem row <+: key)
    (hlength : key.length = (Version.stem row).length + 8) :
    key = Version.key row (BigEndian.toWord (key.drop (Version.stem row).length)) := by
  obtain ⟨rest, rfl⟩ := hstem
  have hrest : rest.length = 8 := by simpa using hlength
  rw [Version.key, List.drop_left, BigEndian.ofWord_toWord hrest]

theorem ofEntry_eq (h : p.LegibleAt row) {entry : Bytes × Columns}
    (hentry : entry ∈ p.rowsFrom (Version.stem row)) :
    Version.ofEntry (Version.stem row) entry = .ok (p.listed? row entry) := by
  obtain ⟨hstem, -⟩ := mem_rowsFrom_iff.1 hentry
  unfold Version.ofEntry listed?
  split
  · rename_i hlength
    have hkey := eq_key_of_length hstem hlength
    obtain ⟨hvalue, hstamp⟩ :=
      h (BigEndian.toWord (entry.1.drop (Version.stem row).length))
    rw [← hkey] at hvalue hstamp
    rw [cell?, columns_of_mem_rowsFrom hentry] at hvalue hstamp
    simp only [Version.ofColumns, hvalue, hstamp, bind, Except.bind, pure, Except.pure]
    rfl
  · rfl

theorem versions_eq (h : p.LegibleAt row) (havailable : p.unavailable = false) :
    p.versions row =
      .ok ((p.rowsFrom (Version.stem row)).filterMap (p.listed? row)).reverse := by
  simp only [versions, scan, serve_of_available havailable, bind, Except.bind,
    Except.list_mapM_eq_ok_map fun entry hentry => ofEntry_eq h hentry, pure, Except.pure,
    List.filterMap_map]
  rfl

theorem mem_listed_iff {version : Version} :
    version ∈ ((p.rowsFrom (Version.stem row)).filterMap (p.listed? row)).reverse ↔
      p.version? row version.writer = some version := by
  rw [List.mem_reverse, List.mem_filterMap]
  constructor
  · rintro ⟨entry, -, hlisted⟩
    unfold listed? at hlisted
    split at hlisted
    · have hwriter := (version?_eq_some_iff.1 hlisted).1
      rwa [← hwriter] at hlisted
    · cases hlisted
  · intro hversion
    have hvalue := (version?_eq_some_iff.1 hversion).2.1
    obtain ⟨raw, hraw, -⟩ := Option.bind_eq_some_iff.1 hvalue
    refine ⟨_, mem_rowsFrom_of_cell? (List.prefix_append ..) hraw, ?_⟩
    rw [listed?, if_pos (by simp)]
    simp only [List.drop_left, BigEndian.toWord_ofWord]
    exact hversion

theorem key_of_listed {entry : Bytes × Columns} {version : Version}
    (hentry : entry ∈ p.rowsFrom (Version.stem row))
    (hlisted : p.listed? row entry = some version) :
    entry.1 = Version.key row version.writer := by
  unfold listed? at hlisted
  split at hlisted
  · rename_i hlength
    rw [(version?_eq_some_iff.1 hlisted).1]
    exact eq_key_of_length (mem_rowsFrom_iff.1 hentry).1 hlength
  · cases hlisted

theorem listed_descending (p : Partition) (row : Bytes) :
    ((p.rowsFrom (Version.stem row)).filterMap (p.listed? row)).reverse.Pairwise
      fun newer older => older.writer < newer.writer := by
  rw [List.pairwise_reverse, List.pairwise_filterMap]
  refine (List.Pairwise.and_mem.1 (p.rowsFrom_ascending (Version.stem row))).imp ?_
  rintro entry entry' ⟨hentry, hentry', hlt⟩ version hversion version' hversion'
  rw [key_of_listed hentry hversion, key_of_listed hentry' hversion'] at hlt
  exact Version.lt_of_key_lt hlt

/-- While the storage answers, a listing gives every version of a row, newest writer first. -/
theorem exists_versions (h : p.LegibleAt row) (havailable : p.unavailable = false) :
    ∃ versions, p.versions row = .ok versions ∧
      versions.Pairwise (fun newer older => older.writer < newer.writer) ∧
      ∀ version, version ∈ versions ↔ p.version? row version.writer = some version :=
  ⟨_, versions_eq h havailable, listed_descending p row, fun _ => mem_listed_iff⟩

theorem available_of_versions {found : List Version} (h : p.versions row = .ok found) :
    p.unavailable = false := by
  simp only [versions, scan, Except.bind_eq_ok_iff] at h
  obtain ⟨entries, hentries, -⟩ := h
  exact (serve_eq_ok_iff.1 hentries).1

/-! ## Single cells -/

theorem data_ne_stamp : Version.dataColumn ≠ Version.stampColumn := by decide

theorem cell?_withCell_key (p : Partition) (row row' : Bytes) (writer writer' : TxnId)
    (column column' raw : Bytes) :
    (p.withCell (Version.key row writer) column raw).cell? (Version.key row' writer') column' =
      if (row' = row ∧ writer' = writer) ∧ column' = column then some raw
      else p.cell? (Version.key row' writer') column' := by
  simp only [cell?_withCell, Version.key_inj]

theorem cell?_withoutCell_key (p : Partition) (row row' : Bytes) (writer writer' : TxnId)
    (column column' : Bytes) :
    (p.withoutCell (Version.key row writer) column).cell? (Version.key row' writer') column' =
      if (row' = row ∧ writer' = writer) ∧ column' = column then none
      else p.cell? (Version.key row' writer') column' := by
  simp only [cell?_withoutCell, Version.key_inj]

/-- The versions of a partition after a change: availability, values and stamps. -/
structure Shows (p p' : Partition) (values : Bytes → TxnId → Option (Option Bytes))
    (stamps : Bytes → TxnId → Option Stamp) : Prop where
  legible {row : Bytes} (h : p.LegibleAt row) : p'.LegibleAt row
  unavailable : p'.unavailable = p.unavailable
  value? : p'.value? = values
  stamp? : p'.stamp? = stamps

theorem shows_withValue (p : Partition) (row : Bytes) (writer : TxnId) (value : Option Bytes) :
    p.Shows (p.withCell (Version.key row writer) Version.dataColumn (Version.encodeValue value))
      (fun row' writer' => if row' = row ∧ writer' = writer then some value
        else p.value? row' writer') p.stamp? := by
  have hvalue : (p.withCell (Version.key row writer) Version.dataColumn
      (Version.encodeValue value)).value? = fun row' writer' =>
        if row' = row ∧ writer' = writer then some value else p.value? row' writer' := by
    funext row' writer'
    rw [Partition.value?, cell?_withCell_key]
    by_cases h : row' = row ∧ writer' = writer
    · simp [h, Except.toOption]
    · simp [h, Partition.value?]
  have hstamp : (p.withCell (Version.key row writer) Version.dataColumn
      (Version.encodeValue value)).stamp? = p.stamp? := by
    funext row' writer'
    rw [Partition.stamp?, cell?_withCell_key, if_neg fun h => data_ne_stamp h.2.symm]
    rfl
  refine ⟨fun {row'} h writer' => ⟨?_, ?_⟩, rfl, hvalue, hstamp⟩
  · rw [hvalue, cell?_withCell_key]
    by_cases hkey : row' = row ∧ writer' = writer
    · simp [hkey, Functor.map, Except.map]
    · simp [hkey, (h writer').1]
  · rw [hstamp, cell?_withCell_key, if_neg fun h => data_ne_stamp h.2.symm]
    exact (h writer').2

theorem shows_withStamp (p : Partition) (row : Bytes) (writer : TxnId) (stamp : Stamp) :
    p.Shows (p.withCell (Version.key row writer) Version.stampColumn stamp.encode) p.value?
      (fun row' writer' => if row' = row ∧ writer' = writer then some stamp
        else p.stamp? row' writer') := by
  have hvalue : (p.withCell (Version.key row writer) Version.stampColumn
      stamp.encode).value? = p.value? := by
    funext row' writer'
    rw [Partition.value?, cell?_withCell_key, if_neg fun h => data_ne_stamp h.2]
    rfl
  have hstamp : (p.withCell (Version.key row writer) Version.stampColumn
      stamp.encode).stamp? = fun row' writer' =>
        if row' = row ∧ writer' = writer then some stamp else p.stamp? row' writer' := by
    funext row' writer'
    rw [Partition.stamp?, cell?_withCell_key]
    by_cases h : row' = row ∧ writer' = writer
    · simp [h, Except.toOption]
    · simp [h, Partition.stamp?]
  refine ⟨fun {row'} h writer' => ⟨?_, ?_⟩, rfl, hvalue, hstamp⟩
  · rw [hvalue, cell?_withCell_key, if_neg fun h => data_ne_stamp h.2]
    exact (h writer').1
  · rw [hstamp, cell?_withCell_key]
    by_cases hkey : row' = row ∧ writer' = writer
    · simp [hkey, Functor.map, Except.map]
    · simp [hkey, (h writer').2]

def purged (p : Partition) (row : Bytes) (writer : TxnId) : Partition :=
  (p.withoutCell (Version.key row writer) Version.dataColumn).withoutCell
    (Version.key row writer) Version.stampColumn

theorem cell?_purged (p : Partition) (row row' : Bytes) (writer writer' : TxnId) {column : Bytes}
    (hcolumn : column = Version.dataColumn ∨ column = Version.stampColumn) :
    (p.purged row writer).cell? (Version.key row' writer') column =
      if row' = row ∧ writer' = writer then none
      else p.cell? (Version.key row' writer') column := by
  rw [purged, cell?_withoutCell_key, cell?_withoutCell_key]
  by_cases h : row' = row ∧ writer' = writer
  · rcases hcolumn with rfl | rfl <;> simp [h]
  · simp [h]

theorem shows_purged (p : Partition) (row : Bytes) (writer : TxnId) :
    p.Shows (p.purged row writer)
      (fun row' writer' => if row' = row ∧ writer' = writer then none else p.value? row' writer')
      (fun row' writer' => if row' = row ∧ writer' = writer then none
        else p.stamp? row' writer') := by
  have hdata : ∀ row' writer', (p.purged row writer).cell? (Version.key row' writer')
      Version.dataColumn = if row' = row ∧ writer' = writer then none
        else p.cell? (Version.key row' writer') Version.dataColumn := fun row' writer' =>
    cell?_purged p row row' writer writer' (by simp)
  have hmark : ∀ row' writer', (p.purged row writer).cell? (Version.key row' writer')
      Version.stampColumn = if row' = row ∧ writer' = writer then none
        else p.cell? (Version.key row' writer') Version.stampColumn := fun row' writer' =>
    cell?_purged p row row' writer writer' (by simp)
  refine ⟨fun {row'} h writer' => ⟨?_, ?_⟩, rfl, ?_, ?_⟩
  · rw [Partition.value?, hdata]
    by_cases hkey : row' = row ∧ writer' = writer
    · simp [hkey, pure, Except.pure]
    · rw [if_neg hkey]
      exact (h writer').1
  · rw [Partition.stamp?, hmark]
    by_cases hkey : row' = row ∧ writer' = writer
    · simp [hkey, pure, Except.pure]
    · rw [if_neg hkey]
      exact (h writer').2
  · funext row' writer'
    rw [Partition.value?, hdata]
    by_cases hkey : row' = row ∧ writer' = writer
    · simp [hkey]
    · simp [hkey, Partition.value?]
  · funext row' writer'
    rw [Partition.stamp?, hmark]
    by_cases hkey : row' = row ∧ writer' = writer
    · simp [hkey]
    · simp [hkey, Partition.stamp?]

/-! ## Writing, stamping and purging -/

theorem writeVersion_of_available (havailable : p.unavailable = false) (row : Bytes)
    (writer : TxnId) (value : Option Bytes) :
    p.writeVersion row writer value =
      .ok (p.withCell (Version.key row writer) Version.dataColumn (Version.encodeValue value)) :=
  serve_of_available havailable _

/-- A stamp is put on a version that is there, and on no other. -/
theorem stampVersion_of_available (havailable : p.unavailable = false) (row : Bytes)
    (writer : TxnId) (stamp : Stamp) :
    p.stampVersion row writer stamp =
      .ok (if (p.cell? (Version.key row writer) Version.dataColumn).isSome
        then p.withCell (Version.key row writer) Version.stampColumn stamp.encode else p) := by
  have hkept := cell?_withCell_key p row row writer writer Version.stampColumn Version.dataColumn
    stamp.encode
  rw [if_neg fun h => data_ne_stamp h.2] at hkept
  have hmarked : (p.withCell (Version.key row writer) Version.stampColumn
      stamp.encode).unavailable = false := havailable
  simp only [stampVersion, VersionTask.run, VersionTask.remaining, VersionTask.runFor,
    VersionTask.step, get, serve_of_available havailable, bind, Except.bind, pure, Except.pure]
  cases hcell : p.cell? (Version.key row writer) Version.dataColumn with
  | none => rfl
  | some raw =>
    simp only [Option.isSome_some, if_true, VersionTask.runFor, VersionTask.step, get, put,
      serve_of_available havailable, serve_of_available hmarked, bind, Except.bind, pure,
      Except.pure, hkept, hcell]

theorem purgeVersion_of_available (havailable : p.unavailable = false) (row : Bytes)
    (writer : TxnId) : p.purgeVersion row writer = .ok (p.purged row writer) := by
  have hdropped : (p.withoutCell (Version.key row writer) Version.dataColumn).unavailable =
      false := havailable
  simp only [purgeVersion, VersionTask.run, VersionTask.remaining, VersionTask.runFor,
    VersionTask.step, delete, serve_of_available havailable, serve_of_available hdropped, bind,
    Except.bind, pure, Except.pure]
  rfl

theorem shows_of_writeVersion {value : Option Bytes}
    (h : p.writeVersion row writer value = .ok p') :
    p.Shows p' (fun row' writer' => if row' = row ∧ writer' = writer then some value
      else p.value? row' writer') p.stamp? := by
  cases havailable : p.unavailable with
  | true => simp [writeVersion, put, serve, havailable] at h
  | false =>
    rw [writeVersion_of_available havailable] at h
    cases h
    exact shows_withValue p row writer value

theorem shows_of_stampVersion {stamp : Stamp} (h : p.stampVersion row writer stamp = .ok p') :
    p' = p ∨ p.Shows p' p.value? fun row' writer' =>
      if row' = row ∧ writer' = writer then some stamp else p.stamp? row' writer' := by
  cases havailable : p.unavailable with
  | true =>
    simp [stampVersion, VersionTask.run, VersionTask.remaining, VersionTask.runFor,
      VersionTask.step, get, serve, havailable, bind, Except.bind] at h
  | false =>
    rw [stampVersion_of_available havailable] at h
    split at h
    · cases h
      exact .inr (shows_withStamp p row writer stamp)
    · cases h
      exact .inl rfl

theorem shows_of_purgeVersion (h : p.purgeVersion row writer = .ok p') :
    p.Shows p'
      (fun row' writer' => if row' = row ∧ writer' = writer then none else p.value? row' writer')
      fun row' writer' => if row' = row ∧ writer' = writer then none
        else p.stamp? row' writer' := by
  cases havailable : p.unavailable with
  | true =>
    simp [purgeVersion, VersionTask.run, VersionTask.remaining, VersionTask.runFor,
      VersionTask.step, delete, serve, havailable, bind, Except.bind] at h
  | false =>
    rw [purgeVersion_of_available havailable] at h
    cases h
    exact shows_purged p row writer

end Partition

end Mvcc

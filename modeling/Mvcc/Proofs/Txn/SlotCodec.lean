import Mvcc.Proofs.Txn.SlotReader
import Mvcc.Proofs.Txn.Slots

/-!
# The codec of records

The slots of a record determine it, in any order. Every strict prefix of a slot is refused, since
the length of each part is encoded before it.
-/

namespace Mvcc

namespace Slot

/-! ## Encodable values -/

/-- The tables fit a destinations slot: neither too many nor a name too long. -/
def Storable (tables : SortedSet String) : Prop :=
  tables.size ≤ shortLimit ∧ ∀ name ∈ tables.keys, (Text.toUtf8 name).length ≤ shortLimit

theorem encodeName_eq_ok_iff {name : String} :
    (∃ part, encodeName name = .ok part) ↔ (Text.toUtf8 name).length ≤ shortLimit := by
  simp only [encodeName]
  split
  · rename_i hlong
    constructor
    · rintro ⟨part, ⟨⟩⟩
    · intro hle
      omega
  · rename_i hfits
    constructor
    · intro _
      omega
    · intro _
      exact ⟨_, rfl⟩

theorem encodeDestinations_eq_ok_iff {tables : SortedSet String} :
    (∃ slot, encodeDestinations tables = .ok slot) ↔ Storable tables := by
  unfold encodeDestinations Storable
  by_cases hcount : shortLimit < tables.size
  · rw [if_pos hcount]
    constructor
    · rintro ⟨slot, ⟨⟩⟩
    · rintro ⟨hle, -⟩
      omega
  · rw [if_neg hcount]
    constructor
    · rintro ⟨slot, hslot⟩
      obtain ⟨parts, hparts, -⟩ := Except.bind_eq_ok_iff.1 hslot
      refine ⟨by omega, fun name hname => ?_⟩
      exact encodeName_eq_ok_iff.1 (Except.exists_ok_of_list_mapM hparts name hname)
    · rintro ⟨-, hnames⟩
      obtain ⟨parts, hparts⟩ := Except.exists_list_mapM_ok fun name hname =>
        encodeName_eq_ok_iff.2 (hnames name hname)
      exact ⟨_, Except.bind_eq_ok_iff.2 ⟨parts, hparts, rfl⟩⟩

theorem encodeDestinations_eq_error_iff {tables : SortedSet String} :
    (∃ fault, encodeDestinations tables = .error fault) ↔
      shortLimit < tables.size ∨
        ∃ name ∈ tables.keys, shortLimit < (Text.toUtf8 name).length := by
  have hnot : (∃ fault, encodeDestinations tables = .error fault) ↔
      ¬ ∃ slot, encodeDestinations tables = .ok slot := by
    cases encodeDestinations tables <;> simp
  rw [hnot, encodeDestinations_eq_ok_iff, Storable, Classical.not_and_iff_not_or_not]
  simp

theorem encode_eq_ok_iff {txn : Txn} :
    (∃ slots, encode txn = .ok slots) ↔ Storable txn.destinations := by
  rw [← encodeDestinations_eq_ok_iff]
  constructor
  · rintro ⟨slots, hslots⟩
    obtain ⟨tables, htables, -⟩ := Except.bind_eq_ok_iff.1 hslots
    exact ⟨tables, htables⟩
  · rintro ⟨tables, htables⟩
    exact ⟨_, Except.bind_eq_ok_iff.2 ⟨tables, htables, rfl⟩⟩

/-! ## The round trip -/

/-- A record is read by looking its columns up, so their order does not matter. -/
theorem decode_congr (id : TxnId) {columns columns' : List (Bytes × Bytes)}
    (h : ∀ column, columns.lookup column = columns'.lookup column) :
    decode id columns = decode id columns' := by
  simp only [decode, h]

theorem get?_of_encode {txn : Txn} {slots : SortedMap Bytes Bytes} (h : encode txn = .ok slots) :
    slots.get? core = some (encodeCore txn) ∧
      slots.get? keepAlive = some (BigEndian.ofWord txn.keepAlive) ∧
      slots.get? commit = txn.commitTime.map BigEndian.ofWord ∧
      slots.get? globalCommit = txn.globalCommitTime.map BigEndian.ofWord ∧
      slots.get? state = some (encodeState txn.state) ∧
      ∃ tables, encodeDestinations txn.destinations = .ok tables ∧
        slots.get? destinations = some tables := by
  obtain ⟨tables, htables, hslots⟩ := Except.bind_eq_ok_iff.1 h
  cases hslots
  simp only [SortedMap.get?_ofList]
  cases txn.commitTime <;> cases txn.globalCommitTime <;>
    exact ⟨rfl, rfl, rfl, rfl, rfl, tables, htables, rfl⟩

theorem mapM_decodeWord (time : Option UInt64) :
    (time.map BigEndian.ofWord).mapM decodeWord = .ok time := by
  cases time with
  | none => rfl
  | some time => simp [Functor.map, Except.map]

/-- What is read from the slots of a record is the record, which counts as committed if it has a
commit or a global commit. -/
theorem decode_encode {txn : Txn} {slots : SortedMap Bytes Bytes} (h : encode txn = .ok slots) :
    decode txn.id slots.entries = .ok { txn with state := txn.settled txn.state } := by
  obtain ⟨hcore, hbeat, hcommit, hglobal, hstate, tables, htables, hdestinations⟩ :=
    get?_of_encode h
  apply decode_eq_ok_iff.2
  refine ⟨rfl, ⟨encodeCore txn, hcore, decodeCore_encodeCore txn⟩, ⟨some txn.keepAlive, ?_, rfl⟩,
    ?_, ?_, ⟨some txn.state, ?_, rfl⟩, ⟨some txn.destinations, ?_, rfl⟩⟩
  · rw [hbeat]
    exact mapM_decodeWord (some txn.keepAlive)
  · rw [hcommit]
    exact mapM_decodeWord txn.commitTime
  · rw [hglobal]
    exact mapM_decodeWord txn.globalCommitTime
  · rw [hstate]
    simp [Functor.map, Except.map]
  · rw [hdestinations]
    simp [Functor.map, Except.map, decodeDestinations_of_encode htables]

/-! ## Slots cut off -/

theorem take_append_of_length_le {front rest : Bytes} {cut : Nat} (h : front.length ≤ cut) :
    (front ++ rest).take cut = front ++ rest.take (cut - front.length) := by
  rw [List.take_append, List.take_of_length_le h]

theorem takeOptional_take (id : TxnId) {width : Nat} {value : Option Bytes} (rest : Bytes)
    (hvalue : ∀ bytes, value = some bytes → bytes.length = width) {cut : Nat}
    (hcut : cut < (encodeOptional value).length) :
    takeOptional id width ((encodeOptional value ++ rest).take cut) =
      .error (.coreTruncated id) := by
  cases value with
  | none =>
    have hnone : cut = 0 := by simpa [encodeOptional] using hcut
    rw [hnone]
    rfl
  | some bytes =>
    have hwidth := hvalue bytes rfl
    cases cut with
    | zero => rfl
    | succ cut =>
      have hless : cut < bytes.length := by simpa [encodeOptional] using hcut
      have hshort : ¬ width ≤ ((bytes ++ rest).take cut).length := by
        rw [List.length_take]
        omega
      simp only [encodeOptional, List.cons_append, List.take_succ_cons, takeOptional]
      rw [if_neg (by decide), if_pos trivial, if_neg hshort]

theorem takeOptional_take_of_le (id : TxnId) {width : Nat} {value : Option Bytes} (rest : Bytes)
    (hvalue : ∀ bytes, value = some bytes → bytes.length = width) {cut : Nat}
    (hcut : (encodeOptional value).length ≤ cut) :
    takeOptional id width ((encodeOptional value ++ rest).take cut) =
      .ok (value, rest.take (cut - (encodeOptional value).length)) := by
  rw [take_append_of_length_le hcut]
  exact takeOptional_encodeOptional id width value _ hvalue

/-- A core slot that was cut off anywhere is refused for it. -/
theorem decodeCore_take (id : TxnId) (txn : Txn) {cut : Nat}
    (hcut : cut < (encodeCore txn).length) :
    decodeCore id ((encodeCore txn).take cut) = .error (.coreTruncated id) := by
  have hparent : ∀ bytes, txn.parent.map BigEndian.ofWord = some bytes → bytes.length = 8 := by
    intro bytes hbytes
    obtain ⟨parent, -, rfl⟩ := Option.map_eq_some_iff.1 hbytes
    exact BigEndian.ofWord_length parent
  have hadditive : ∀ bytes,
      txn.additive.map (fun additive => [if additive then (1 : UInt8) else 0]) = some bytes →
        bytes.length = 1 := by
    intro bytes hbytes
    obtain ⟨additive, -, rfl⟩ := Option.map_eq_some_iff.1 hbytes
    rfl
  have hisolation : ∀ bytes, txn.isolation.map (fun level => [level.code]) = some bytes →
      bytes.length = 1 := by
    intro bytes hbytes
    obtain ⟨level, -, rfl⟩ := Option.map_eq_some_iff.1 hbytes
    rfl
  have hword := BigEndian.ofWord_length txn.beginTime
  simp only [encodeCore, List.append_assoc, List.length_append, hword] at hcut ⊢
  simp only [decodeCore]
  by_cases hbegun : cut < 8
  · rw [if_pos (by rw [List.length_take]; omega)]
    rfl
  · rw [if_neg (by rw [List.length_take, List.length_append, List.length_append]; omega),
      take_append_of_length_le (by omega), List.drop_left' hword, hword]
    by_cases hfirst : cut - 8 < (encodeOptional (txn.parent.map BigEndian.ofWord)).length
    · rw [takeOptional_take id _ hparent hfirst]
      rfl
    · rw [takeOptional_take_of_le id _ hparent (by omega), Except.ok_bind]
      by_cases hsecond : cut - 8 - (encodeOptional (txn.parent.map BigEndian.ofWord)).length <
          (encodeOptional (txn.additive.map fun additive =>
            [if additive then (1 : UInt8) else 0])).length
      · rw [takeOptional_take id _ hadditive hsecond]
        rfl
      · rw [takeOptional_take_of_le id _ hadditive (by omega), Except.ok_bind]
        have hthird := @takeOptional_take id 1 _ [] hisolation
          (cut - 8 - (encodeOptional (txn.parent.map BigEndian.ofWord)).length -
            (encodeOptional (txn.additive.map fun additive =>
              [if additive then (1 : UInt8) else 0])).length) (by omega)
        rw [List.append_nil] at hthird
        rw [hthird]
        rfl

theorem takeNames_take {names : List String} {parts : List Bytes}
    (h : names.mapM encodeName = .ok parts) {cut : Nat} (hcut : cut < parts.flatten.length) :
    takeNames names.length (parts.flatten.take cut) = .error .destinationsTruncated := by
  induction names generalizing parts cut with
  | nil =>
    cases h
    simp at hcut
  | cons name names ih =>
    obtain ⟨part, others, hpart, hothers, rfl⟩ := Except.list_mapM_cons.1 h
    have hfits := encodeName_eq_ok_iff.1 ⟨part, hpart⟩
    have hpart' : part = BigEndian.encode 2 (Text.toUtf8 name).length ++ Text.toUtf8 name := by
      simp only [encodeName] at hpart
      rw [if_neg (by omega)] at hpart
      cases hpart
      rfl
    have hlength : (BigEndian.encode 2 (Text.toUtf8 name).length).length = 2 :=
      BigEndian.encode_length ..
    subst hpart'
    rw [List.flatten_cons, List.append_assoc] at hcut ⊢
    rw [List.length_append, List.length_append, hlength] at hcut
    simp only [List.length_cons, takeNames]
    by_cases hshort : cut < 2
    · rw [if_pos (by rw [List.length_take]; omega)]
      rfl
    · obtain ⟨hlong, hcount, hdrop⟩ := short_append hfits
        ((Text.toUtf8 name ++ others.flatten).take (cut - 2))
      rw [take_append_of_length_le (by omega), hlength, if_neg hlong, hcount, hdrop]
      by_cases hinside : cut - 2 < (Text.toUtf8 name).length
      · rw [if_pos (by rw [List.length_take]; omega)]
        rfl
      · -- The name is there as a whole, so a later one is cut off.
        have hwhole : (Text.toUtf8 name ++ others.flatten).take (cut - 2) = Text.toUtf8 name ++
            others.flatten.take (cut - 2 - (Text.toUtf8 name).length) :=
          take_append_of_length_le (Nat.le_of_not_lt hinside)
        rw [hwhole, if_neg (by rw [List.length_append]; omega), List.take_left, List.drop_left,
          Text.ofUtf8_toUtf8, ih hothers (by omega)]
        rfl

theorem decodeDestinations_take {tables : SortedSet String} {slot : Bytes}
    (h : encodeDestinations tables = .ok slot) {cut : Nat} (hcut : cut < slot.length) :
    decodeDestinations (slot.take cut) = .error .destinationsTruncated := by
  obtain ⟨hcount, -⟩ := encodeDestinations_eq_ok_iff.1 ⟨slot, h⟩
  unfold encodeDestinations at h
  rw [if_neg (by omega)] at h
  obtain ⟨parts, hparts, hslot⟩ := Except.bind_eq_ok_iff.1 h
  cases hslot
  have hlength : (BigEndian.encode 2 tables.size).length = 2 := BigEndian.encode_length ..
  rw [List.length_append, hlength] at hcut
  simp only [decodeDestinations]
  by_cases hshort : cut < 2
  · rw [if_pos (by rw [List.length_take]; omega)]
    rfl
  · obtain ⟨hlong, hread, hdrop⟩ := short_append hcount (parts.flatten.take (cut - 2))
    have hsize : tables.size = tables.keys.length := by simp [SortedMap.size, SortedMap.keys]
    rw [take_append_of_length_le (by omega), hlength, if_neg hlong, hread, hdrop, hsize,
      takeNames_take hparts (by omega)]
    rfl

/-! ## Records as a whole -/

theorem decode_of_core {id : TxnId} {columns : List (Bytes × Bytes)} {raw : Bytes}
    {fault : SlotFault} (hraw : columns.lookup core = some raw)
    (h : decodeCore id raw = .error fault) : decode id columns = .error fault := by
  simp only [decode, hraw]
  rw [h]
  rfl

theorem decode_of_destinations (id : TxnId) {columns : List (Bytes × Bytes)} {raw : Bytes}
    {fault : SlotFault} (hraw : columns.lookup destinations = some raw)
    (h : decodeDestinations raw = .error fault) : ∃ fault', decode id columns = .error fault' := by
  cases hdecoded : decode id columns with
  | error fault' => exact ⟨fault', rfl⟩
  | ok txn =>
    exfalso
    simp only [decode] at hdecoded
    cases hcore : columns.lookup core with
    | none =>
      rw [hcore] at hdecoded
      cases hdecoded
    | some found =>
      simp only [hcore, hraw, Except.bind_eq_ok_iff] at hdecoded
      obtain ⟨_, -, _, -, _, -, _, -, _, -, tables, htables, -⟩ := hdecoded
      simp [h, Functor.map, Except.map] at htables

/-- A record whose tables can be stored decodes from its slots in any order, and is committed
exactly if it has a commit or a global commit. Tables cannot be stored exactly if they are too many
or a name is too long. A strict prefix of a core or destinations slot is refused; and no slot, of
whatever bytes, is read past its end. -/
theorem decode_encoded (txn : Txn) :
    (Storable txn.destinations → ∃ slots, encode txn = .ok slots ∧
      ∀ columns, columns.Perm slots.entries → decode txn.id columns = .ok { txn with state :=
        if txn.commitTime.isSome || txn.globalCommitTime.isSome then .committed else txn.state }) ∧
    ((∃ fault, encodeDestinations txn.destinations = .error fault) ↔
      shortLimit < txn.destinations.size ∨
        ∃ name ∈ txn.destinations.keys, shortLimit < (Text.toUtf8 name).length) ∧
    (∀ id columns cut, cut < (encodeCore txn).length →
      columns.lookup core = some ((encodeCore txn).take cut) →
        decode id columns = .error (.coreTruncated id)) ∧
    (∀ id columns tables cut, encodeDestinations txn.destinations = .ok tables →
      cut < tables.length → columns.lookup destinations = some (tables.take cut) →
        (∃ fault, decode id columns = .error fault) ∧
          decodeDestinations (tables.take cut) = .error .destinationsTruncated) ∧
    ∀ id raw, (SlotReader.core id raw).map (·.1) = (decodeCore id raw).mapError .refused ∧
      (SlotReader.destinations raw).map (·.1) = (decodeDestinations raw).mapError .refused := by
  refine ⟨fun hstorable => ?_, ?_, fun id columns cut hcut hraw => ?_,
    fun id columns tables cut htables hcut hraw => ?_, fun id raw => ?_⟩
  · obtain ⟨slots, hslots⟩ := encode_eq_ok_iff.2 hstorable
    refine ⟨slots, hslots, fun columns hperm => ?_⟩
    have hsame : decode txn.id columns = decode txn.id slots.entries := by
      apply decode_congr
      intro column
      rw [SortedMap.lookup_of_perm hperm, SortedMap.lookup_entries]
    rw [hsame]
    exact decode_encode hslots
  · rw [encodeDestinations_eq_error_iff]
  · exact decode_of_core hraw (decodeCore_take id txn hcut)
  · have hrefused := decodeDestinations_take htables hcut
    exact ⟨decode_of_destinations id hraw hrefused, hrefused⟩
  · exact ⟨SlotReader.core_read id raw, SlotReader.destinations_read raw⟩

/-- A child that wrote to one table and was committed elsewhere, though its state slot does not say
so. -/
def committedElsewhere : Txn :=
  { Txn.new 42 42 777 with
    parent := some 7
    additive := some true
    isolation := some .readCommitted
    globalCommitTime := some 9
    destinations := SortedSet.add .empty "orders" }

theorem decode_encoded_committedElsewhere :
    Storable committedElsewhere.destinations ∧
      (∃ slots, encode committedElsewhere = .ok slots ∧
        decode 42 slots.entries.reverse = .ok { committedElsewhere with state := .committed }) ∧
      12 < (encodeCore committedElsewhere).length ∧
      decode 42 [(core, (encodeCore committedElsewhere).take 12)] = .error (.coreTruncated 42) := by
  have hstorable : Storable committedElsewhere.destinations := by
    refine ⟨by decide, fun name hname => ?_⟩
    rw [List.mem_singleton.1 hname]
    decide
  have hcut : 12 < (encodeCore committedElsewhere).length := by decide
  obtain ⟨hread, -, hcore, -⟩ := decode_encoded committedElsewhere
  obtain ⟨slots, hslots, hdecoded⟩ := hread hstorable
  refine ⟨hstorable, ⟨slots, hslots, ?_⟩, hcut, ?_⟩
  · exact hdecoded slots.entries.reverse (List.reverse_perm _)
  · exact hcore 42 _ 12 hcut rfl

end Slot

end Mvcc

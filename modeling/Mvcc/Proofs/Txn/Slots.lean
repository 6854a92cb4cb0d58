import Mvcc.Proofs.Data.BigEndian
import Mvcc.Proofs.Data.Except
import Mvcc.Proofs.Data.SortedMap
import Mvcc.Txn.Slots

/-!
# Records and slots

A stored record is decoded slot by slot. Writing one slot changes one field of the record, and a
readable record stays readable.
-/

namespace Mvcc

/-- The record as it began: nothing but the part that never changes. -/
def Txn.origin (txn : Txn) : Txn :=
  { Txn.new txn.id txn.beginTime 0 with
    parent := txn.parent, additive := txn.additive, isolation := txn.isolation }

theorem Txn.eq_of_origin {a b : Txn} (h : a.origin = b.origin) :
    a.id = b.id ∧ a.beginTime = b.beginTime ∧ a.parent = b.parent := by
  simp only [Txn.origin, Txn.new, Txn.mk.injEq] at h
  exact ⟨h.1, h.2.1, h.2.2.1⟩

/-- The state that a record counts as in, given the stored state. -/
def Txn.settled (txn : Txn) (written : TxnState) : TxnState :=
  if txn.commitTime.isSome || txn.globalCommitTime.isSome then .committed else written

namespace Slot

/-! ## The core slot -/

theorem takeOptional_encodeOptional (id : TxnId) (width : Nat) (value : Option Bytes)
    (rest : Bytes) (h : ∀ bytes, value = some bytes → bytes.length = width) :
    takeOptional id width (encodeOptional value ++ rest) = .ok (value, rest) := by
  cases value with
  | none => simp [encodeOptional, takeOptional]
  | some bytes =>
    have hlen := h bytes rfl
    subst hlen
    simp [encodeOptional, takeOptional]

theorem decodeIsolation_code (level : Isolation) : decodeIsolation [level.code] = .ok level := by
  cases level <;> rfl

theorem decodeCore_encodeCore (txn : Txn) :
    decodeCore txn.id (encodeCore txn) = .ok txn.origin := by
  have hparent := takeOptional_encodeOptional txn.id 8 (txn.parent.map BigEndian.ofWord)
    (encodeOptional (txn.additive.map fun additive => [if additive then 1 else 0]) ++
      encodeOptional (txn.isolation.map fun level => [level.code]))
    (by rintro _ h; obtain ⟨_, -, rfl⟩ := Option.map_eq_some_iff.1 h; simp)
  have hadditive := takeOptional_encodeOptional txn.id 1
    (txn.additive.map fun additive => [if additive then 1 else 0])
    (encodeOptional (txn.isolation.map fun level => [level.code]))
    (by rintro _ h; obtain ⟨_, -, rfl⟩ := Option.map_eq_some_iff.1 h; simp)
  have hisolation := takeOptional_encodeOptional txn.id 1
    (txn.isolation.map fun level => [level.code]) []
    (by rintro _ h; obtain ⟨_, -, rfl⟩ := Option.map_eq_some_iff.1 h; simp)
  rw [List.append_nil] at hisolation
  have hlevel : (txn.isolation.map fun level => [level.code]).mapM decodeIsolation =
      .ok txn.isolation := by
    cases txn.isolation with
    | none => rfl
    | some level => simp [decodeIsolation_code, Functor.map, Except.map]
  have hflag : (txn.additive.map fun additive => [if additive then (1 : UInt8) else 0]).map
      (fun bytes => decide (bytes.headD 0 ≠ 0)) = txn.additive := by
    rcases txn.additive with _ | _ | _ <;> rfl
  have hword : (txn.parent.map BigEndian.ofWord).map BigEndian.toWord = txn.parent := by
    cases txn.parent <;> simp
  have hfront : ∀ rest : Bytes, (BigEndian.ofWord txn.beginTime ++ rest).take 8 =
      BigEndian.ofWord txn.beginTime := fun rest =>
    List.take_left' (BigEndian.ofWord_length txn.beginTime)
  have hback : ∀ rest : Bytes, (BigEndian.ofWord txn.beginTime ++ rest).drop 8 = rest := fun rest =>
    List.drop_left' (BigEndian.ofWord_length txn.beginTime)
  simp only [decodeCore, encodeCore, List.append_assoc]
  rw [if_neg (by simp), hback, hfront]
  simp only [bind, Except.bind, pure, Except.pure, hparent, hadditive, hisolation, hlevel,
    BigEndian.toWord_ofWord, hword, hflag]
  rfl

/-- A decoded core slot is the origin of a record. -/
theorem origin_of_decodeCore {id : TxnId} {raw : Bytes} {txn : Txn}
    (h : decodeCore id raw = .ok txn) : txn.id = id ∧ txn.origin = txn := by
  unfold decodeCore at h
  simp only [bind, Except.bind] at h
  split at h
  · cases h
  · split at h
    · cases h
    · split at h
      · cases h
      · split at h
        · cases h
        · split at h
          · cases h
          · cases h
            exact ⟨rfl, rfl⟩

/-! ## The other slots -/

@[simp] theorem decodeWord_ofWord (word : UInt64) :
    decodeWord (BigEndian.ofWord word) = .ok word := by
  simp [decodeWord]

@[simp] theorem decodeState_encodeState (state : TxnState) :
    decodeState (encodeState state) = .ok state := by
  simp [decodeState, encodeState]

theorem short_append {count : Nat} (h : count ≤ shortLimit) (rest : Bytes) :
    ¬ (BigEndian.encode 2 count ++ rest).length < 2 ∧
      BigEndian.decode ((BigEndian.encode 2 count ++ rest).take 2) = count ∧
      (BigEndian.encode 2 count ++ rest).drop 2 = rest := by
  have hlength : (BigEndian.encode 2 count).length = 2 := BigEndian.encode_length ..
  refine ⟨by rw [List.length_append]; omega, ?_, List.drop_left' hlength⟩
  rw [List.take_left' hlength, BigEndian.decode_encode, Nat.mod_eq_of_lt]
  simp only [shortLimit] at h
  omega

theorem takeNames_flatten {names : List String} {parts : List Bytes}
    (h : names.mapM encodeName = .ok parts) : takeNames names.length parts.flatten = .ok names := by
  induction names generalizing parts with
  | nil => rfl
  | cons name names ih =>
    obtain ⟨part, others, hpart, hothers, rfl⟩ := Except.list_mapM_cons.1 h
    unfold encodeName at hpart
    dsimp only at hpart
    split at hpart
    · cases hpart
    · rename_i hfits
      cases hpart
      obtain ⟨hlong, hcount, hdrop⟩ :=
        short_append (Nat.le_of_not_lt hfits) (Text.toUtf8 name ++ others.flatten)
      have hwhole : ¬ (Text.toUtf8 name ++ others.flatten).length < (Text.toUtf8 name).length := by
        rw [List.length_append]
        omega
      simp only [List.length_cons, takeNames, List.flatten_cons, List.append_assoc]
      rw [if_neg hlong]
      simp only [hcount, hdrop]
      rw [if_neg hwhole]
      simp [Text.ofUtf8_toUtf8, ih hothers, bind, Except.bind, pure, Except.pure]

theorem decodeDestinations_of_encode {tables : SortedSet String} {slot : Bytes}
    (h : encodeDestinations tables = .ok slot) : decodeDestinations slot = .ok tables := by
  unfold encodeDestinations at h
  split at h
  · cases h
  · rename_i hfits
    simp only [Except.bind_eq_ok_iff, pure, Except.pure, Except.ok.injEq] at h
    obtain ⟨parts, hparts, rfl⟩ := h
    have hsize : tables.size = tables.keys.length := by simp [SortedMap.size, SortedMap.keys]
    obtain ⟨hlong, hcount, hdrop⟩ := short_append (Nat.le_of_not_lt hfits) parts.flatten
    unfold decodeDestinations
    rw [if_neg hlong, hcount, hdrop, hsize, takeNames_flatten hparts]
    simp [bind, Except.bind, pure, Except.pure, SortedMap.ofList_keys]

/-! ## All slots -/

/-- What every slot says of a record, where `slot?` finds the slots by column. -/
structure Spells (slot? : Bytes → Option Bytes) (txn : Txn) : Prop where
  core : ∃ raw, slot? core = some raw ∧ decodeCore txn.id raw = .ok txn.origin
  keepAlive : ∃ beat, (slot? keepAlive).mapM decodeWord = .ok beat ∧ txn.keepAlive = beat.getD 0
  commitTime : (slot? commit).mapM decodeWord = .ok txn.commitTime
  globalCommitTime : (slot? globalCommit).mapM decodeWord = .ok txn.globalCommitTime
  state : ∃ written, (slot? state).mapM decodeState = .ok written ∧
    txn.state = txn.settled (written.getD .active)
  destinations : ∃ tables, (slot? destinations).mapM decodeDestinations = .ok tables ∧
    txn.destinations = tables.getD .empty

/-- A record can be read from a row exactly if its slots spell it. -/
theorem decode_eq_ok_iff {id : TxnId} {cells : SortedMap Bytes Bytes} {txn : Txn} :
    decode id cells.entries = .ok txn ↔ txn.id = id ∧ Spells cells.get? txn := by
  simp only [decode, SortedMap.lookup_entries]
  constructor
  · intro h
    cases hraw : cells.get? core with
    | none =>
      rw [hraw] at h
      cases h
    | some raw =>
      simp only [hraw, Except.bind_eq_ok_iff, pure, Except.pure] at h
      obtain ⟨origin, hcore, beat, hbeat, commitTime, hcommit, globalTime, hglobal, written,
        hwritten, tables, htables, htxn⟩ := h
      obtain ⟨rfl, horigin⟩ := origin_of_decodeCore hcore
      cases htxn
      refine ⟨rfl, ⟨raw, hraw, ?_⟩, ⟨beat, hbeat, rfl⟩, hcommit, hglobal, ⟨written, hwritten, rfl⟩,
        ⟨tables, htables, rfl⟩⟩
      exact hcore.trans (congrArg Except.ok horigin.symm)
  · rintro ⟨rfl, h⟩
    obtain ⟨raw, hraw, hcore⟩ := h.core
    obtain ⟨beat, hbeat, hkeepAlive⟩ := h.keepAlive
    obtain ⟨written, hwritten, hstate⟩ := h.state
    obtain ⟨tables, htables, hdestinations⟩ := h.destinations
    simp only [hraw, hcore, hbeat, h.commitTime, h.globalCommitTime, hwritten, htables,
      bind, Except.bind, pure, Except.pure]
    rw [← hkeepAlive, ← hdestinations, ← Txn.settled, ← hstate]
    rfl

/-! ## Writing one slot -/

theorem decode_insert_core (txn : Txn) :
    decode txn.id (SortedMap.empty.insert core (encodeCore txn) : SortedMap Bytes Bytes).entries =
      .ok txn.origin := by
  refine decode_eq_ok_iff.2 ⟨rfl, ⟨encodeCore txn, by simp, decodeCore_encodeCore txn⟩,
    ⟨none, ?_, rfl⟩, ?_, ?_, ⟨none, ?_, rfl⟩, ⟨none, ?_, rfl⟩⟩ <;>
    rw [SortedMap.get?_insert, if_neg (by decide)] <;> rfl

section Write

variable {id : TxnId} {cells : SortedMap Bytes Bytes} {txn : Txn}

/-- To read a row after one slot was written, read that slot anew and the others as before. -/
private theorem decode_insert {column value : Bytes} {txn' : Txn} (hid : txn'.id = id)
    (h : Spells (fun other => if other = column then some value else cells.get? other) txn') :
    decode id (cells.insert column value).entries = .ok txn' := by
  refine decode_eq_ok_iff.2 ⟨hid, ?_⟩
  rwa [funext fun other => SortedMap.get?_insert cells column other value]

theorem decode_insert_keepAlive (h : decode id cells.entries = .ok txn) (time : UInt64) :
    decode id (cells.insert keepAlive (BigEndian.ofWord time)).entries =
      .ok { txn with keepAlive := time } := by
  obtain ⟨hid, h⟩ := decode_eq_ok_iff.1 h
  have hbeat : (some (BigEndian.ofWord time)).mapM decodeWord = .ok (some time) := by
    simp [Functor.map, Except.map]
  exact decode_insert hid
    ⟨h.core, ⟨some time, hbeat, rfl⟩, h.commitTime, h.globalCommitTime, h.state, h.destinations⟩

theorem decode_insert_state (h : decode id cells.entries = .ok txn) (written : TxnState) :
    decode id (cells.insert state (encodeState written)).entries =
      .ok { txn with state := txn.settled written } := by
  obtain ⟨hid, h⟩ := decode_eq_ok_iff.1 h
  have hstate : (some (encodeState written)).mapM decodeState = .ok (some written) := by
    simp [Functor.map, Except.map]
  exact decode_insert hid ⟨h.core, h.keepAlive, h.commitTime, h.globalCommitTime,
    ⟨some written, hstate, rfl⟩, h.destinations⟩

/-- A commit slot makes a record committed, for every state slot. -/
theorem decode_insert_commit (h : decode id cells.entries = .ok txn) (time : Timestamp) :
    decode id (cells.insert commit (BigEndian.ofWord time)).entries =
      .ok { txn with commitTime := some time, state := .committed } := by
  obtain ⟨hid, h⟩ := decode_eq_ok_iff.1 h
  obtain ⟨written, hwritten, -⟩ := h.state
  have htime : (some (BigEndian.ofWord time)).mapM decodeWord = .ok (some time) := by
    simp [Functor.map, Except.map]
  exact decode_insert hid ⟨h.core, h.keepAlive, htime, h.globalCommitTime,
    ⟨written, hwritten, rfl⟩, h.destinations⟩

theorem decode_insert_globalCommit (h : decode id cells.entries = .ok txn) (time : Timestamp) :
    decode id (cells.insert globalCommit (BigEndian.ofWord time)).entries =
      .ok { txn with globalCommitTime := some time, state := .committed } := by
  obtain ⟨hid, h⟩ := decode_eq_ok_iff.1 h
  obtain ⟨written, hwritten, -⟩ := h.state
  have htime : (some (BigEndian.ofWord time)).mapM decodeWord = .ok (some time) := by
    simp [Functor.map, Except.map]
  exact decode_insert hid ⟨h.core, h.keepAlive, h.commitTime, htime,
    ⟨written, hwritten, by simp [Txn.settled]⟩, h.destinations⟩

theorem decode_insert_destinations (h : decode id cells.entries = .ok txn)
    {tables : SortedSet String} {slot : Bytes} (hslot : encodeDestinations tables = .ok slot) :
    decode id (cells.insert destinations slot).entries =
      .ok { txn with destinations := tables } := by
  obtain ⟨hid, h⟩ := decode_eq_ok_iff.1 h
  have htables : (some slot).mapM decodeDestinations = .ok (some tables) := by
    simp [Functor.map, Except.map, decodeDestinations_of_encode hslot]
  exact decode_insert hid ⟨h.core, h.keepAlive, h.commitTime, h.globalCommitTime, h.state,
    ⟨some tables, htables, rfl⟩⟩

/-- A commit or a global commit is what being committed consists in. -/
theorem committed_of_decode (h : decode id cells.entries = .ok txn)
    (htime : txn.commitTime.isSome ∨ txn.globalCommitTime.isSome) : txn.state = .committed := by
  obtain ⟨written, -, hstate⟩ := (decode_eq_ok_iff.1 h).2.state
  rw [hstate, Txn.settled]
  rcases htime with htime | htime <;> simp [htime]

end Write

end Slot

end Mvcc

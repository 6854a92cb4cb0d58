import Mvcc.Data.Bytes
import Mvcc.Text.Utf8
import Mvcc.Txn.Record

/-!
# The stored form of transaction records

A record is one row keyed by the transaction's id, so that rows sort as ids do. Fields that change
separately have separate columns. A record with a commit or global commit timestamp is committed,
also if the state column differs.
-/

namespace Mvcc

inductive SlotFault where
  | keyLength (bytes : Nat)
  | coreMissing (id : TxnId)
  | coreTruncated (id : TxnId)
  | optionalTag (tag : UInt8)
  | isolationByte (byte : UInt8)
  | wordLength (bytes : Nat)
  | stateByte (byte : UInt8)
  | stateLength (bytes : Nat)
  | destinationsTruncated
  | destinationText (fault : Text.Utf8Fault)
  | destinationCount (tables : Nat)
  | destinationLength (bytes : Nat)
  deriving DecidableEq, Repr

def SlotFault.message : SlotFault → String
  | .keyLength bytes => s!"transaction key of {bytes} bytes"
  | .coreMissing id => s!"transaction {id} has no core slot"
  | .coreTruncated id => s!"truncated core slot for {id}"
  | .optionalTag tag => s!"bad optional tag {tag.toNat}"
  | .isolationByte byte => s!"isolation byte {byte.toNat}"
  | .wordLength bytes => s!"u64 slot of {bytes} bytes"
  | .stateByte byte => s!"state byte {byte.toNat}"
  | .stateLength bytes => s!"state slot of {bytes} bytes"
  | .destinationsTruncated => "truncated destination slot"
  | .destinationText fault => fault.message
  | .destinationCount tables => s!"{tables} destination tables"
  | .destinationLength bytes => s!"table name of {bytes} bytes"

namespace Slot

def core : Bytes := [0x64]

def keepAlive : Bytes := [0x6B]

def commit : Bytes := [0x74]

def globalCommit : Bytes := [0x67]

def state : Bytes := [0x73]

def destinations : Bytes := [0x65]

def rowKey (id : TxnId) : Bytes := BigEndian.ofWord id

def ofRowKey (key : Bytes) : Except SlotFault TxnId :=
  if key.length = 8 then .ok (BigEndian.toWord key) else .error (.keyLength key.length)

/-- A tag byte that says whether there is a value, then the value. -/
def encodeOptional : Option Bytes → Bytes
  | none => [0]
  | some value => 1 :: value

/-- Take an optional value of `width` bytes off the front of a core slot. -/
def takeOptional (id : TxnId) (width : Nat) : Bytes → Except SlotFault (Option Bytes × Bytes)
  | [] => .error (.coreTruncated id)
  | tag :: rest =>
    if tag = 0 then .ok (none, rest)
    else if tag = 1 then
      if width ≤ rest.length then .ok (some (rest.take width), rest.drop width)
      else .error (.coreTruncated id)
    else .error (.optionalTag tag)

/-- The core slot: the begin timestamp, then parent, additivity and isolation where set. -/
def encodeCore (txn : Txn) : Bytes :=
  BigEndian.ofWord txn.beginTime ++
    encodeOptional (txn.parent.map BigEndian.ofWord) ++
    encodeOptional (txn.additive.map fun additive => [if additive then 1 else 0]) ++
    encodeOptional (txn.isolation.map fun level => [level.code])

def decodeIsolation (value : Bytes) : Except SlotFault Isolation :=
  let byte := value.headD 0
  match Isolation.ofCode? byte with
  | some level => .ok level
  | none => .error (.isolationByte byte)

/-- Read a core slot; bytes after it do not count. -/
def decodeCore (id : TxnId) (raw : Bytes) : Except SlotFault Txn := do
  if raw.length < 8 then throw (.coreTruncated id)
  let (parent, raw') ← takeOptional id 8 (raw.drop 8)
  let (additive, raw') ← takeOptional id 1 raw'
  let (isolation, _) ← takeOptional id 1 raw'
  let isolation ← isolation.mapM decodeIsolation
  pure { Txn.new id (BigEndian.toWord (raw.take 8)) 0 with
    parent := parent.map BigEndian.toWord
    additive := additive.map (·.headD 0 ≠ 0)
    isolation := isolation }

def decodeWord (raw : Bytes) : Except SlotFault UInt64 :=
  if raw.length = 8 then .ok (BigEndian.toWord raw) else .error (.wordLength raw.length)

def encodeState (state : TxnState) : Bytes := [state.code]

def decodeState (raw : Bytes) : Except SlotFault TxnState :=
  match raw with
  | [byte] =>
    match TxnState.ofCode? byte with
    | some state => .ok state
    | none => .error (.stateByte byte)
  | _ => .error (.stateLength raw.length)

def shortLimit : Nat := 65535

/-- One table name after its length. -/
def encodeName (name : String) : Except SlotFault Bytes :=
  let bytes := Text.toUtf8 name
  if shortLimit < bytes.length then .error (.destinationLength bytes.length)
  else .ok (BigEndian.encode 2 bytes.length ++ bytes)

/-- The destinations slot: how many tables, then their names in order. -/
def encodeDestinations (tables : SortedSet String) : Except SlotFault Bytes := do
  if shortLimit < tables.size then throw (.destinationCount tables.size)
  let names ← tables.keys.mapM encodeName
  pure (BigEndian.encode 2 tables.size ++ names.flatten)

def takeNames : Nat → Bytes → Except SlotFault (List String)
  | 0, _ => .ok []
  | count + 1, raw => do
    if raw.length < 2 then throw .destinationsTruncated
    let length := BigEndian.decode (raw.take 2)
    let rest := raw.drop 2
    if rest.length < length then throw .destinationsTruncated
    let name ← (Text.ofUtf8 (rest.take length)).mapError .destinationText
    let names ← takeNames count (rest.drop length)
    pure (name :: names)

/-- Read a destinations slot; bytes after the last name do not count. -/
def decodeDestinations (raw : Bytes) : Except SlotFault (SortedSet String) := do
  if raw.length < 2 then throw .destinationsTruncated
  let names ← takeNames (BigEndian.decode (raw.take 2)) (raw.drop 2)
  pure (.ofList names)

/-- The slots of a record by column, in order. -/
def encode (txn : Txn) : Except SlotFault (SortedMap Bytes Bytes) := do
  let tables ← encodeDestinations txn.destinations
  pure (SortedMap.ofList
    ([(core, encodeCore txn), (keepAlive, BigEndian.ofWord txn.keepAlive),
      (state, encodeState txn.state), (destinations, tables)] ++
      txn.commitTime.toList.map (fun time => (commit, BigEndian.ofWord time)) ++
      txn.globalCommitTime.toList.map (fun time => (globalCommit, BigEndian.ofWord time))))

/-- Read a record from its slots; of two slots in one column the first counts. The rule about
silent transactions is not applied. -/
def decode (id : TxnId) (columns : List (Bytes × Bytes)) : Except SlotFault Txn := do
  let some raw := columns.lookup core | throw (.coreMissing id)
  let txn ← decodeCore id raw
  let beat ← (columns.lookup keepAlive).mapM decodeWord
  let commitTime ← (columns.lookup commit).mapM decodeWord
  let globalCommitTime ← (columns.lookup globalCommit).mapM decodeWord
  let written ← (columns.lookup state).mapM decodeState
  let tables ← (columns.lookup destinations).mapM decodeDestinations
  pure { txn with
    keepAlive := beat.getD 0
    commitTime := commitTime
    globalCommitTime := globalCommitTime
    state :=
      if commitTime.isSome || globalCommitTime.isSome then .committed else written.getD .active
    destinations := tables.getD .empty }

end Slot

end Mvcc

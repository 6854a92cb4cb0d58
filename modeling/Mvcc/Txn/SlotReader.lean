import Mvcc.Txn.Slots

/-!
# Reading slots from the front

A slot is read from the front. Reading past the end is an outcome distinct from a refused slot, so
that it can be shown not to occur.
-/

namespace Mvcc

inductive ReadStop where
  /-- A read past the end. -/
  | pastEnd
  | refused (fault : SlotFault)
  deriving DecidableEq, Repr

/-- Reading from the front of what is left of a slot. -/
abbrev SlotReader := StateT Bytes (Except ReadStop)

namespace SlotReader

def left : SlotReader Nat := fun raw => .ok (raw.length, raw)

def ask (count : Nat) : SlotReader Bytes := fun raw =>
  if raw.length < count then .error .pastEnd else .ok (raw.take count, raw.drop count)

def refuse {α : Type} (fault : SlotFault) : SlotReader α := fun _ => .error (.refused fault)

/-- Continue with the result of decoding bytes that were read already. -/
def ofDecoded {α : Type} (decoded : Except SlotFault α) : SlotReader α := fun raw =>
  match decoded with
  | .ok value => .ok (value, raw)
  | .error fault => .error (.refused fault)

def firstOf (value : Bytes) : SlotReader UInt8 := fun raw =>
  match value with
  | [] => .error .pastEnd
  | byte :: _ => .ok (byte, raw)

def byte : SlotReader UInt8 := do firstOf (← ask 1)

def wordOf (value : Bytes) : SlotReader UInt64 := fun raw =>
  if value.length < 8 then .error .pastEnd else .ok (BigEndian.toWord (value.take 8), raw)

/-! ## The core slot -/

def optional (id : TxnId) (width : Nat) : SlotReader (Option Bytes) := do
  if (← left) = 0 then refuse (.coreTruncated id)
  else
    let tag ← byte
    if tag = 0 then pure none
    else if tag = 1 then
      if width ≤ (← left) then pure (some (← ask width)) else refuse (.coreTruncated id)
    else refuse (.optionalTag tag)

def isolationOf (value : Bytes) : SlotReader Isolation := do
  let byte ← firstOf value
  match Isolation.ofCode? byte with
  | some level => pure level
  | none => refuse (.isolationByte byte)

def core (id : TxnId) : SlotReader Txn := do
  if (← left) < 8 then refuse (.coreTruncated id)
  else
    let begun ← wordOf (← ask 8)
    let parent ← optional id 8
    let parent ← parent.mapM wordOf
    let additive ← optional id 1
    let additive ← additive.mapM firstOf
    let isolation ← optional id 1
    let isolation ← isolation.mapM isolationOf
    pure { Txn.new id begun 0 with
      parent := parent
      additive := additive.map (· ≠ 0)
      isolation := isolation }

/-! ## The destinations slot -/

def name : SlotReader String := do
  if (← left) < 2 then refuse .destinationsTruncated
  else
    let length := BigEndian.decode (← ask 2)
    if (← left) < length then refuse .destinationsTruncated
    else ofDecoded ((Text.ofUtf8 (← ask length)).mapError .destinationText)

def names : Nat → SlotReader (List String)
  | 0 => pure []
  | count + 1 => do
    let first ← name
    let others ← names count
    pure (first :: others)

def destinations : SlotReader (SortedSet String) := do
  if (← left) < 2 then refuse .destinationsTruncated
  else
    let count := BigEndian.decode (← ask 2)
    pure (.ofList (← names count))

end SlotReader

end Mvcc

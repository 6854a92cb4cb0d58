import Mvcc.Data.Bytes

/-!
# Text as UTF-8 bytes

Reading bytes as text either gives the text or says where the bytes stop being UTF-8. The first
byte of a character determines which bytes may follow it; the first byte outside its range is the
fault, and bytes that end before a character is complete are a fault of another kind.
-/

namespace Mvcc.Text

inductive Utf8Fault where
  /-- The `length` bytes from `index` on cannot begin any character. -/
  | invalid (length index : Nat)
  /-- The bytes end inside the character that begins at `index`. -/
  | incomplete (index : Nat)
  deriving DecidableEq, Repr

def Utf8Fault.message : Utf8Fault → String
  | .invalid length index => s!"invalid utf-8 sequence of {length} bytes from index {index}"
  | .incomplete index => s!"incomplete utf-8 byte sequence from index {index}"

/-- The ranges of the bytes that follow a first byte, or nothing when no character begins so. -/
def continuations (first : UInt8) : Option (List (UInt8 × UInt8)) :=
  let tail : UInt8 × UInt8 := (0x80, 0xBF)
  if first < 0x80 then some []
  else if first < 0xC2 then none
  else if first < 0xE0 then some [tail]
  else if first = 0xE0 then some [(0xA0, 0xBF), tail]
  else if first = 0xED then some [(0x80, 0x9F), tail]
  else if first < 0xF0 then some [tail, tail]
  else if first = 0xF0 then some [(0x90, 0xBF), tail, tail]
  else if first < 0xF4 then some [tail, tail, tail]
  else if first = 0xF4 then some [(0x80, 0x8F), tail, tail]
  else none

/-- Walk over bytes inside the character that begins at `start`, of which `seen` bytes were read and
`owed` are left. -/
def faultFrom (start seen : Nat) (owed : List (UInt8 × UInt8)) : Bytes → Option Utf8Fault
  | [] => if owed.isEmpty then none else some (.incomplete start)
  | byte :: rest =>
    match owed with
    | [] =>
      match continuations byte with
      | none => some (.invalid 1 (start + seen))
      | some owed => faultFrom (start + seen) 1 owed rest
    | (low, high) :: owed =>
      if low ≤ byte ∧ byte ≤ high then faultFrom start (seen + 1) owed rest
      else some (.invalid seen start)

def utf8Fault? (bytes : Bytes) : Option Utf8Fault := faultFrom 0 0 [] bytes

def toUtf8 (text : String) : Bytes := text.toUTF8.data.toList

def ofUtf8 (bytes : Bytes) : Except Utf8Fault String :=
  match String.fromUTF8? ⟨bytes.toArray⟩ with
  | some text => .ok text
  | none => .error ((utf8Fault? bytes).getD (.incomplete bytes.length))

theorem ofUtf8_toUtf8 (text : String) : ofUtf8 (toUtf8 text) = .ok text := by
  have h : (⟨text.toByteArray.data⟩ : ByteArray).IsValidUTF8 := text.isValidUTF8
  simp [ofUtf8, toUtf8, String.fromUTF8?, h, String.fromUTF8]

def utf8Length (text : String) : Nat := text.utf8ByteSize

end Mvcc.Text

/-!
# Byte strings and big-endian numbers

Row keys, columns, cell values and frames are byte strings. Numbers inside them are written most
significant byte first, so that equally long encodings sort as the numbers do.
-/

namespace Mvcc

/-- A byte string, ordered lexicographically. -/
abbrev Bytes := List UInt8

instance : Std.LawfulOrderLT Bytes := inferInstance

namespace BigEndian

/-- The `width` low-order bytes of `value`, most significant first. -/
def encode : Nat → Nat → Bytes
  | 0, _ => []
  | width + 1, value => encode width (value / 256) ++ [UInt8.ofNat value]

/-- The number whose base-256 digits are `bytes`, most significant first. -/
def decode (bytes : Bytes) : Nat :=
  bytes.foldl (fun value byte => 256 * value + byte.toNat) 0

@[simp] theorem encode_length (width value : Nat) : (encode width value).length = width := by
  induction width generalizing value with
  | zero => rfl
  | succ width ih => simp [encode, ih]

def ofWord (word : UInt64) : Bytes := encode 8 word.toNat

@[simp] theorem ofWord_length (word : UInt64) : (ofWord word).length = 8 := encode_length ..

def toWord (bytes : Bytes) : UInt64 := UInt64.ofNat (decode bytes)

end BigEndian

end Mvcc

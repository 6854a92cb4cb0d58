import Mvcc.Data.Bytes

/-!
# CRC-32C

The Castagnoli checksum: division of the message by a fixed polynomial over the two-element field,
least significant bit first, with all bits of the register flipped before and after.
-/

namespace Mvcc.Crc32c

/-- The generator polynomial, bits reversed. -/
def polynomial : UInt32 := 0x82F63B78

def shiftBit (register : UInt32) : UInt32 :=
  if register &&& 1 = 1 then (register >>> 1) ^^^ polynomial else register >>> 1

def shiftBits : Nat → UInt32 → UInt32
  | 0, register => register
  | count + 1, register => shiftBits count (shiftBit register)

def feed (register : UInt32) (byte : UInt8) : UInt32 :=
  shiftBits 8 (register ^^^ byte.toUInt32)

/-- The checksum of a message whose first part has the checksum `sum` and continues with `bytes`. -/
def append (sum : UInt32) (bytes : Bytes) : UInt32 :=
  bytes.foldl feed (sum ^^^ 0xFFFFFFFF) ^^^ 0xFFFFFFFF

def checksum (bytes : Bytes) : UInt32 := append 0 bytes

theorem append_checksum (front back : Bytes) :
    append (checksum front) back = checksum (front ++ back) := by
  simp only [append, checksum, List.foldl_append, UInt32.xor_assoc, UInt32.xor_self,
    UInt32.xor_zero, UInt32.zero_xor]

end Mvcc.Crc32c

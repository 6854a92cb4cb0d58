import Mvcc.Data.Bytes

/-!
# Bytes in hexadecimal

Two lower-case digits for each byte.
-/

namespace Mvcc.Text.Hex

def digits : List Char := "0123456789abcdef".toList

def digit (value : Nat) : Char := digits.getD value '0'

def value? (c : Char) : Option Nat := digits.idxOf? c

def encodeChars (bytes : Bytes) : List Char :=
  bytes.flatMap fun byte => [digit (byte.toNat / 16), digit (byte.toNat % 16)]

def encode (bytes : Bytes) : String := String.ofList (encodeChars bytes)

def decodeChars? : List Char → Option Bytes
  | [] => some []
  | [_] => none
  | high :: low :: rest => do
    let byte := 16 * (← value? high) + (← value? low)
    some (UInt8.ofNat byte :: (← decodeChars? rest))

def decode? (text : String) : Option Bytes := decodeChars? text.toList

end Mvcc.Text.Hex

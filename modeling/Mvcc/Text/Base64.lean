import Mvcc.Data.Bytes

/-!
# Base64

Three bytes are four digits of six bits each; a shorter last group is filled up with `=`.
-/

namespace Mvcc.Text.Base64

def alphabet : List Char :=
  "ABCDEFGHIJKLMNOPQRSTUVWXYZabcdefghijklmnopqrstuvwxyz0123456789+/".toList

/-- The digit of the six bits of `value` above the lowest `shift`. -/
def digit (value shift : Nat) : Char :=
  alphabet.getD ((value >>> shift) % 64) '='

def encodeChars : Bytes → List Char
  | a :: b :: c :: rest =>
    let value := BigEndian.decode [a, b, c]
    digit value 18 :: digit value 12 :: digit value 6 :: digit value 0 :: encodeChars rest
  | [a, b] =>
    let value := BigEndian.decode [a, b, 0]
    [digit value 18, digit value 12, digit value 6, '=']
  | [a] =>
    let value := BigEndian.decode [a, 0, 0]
    [digit value 18, digit value 12, '=', '=']
  | [] => []

def encode (bytes : Bytes) : String := String.ofList (encodeChars bytes)

end Mvcc.Text.Base64

/-!
# Digits

Numbers in documents are written in base ten, sixteen, eight or two.
-/

namespace Mvcc.Document

def digitValue? (c : Char) : Option Nat :=
  if '0' ≤ c ∧ c ≤ '9' then some (c.toNat - '0'.toNat)
  else if 'a' ≤ c ∧ c ≤ 'f' then some (c.toNat - 'a'.toNat + 10)
  else if 'A' ≤ c ∧ c ≤ 'F' then some (c.toNat - 'A'.toNat + 10)
  else none

/-- The number that digits of a base stand for; there has to be at least one. -/
def digits? (base : Nat) (text : List Char) : Option Nat :=
  if text.isEmpty then none
  else text.foldlM
    (fun value c => do
      let digit ← digitValue? c
      if digit < base then some (base * value + digit) else none)
    0

def based? : List Char → Option (Nat × List Char)
  | '0' :: 'x' :: rest => some (16, rest)
  | '0' :: 'o' :: rest => some (8, rest)
  | '0' :: 'b' :: rest => some (2, rest)
  | _ => none

/-- An unsigned number as it is written: decimal without leading zeros or in a base that is named,
in both cases after at most one plus sign. -/
def number? (text : List Char) : Option Nat :=
  let text := if text.head? = some '+' then text.tail else text
  match based? text with
  | some (base, rest) => digits? base rest
  | none => if text.head? = some '0' ∧ 1 < text.length then none else digits? 10 text

end Mvcc.Document

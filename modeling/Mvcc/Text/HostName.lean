import Mvcc.Text.Address

/-!
# Names of hosts

Where a host is named, its number may stand in place of the name. Numbers of four bytes are read
loosely there: up to four parts, each in decimal, octal or hexadecimal digits, of which the last
fills the bytes that are left. What is no number is a name if it is made of labels.
-/

namespace Mvcc.Text.HostName

def value? (base : Nat) (text : List Char) : Option Nat := do
  let (value, rest) ← Address.number? base (UInt32.size - 1) text
  if rest.isEmpty then some value else none

/-- A part of a loose number. Zero and an x begin hexadecimal digits, zero alone octal ones. -/
def part? (text : List Char) : Option Nat :=
  match text with
  | ['0'] => some 0
  | '0' :: c :: rest => if c = 'x' || c = 'X' then value? 16 rest else value? 8 (c :: rest)
  | text => value? 10 text

/-- The parts of a loose number, of which there may be `room`. All but the last are bytes. -/
def parts? : Nat → List Char → Option (List Nat)
  | 0, _ => none
  | room + 1, text => do
    let digits := text.takeWhile (· ≠ '.')
    let value ← part? digits
    match text.drop digits.length with
    | [] => some [value]
    | _ :: rest => if 255 < value then none else some (value :: (← parts? room rest))

def bytesOf : Nat → Nat → List Nat
  | 0, _ => []
  | count + 1, value => bytesOf count (value / 256) ++ [value % 256]

def fill? (parts : List Nat) : Option (List Nat) := do
  let last ← parts.getLast?
  let room := 5 - parts.length
  if last < 1 <<< (8 * room) then some (parts.dropLast ++ bytesOf room last) else none

def host? (name : List Char) : Option Host :=
  match (parts? 4 name).bind fill? with
  | some bytes => some (.short bytes)
  | none => do
    let (host, rest) ← Address.longHost? name
    if rest.isEmpty then some host else none

def isLabelChar (c : Char) : Bool := c.isAlphanum || c = '-' || c = '_'

/-- Whether a text is made of labels with points between them; `used` says how long the label at its
front is already. No label is empty or longer than 63 characters. -/
def areLabels (used : Nat) : List Char → Bool
  | [] => 0 < used && used ≤ 63
  | c :: rest =>
    if c = '.' then 0 < used && used ≤ 63 && areLabels 0 rest
    else isLabelChar c && areLabels (used + 1) rest

/-- Whether a text may be the name of a host. One point may end it. -/
def isName (text : List Char) : Bool :=
  let labels := if text.getLast? = some '.' then text.dropLast else text
  text = ['.'] || (text.head? ≠ some '-' && labels.length ≤ 253 && areLabels 0 labels)

def ownName : String := "localhost"

/-- Whether a text names this machine; the case of letters does not matter. -/
def isOwn (text : List Char) : Bool := String.ofList (text.map Char.toLower) = ownName

def ownHost : Host := .short [127, 0, 0, 1]

end Mvcc.Text.HostName

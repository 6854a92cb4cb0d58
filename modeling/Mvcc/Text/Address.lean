/-!
# Socket addresses

A socket address is the number of a host and of a service on it. Four bytes in decimal are one
kind of host number; eight groups of hexadecimal digits in square brackets are the other, where two
colons stand for a run of zero groups and the last two groups may be written as four bytes.
-/

namespace Mvcc.Text

inductive Host where
  | short (bytes : List Nat)
  /-- Eight groups and the zone index, zero by default. -/
  | long (groups : List Nat) (zone : Nat)
  deriving DecidableEq, Repr

structure Address where
  host : Host
  service : Nat
  deriving DecidableEq, Repr

namespace Host

def bytesOf (groups : List Nat) : List Nat := groups.flatMap fun group => [group / 256, group % 256]

/-- The host by its bytes, if the groups only wrap those. -/
def unwrapped : Host → Host
  | .short bytes => .short bytes
  | .long groups zone =>
    if groups.take 6 = [0, 0, 0, 0, 0, 0xFFFF] then .short (bytesOf (groups.drop 6))
    else .long groups zone

/-- Whether this stands for every host that the machine is known as. -/
def isAny (host : Host) : Bool :=
  match host.unwrapped with
  | .short bytes => bytes.all (· = 0)
  | .long groups _ => groups.all (· = 0)

def isMany (groups : List Nat) : Bool := groups.head?.any (· / 256 = 0xFF)

/-- Whether the groups have a meaning on one link only. -/
def isLinkBound (groups : List Nat) : Bool := groups.head?.any (· / 64 = 0x3FA)

end Host

namespace Address

def digit? (base : Nat) (c : Char) : Option Nat :=
  let value :=
    if c.isDigit then c.toNat - '0'.toNat
    else if 'a' ≤ c ∧ c ≤ 'f' then c.toNat - 'a'.toNat + 10
    else if 'A' ≤ c ∧ c ≤ 'F' then c.toNat - 'A'.toNat + 10
    else base
  if value < base then some value else none

def leadingDigits (base : Nat) (text : List Char) : List Char :=
  text.takeWhile fun c => (digit? base c).isSome

def number? (base limit : Nat) (text : List Char) : Option (Nat × List Char) :=
  let digits := leadingDigits base text
  let value := digits.foldl (fun value c => base * value + (digit? base c).getD 0) 0
  if digits.isEmpty || limit < value then none else some (value, text.drop digits.length)

/-- A byte at the front of a text, without leading zeros. -/
def byte? (text : List Char) : Option (Nat × List Char) :=
  let digits := leadingDigits 10 text
  if digits.head? = some '0' ∧ 1 < digits.length then none else number? 10 255 text

def expect? (c : Char) : List Char → Option (List Char)
  | first :: rest => if first = c then some rest else none
  | [] => none

/-- Four bytes with points between them, at the front of a text. -/
def bytes? (text : List Char) : Option (List Nat × List Char) := do
  let (a, text) ← byte? text
  let (b, text) ← byte? (← expect? '.' text)
  let (c, text) ← byte? (← expect? '.' text)
  let (d, text) ← byte? (← expect? '.' text)
  some ([a, b, c, d], text)

def group? (text : List Char) : Option (Nat × List Char) :=
  if 4 < (leadingDigits 16 text).length then none else number? 16 65535 text

/-- The groups at the front of a text, of which there may be `room` and of which `count` were read
before; whether four bytes ended them; and the rest. -/
def groups : Nat → Nat → List Char → List Nat × Bool × List Char
  | 0, _, text => ([], false, text)
  | room + 1, count, text =>
    match if count = 0 then some text else expect? ':' text with
    | none => ([], false, text)
    | some inner =>
      match if room = 0 then none else bytes? inner with
      | some (bytes, rest) =>
        ([256 * bytes.getD 0 0 + bytes.getD 1 0, 256 * bytes.getD 2 0 + bytes.getD 3 0], true, rest)
      | none =>
        match group? inner with
        | none => ([], false, text)
        | some (group, rest) =>
          let (more, endsShort, rest) := groups room (count + 1) rest
          (group :: more, endsShort, rest)

/-- Eight groups at the front of a text, some of them possibly left out. -/
def eightGroups? (text : List Char) : Option (List Nat × List Char) := do
  let (head, endsShort, rest) := groups 8 0 text
  if head.length = 8 then some (head, rest)
  else if endsShort then none
  else
    let rest ← expect? ':' (← expect? ':' rest)
    let (tail, _, rest) := groups (7 - head.length) 0 rest
    some (head ++ List.replicate (8 - head.length - tail.length) 0 ++ tail, rest)

/-- A zone after a host, zero if none is named, and the rest of the text. -/
def zone? (text : List Char) : Option (Nat × List Char) :=
  match text with
  | '%' :: rest => number? 10 (UInt32.size - 1) rest
  | text => some (0, text)

def longHost? (text : List Char) : Option (Host × List Char) := do
  let (groups, rest) ← eightGroups? text
  let (zone, rest) ← zone? rest
  some (.long groups zone, rest)

def service? (text : List Char) : Option Nat := do
  let (number, rest) ← number? 10 65535 text
  if rest.isEmpty then some number else none

def parse? (text : String) : Option Address :=
  match text.toList with
  | '[' :: rest => do
    let (host, rest) ← longHost? rest
    some ⟨host, ← service? (← expect? ':' (← expect? ']' rest))⟩
  | chars => do
    let (host, rest) ← bytes? chars
    some ⟨.short host, ← service? (← expect? ':' rest)⟩

/-- Whether listening at one address excludes listening at the other. -/
def collides (a b : Address) : Bool :=
  a.service = b.service && a.service ≠ 0 &&
    (a.host.isAny || b.host.isAny || a.host.unwrapped = b.host.unwrapped)

end Address

end Mvcc.Text

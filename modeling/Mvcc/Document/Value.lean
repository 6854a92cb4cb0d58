import Mvcc.Document.Digits
import Mvcc.Document.Node

/-!
# Values in documents

A scalar without quotes may stand for a number, for a text or for nothing, as the reader of a
setting decides; one in quotes is a text. Which shapes may stand for what depends on the notation
that the document is written in.
-/

namespace Mvcc.Document

structure Dialect where
  /-- A plain scalar is accepted as a text. -/
  plainText : Bool
  /-- An empty section holds no entries. -/
  emptySection : Bool
  /-- A section may be given as a sequence of its entries. -/
  listSection : Bool

namespace Dialect

def indented : Dialect := ⟨true, true, false⟩

def bracketed : Dialect := ⟨false, false, true⟩

end Dialect

structure Source where
  dialect : Dialect
  root : Node

namespace Source

variable {α : Type}

def wholeTag : String := "tag:yaml.org,2002:int"

def nothingTag : String := "tag:yaml.org,2002:null"

def nothingWords : List String := ["null", "Null", "NULL", "~"]

def part (source : Source) (node : Node) : Node := source.root.standsFor node

def scalar? (source : Source) (node : Node) : Option String :=
  match source.part node with
  | .scalar _ _ text => some text
  | _ => none

def text? (source : Source) (node : Node) : Option String :=
  match source.part node with
  | .scalar _ style text => if source.dialect.plainText || style ≠ .plain then some text else none
  | _ => none

/-- Whether a scalar may stand for a number: it has no quotes, or it is a block of lines with the
tag of a number. -/
def isNumeric (tag : Option String) (style : Style) : Bool :=
  style = .plain || (style = .literal && tag = some wholeTag)

def word? (source : Source) (node : Node) : Option UInt64 :=
  match source.part node with
  | .scalar tag style text => do
    guard (isNumeric tag style)
    let value ← number? text.toList
    guard (value < UInt64.size)
    some (UInt64.ofNat value)
  | _ => none

/-- Whether a part stands for nothing where a value is optional; none if its tag says so and it
does not. -/
def isNothing? (source : Source) (node : Node) : Option Bool :=
  match source.part node with
  | .scalar none .plain text => some (text = "" || text ∈ nothingWords)
  | .scalar (some tag) .plain text =>
    if tag ≠ nothingTag then some false
    else if text ∈ nothingWords then some true
    else none
  | _ => some false

def optional? (source : Source) (read : Node → Option α) (node : Node) : Option (Option α) := do
  if ← source.isNothing? node then some none else (read node).map some

end Source

/-- The entries of a section that have a meaning. -/
structure Section where
  entries : List (String × Node)

namespace Section

/-- The entries of a map whose names have a meaning. Every key has to be a scalar, and no name may
be given twice; names without a meaning do not count. -/
def ofEntries? (source : Source) (names : List String) (entries : List (Node × Node)) :
    Option Section := do
  let named ← entries.mapM fun entry => do pure (← source.scalar? entry.1, entry.2)
  let known := named.filter (·.1 ∈ names)
  if (known.map (·.1)).Nodup then some ⟨known⟩ else none

def read? (source : Source) (names : List String) (node : Node) : Option Section :=
  match source.part node with
  | .map entries => ofEntries? source names entries
  | .list items =>
    if source.dialect.listSection ∧ items.length ≤ names.length then some ⟨names.zip items⟩
    else none
  | .scalar _ .plain "" => if source.dialect.emptySection then some ⟨[]⟩ else none
  | _ => none

variable {α : Type}

def get? (part : Section) (name : String) (read : Node → Option α) (standard : α) : Option α :=
  match part.entries.lookup name with
  | some node => read node
  | none => some standard

def require? (part : Section) (name : String) (read : Node → Option α) : Option α :=
  (part.entries.lookup name).bind read

end Section

end Mvcc.Document

import Mvcc.Document.Cursor
import Mvcc.Document.Digits

/-!
# Names, tags and directives

A part of a document may be given a name, under which later parts refer to it, and a tag, which says
what kind of value it is. Tags are written in short with a handle, whose long form is known or said
by a directive in front of the document. Escapes in tags stand for octets, so the text of a tag has
a character for every octet.
-/

namespace Mvcc.Document

def isNameChar (c : Char) : Bool := c.isAlphanum || c = '_' || c = '-'

def nameOf (text : List Char) : List Char := text.takeWhile isNameChar

def nameEnds : List Char := ['?', ':', ',', ']', '}', '%', '@', '\u0060']

def label? (text : List Char) : Option (String × List Char) :=
  let name := nameOf text
  let rest := text.drop name.length
  if !name.isEmpty && (endsWord rest || rest.head?.any (· ∈ nameEnds)) then
    some (String.ofList name, rest)
  else none

/-- Whether a character may occur in a tag; `bracketed` tags may also hold commas and brackets. -/
def isTagChar (bracketed : Bool) (c : Char) : Bool :=
  isNameChar c ||
    c ∈ [';', '/', '?', ':', '@', '&', '=', '+', '$', '.', '!', '~', '*', '\'', '(', ')'] ||
    (bracketed && c ∈ [',', '[', ']'])

/-- How many octets of a character are left after one of them, of which there were `left`. -/
def octetsLeft? (left octet : Nat) : Option Nat :=
  if left ≠ 0 then
    if octet / 0x40 = 2 then some (left - 1) else none
  else if octet < 0x80 then some 0
  else if octet / 0x20 = 6 then some 1
  else if octet / 0x10 = 14 then some 2
  else if octet / 8 = 30 then some 3
  else none

/-- The text of a tag. An escape is a percent sign and two digits; consecutive escapes spell whole
characters, and `left` octets of the last one are missing. -/
def tagText? (bracketed : Bool) (left : Nat) : List Char → Option (List Char × List Char)
  | '%' :: high :: low :: rest => do
    let octet ← digits? 16 [high, low]
    let (text, rest) ← tagText? bracketed (← octetsLeft? left octet) rest
    some (Char.ofNat octet :: text, rest)
  | c :: rest =>
    if left ≠ 0 || c = '%' then none
    else if isTagChar bracketed c then do
      let (text, rest) ← tagText? bracketed 0 rest
      some (c :: text, rest)
    else some ([], c :: rest)
  | [] => if left = 0 then some ([], []) else none

/-- The text of a tag, or of the long form of a handle; there has to be some. An octet zero ends
it. -/
def tagEnding? (bracketed : Bool) (text : List Char) : Option (String × List Char) := do
  let (ending, rest) ← tagText? bracketed 0 text
  if ending.isEmpty then none
  else some (String.ofList (ending.takeWhile (· ≠ '\x00')), rest)

/-- A tag as it is written: its handle, which is empty where there is none, and its ending. -/
structure WrittenTag where
  handle : String
  ending : String
  deriving DecidableEq, Repr

namespace WrittenTag

def unspecific : WrittenTag := ⟨"", "!"⟩

def body? (text : List Char) : Option (WrittenTag × List Char) :=
  match text with
  | '<' :: text => do
    let (ending, rest) ← tagEnding? true text
    if rest.head? = some '>' then some (⟨"", ending⟩, rest.tail) else none
  | text =>
    let name := nameOf text
    match text.drop name.length with
    | '!' :: text => do
      let (ending, rest) ← tagEnding? false text
      some (⟨String.ofList (['!'] ++ name ++ ['!']), ending⟩, rest)
    | _ => do
      let (ending, rest) ← tagText? false 0 text
      let ending := ending.takeWhile (· ≠ '\x00')
      some (if ending.isEmpty then unspecific else ⟨"!", String.ofList ending⟩, rest)

def read? (flow : Bool) (text : List Char) : Option (WrittenTag × List Char) := do
  let (tag, rest) ← body? text
  if endsWord rest || (flow && rest.head? = some ',') then some (tag, rest) else none

def expand? (handles : List (String × String)) (tag : WrittenTag) : Option String :=
  if tag.handle.isEmpty then some tag.ending
  else (handles.lookup tag.handle).map (· ++ tag.ending)

end WrittenTag

inductive Directive where
  | version (major minor : Nat)
  | handle (name value : String)
  deriving DecidableEq, Repr

namespace Directive

def knownHandles : List (String × String) := [("!", "!"), ("!!", "tag:yaml.org,2002:")]

def skipSpaces (text : List Char) : List Char := text.dropWhile isSpace

/-- A part of a version: at most nine digits. -/
def versionPart? (text : List Char) : Option (Nat × List Char) := do
  let digits := text.takeWhile Char.isDigit
  if 9 < digits.length then none
  else some (← digits? 10 digits, text.drop digits.length)

def version? (text : List Char) : Option (Directive × List Char) := do
  let (major, rest) ← versionPart? (skipSpaces text)
  if rest.head? ≠ some '.' then none
  else
    let (minor, rest) ← versionPart? rest.tail
    some (version major minor, rest)

/-- The name of a handle: a word between exclamation marks, or one mark alone. -/
def handleName? (text : List Char) : Option (List Char × List Char) :=
  match text with
  | '!' :: text =>
    let name := nameOf text
    match text.drop name.length with
    | '!' :: rest => some (['!'] ++ name ++ ['!'], rest)
    | rest => if name.isEmpty then some (['!'], rest) else none
  | _ => none

def handle? (text : List Char) : Option (Directive × List Char) := do
  let (name, rest) ← handleName? (skipSpaces text)
  if !rest.head?.any isSpace then none
  else
    let (value, rest) ← tagEnding? true (skipSpaces rest)
    if endsWord rest then some (handle (String.ofList name) value, rest) else none

def read? (text : List Char) : Option (Directive × List Char) :=
  let name := nameOf text
  let rest := text.drop name.length
  if !endsWord rest then none
  else if name = "YAML".toList then version? rest
  else if name = "TAG".toList then handle? rest
  else none

end Directive

end Mvcc.Document

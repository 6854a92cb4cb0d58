import Mvcc.Document.Cursor
import Mvcc.Document.Digits

/-!
# Scalars in a line

A scalar is written as it is, or between single or double quotes. Line breaks inside it are folded:
one stands for a space, and of several the first is dropped. Between single quotes a quote is
written twice; between double quotes a backslash begins an escape. What was read so far is kept with
the last character first.
-/

namespace Mvcc.Document

structure Gap where
  spaces : List Char
  /-- The line breaks; surrounding spaces are dropped. -/
  breaks : List Char
  /-- Whether a tab occurred in the indentation. -/
  misplacedTab : Bool

namespace Gap

def none : Gap := ⟨[], [], false⟩

def take (floor : Nat) (gap : Gap) (position : Position) : List Char → Gap × Cursor
  | [] => (gap, ⟨position, []⟩)
  | c :: rest =>
    let next := position.after c
    if isBreak c then
      take floor { gap with spaces := [], breaks := gap.breaks ++ [c] } next rest
    else if isSpace c then
      let gap :=
        if gap.breaks.isEmpty then { gap with spaces := gap.spaces ++ [c] }
        else { gap with
          misplacedTab := gap.misplacedTab || (c = '\t' && position.column < floor) }
      take floor gap next rest
    else (gap, ⟨position, c :: rest⟩)

def read (floor : Nat) (cursor : Cursor) : Gap × Cursor :=
  take floor none cursor.toPosition cursor.rest

def isBroken (gap : Gap) : Bool := !gap.breaks.isEmpty

def text (gap : Gap) : List Char :=
  match gap.breaks with
  | [] => gap.spaces
  | first :: more =>
    if first ≠ '\n' then first :: more else if more.isEmpty then [' '] else more

end Gap

def isFlowMark (c : Char) : Bool := c ∈ [',', '[', ']', '{', '}']

def reservedStarts : List Char :=
  ['-', '?', ':', ',', '[', ']', '{', '}', '#', '&', '*', '!', '|', '>', '\'', '"', '%', '@',
    '\u0060']

def startsPlain (flow : Bool) : List Char → Bool
  | [] => false
  | c :: rest =>
    if isSpace c || isBreak c then false
    else if c ∉ reservedStarts then true
    else if c = '-' then !endsWord rest
    else (c = '?' || c = ':') && !flow && !endsWord rest

/-- The next word of a scalar without quotes. A colon ends it where the word ends too, and inside
brackets so do brackets and commas. -/
def plainWord (flow : Bool) : List Char → List Char
  | [] => []
  | c :: rest =>
    if isSpace c || isBreak c then []
    else if c = ':' && endsWord rest then []
    else if flow && isFlowMark c then []
    else c :: plainWord flow rest

def clashesWithColon (c : Char) : Bool := isFlowMark c || c = '?'

def hasClash : List Char → Bool
  | a :: b :: rest => (a = ':' && clashesWithColon b) || hasClash (b :: rest)
  | _ => false

structure PlainScalar where
  text : List Char
  /-- After the space that follows the scalar. -/
  next : Cursor
  isBroken : Bool

/-- The words of a scalar without quotes; `gap` lies before the next one. The lines of a block are
indented by `floor`. -/
def plainWords (flow : Bool) (floor : Nat) :
    Nat → List Char → Gap → Cursor → Option PlainScalar
  | 0, _, _, _ => none
  | fuel + 1, read, gap, cursor =>
    let ended : PlainScalar := ⟨read.reverse, cursor, gap.isBroken⟩
    if cursor.atEnd || cursor.peek? = some '#' then some ended
    else
      let word := plainWord flow cursor.rest
      if flow && hasClash (cursor.rest.take (word.length + 1)) then none
      else if word.isEmpty then some ended
      else
        let read := word.reverse ++ (gap.text.reverse ++ read)
        let (gap, next) := Gap.read floor (cursor.skip word.length)
        if gap.misplacedTab then none
        else if !flow && gap.isBroken && next.column < floor then
          some ⟨read.reverse, next, true⟩
        else plainWords flow floor fuel read gap next

/-- A scalar without quotes. At most `bound` characters are left. -/
def plainScalar? (bound : Nat) (flow : Bool) (floor : Nat) (cursor : Cursor) :
    Option PlainScalar :=
  plainWords flow floor (bound + 1) [] .none cursor

def singleQuoted : Nat → List Char → Cursor → Option (List Char × Cursor)
  | 0, _, _ => none
  | fuel + 1, read, cursor =>
    if cursor.atEnd then none
    else match cursor.rest with
    | [] => none
    | '\'' :: '\'' :: _ => singleQuoted fuel ('\'' :: read) (cursor.skip 2)
    | '\'' :: _ => some (read.reverse, cursor.skip 1)
    | c :: _ =>
      if isSpace c || isBreak c then
        let (gap, next) := Gap.read 0 cursor
        singleQuoted fuel (gap.text.reverse ++ read) next
      else singleQuoted fuel (c :: read) (cursor.skip 1)

def simpleEscapes : List (Char × Char) :=
  [('0', '\x00'), ('a', '\x07'), ('b', '\x08'), ('t', '\t'), ('\t', '\t'), ('n', '\n'),
    ('v', '\x0B'), ('f', '\x0C'), ('r', '\r'), ('e', '\x1B'), (' ', ' '), ('"', '"'), ('/', '/'),
    ('\\', '\\'), ('N', '\u0085'), ('_', '\u00A0'), ('L', '\u2028'), ('P', '\u2029')]

def numberedEscapes : List (Char × Nat) := [('x', 2), ('u', 4), ('U', 8)]

def charOf? (code : Nat) : Option Char :=
  if code.isValidChar then some (Char.ofNat code) else none

def escape? : List Char → Option (Char × Nat)
  | [] => none
  | c :: rest =>
    match simpleEscapes.lookup c with
    | some value => some (value, 1)
    | none => do
      let width ← numberedEscapes.lookup c
      if rest.length < width then none
      let code ← digits? 16 (rest.take width)
      some (← charOf? code, width + 1)

/-- The rest of a scalar between double quotes. An escaped line break stands for nothing. -/
def doubleQuoted : Nat → List Char → Cursor → Option (List Char × Cursor)
  | 0, _, _ => none
  | fuel + 1, read, cursor =>
    if cursor.atEnd then none
    else match cursor.rest with
    | [] => none
    | '"' :: _ => some (read.reverse, cursor.skip 1)
    | '\\' :: rest =>
      if rest.head?.any isBreak then
        let (gap, next) := Gap.read 0 (cursor.skip 1).skipBreak
        doubleQuoted fuel (gap.breaks.reverse ++ read) next
      else do
        let (c, length) ← escape? rest
        doubleQuoted fuel (c :: read) (cursor.skip (length + 1))
    | c :: _ =>
      if isSpace c || isBreak c then
        let (gap, next) := Gap.read 0 cursor
        doubleQuoted fuel (gap.text.reverse ++ read) next
      else doubleQuoted fuel (c :: read) (cursor.skip 1)

def quotedScalar? (bound : Nat) (cursor : Cursor) : Option (String × Cursor) := do
  let (text, next) ← match cursor.peek? with
    | some '\'' => singleQuoted (bound + 1) [] (cursor.skip 1)
    | some '"' => doubleQuoted (bound + 1) [] (cursor.skip 1)
    | _ => none
  some (String.ofList text, next)

end Mvcc.Document

import Mvcc.Document.Cursor
import Mvcc.Document.Digits

/-!
# Blocks of text

A scalar may be a block of lines below a bar or an angle. After a bar the lines stand as they are;
after an angle neighbouring lines are folded into one, unless one of them is indented further. All
lines are indented by the same depth, which is said in the first line or read off the first line
with content.
-/

namespace Mvcc.Document

/-- What becomes of the line breaks at the end of a block of text. -/
inductive Chomping where
  /-- None of them belongs to the text. -/
  | strip
  /-- The first one belongs to the text. -/
  | clip
  /-- All of them belong to the text. -/
  | keep
  deriving DecidableEq, Repr

/-- What the first line says about the block below it. -/
structure TextHeader where
  chomping : Option Chomping
  /-- The indentation relative to the enclosing block. -/
  depth : Option Nat
  deriving DecidableEq, Repr

namespace TextHeader

def chomping? : List Char → Option Chomping × List Char
  | '+' :: rest => (some .keep, rest)
  | '-' :: rest => (some .strip, rest)
  | rest => (none, rest)

/-- The depth, if it is next. It is one digit and not zero. -/
def depth? : List Char → Option (Option Nat × List Char)
  | [] => some (none, [])
  | c :: rest =>
    if c = '0' then none
    else if c.isDigit then some (some (c.toNat - '0'.toNat), rest)
    else some (none, c :: rest)

def read? (text : List Char) : Option (TextHeader × List Char) := do
  let (chomping, rest) := chomping? text
  let (depth, rest) ← depth? rest
  let (late, rest) :=
    if chomping.isNone && depth.isSome then chomping? rest else (none, rest)
  some (⟨chomping <|> late, depth⟩, rest)

end TextHeader

/-- Past the spaces that indent a line and past lines that hold nothing else: their line breaks,
how far the widest of them went, and where the next line with content goes on. A tab may not stand
where a line is not indented by `depth` yet. -/
def emptyLines (depth : Option Nat) (breaks : List Char) (widest : Nat) (position : Position) :
    List Char → Option (List Char × Nat × Cursor)
  | [] => some (breaks.reverse, max widest position.column, ⟨position, []⟩)
  | c :: rest =>
    let indents := depth.all (position.column < ·)
    let next := position.after c
    if indents && c = ' ' then emptyLines depth breaks widest next rest
    else if indents && c = '\t' then none
    else if isBreak c then
      emptyLines depth (c :: breaks) (max widest position.column) next rest
    else some (breaks.reverse, max widest position.column, ⟨position, c :: rest⟩)

structure TextLines where
  /-- The text up to the end of the last line with content, last character first. -/
  read : List Char
  /-- The line break that ended that line. -/
  ended : List Char
  /-- The line breaks of the empty lines after it. -/
  breaks : List Char
  /-- Whether that line was more indented. -/
  indented : Bool

namespace TextLines

def gap (lines : TextLines) (folded indented : Bool) : List Char :=
  if folded && lines.ended = ['\n'] && !lines.indented && !indented then
    if lines.breaks.isEmpty then [' '] else lines.breaks
  else lines.ended ++ lines.breaks

def text (lines : TextLines) (chomping : Chomping) : List Char :=
  lines.read.reverse ++
    match chomping with
    | .strip => []
    | .clip => lines.ended
    | .keep => lines.ended ++ lines.breaks

def extend (folded : Bool) (depth : Nat) :
    Nat → TextLines → Cursor → Option (TextLines × Cursor)
  | 0, _, _ => none
  | fuel + 1, lines, cursor =>
    if cursor.column ≠ depth || cursor.rest.isEmpty then some (lines, cursor)
    else do
      let indented := cursor.peek?.any isSpace
      let line := cursor.restOfLine
      let ending := cursor.skip line.length
      let after := ending.skipBreak
      let (breaks, _, next) ← emptyLines (some depth) [] 0 after.toPosition after.rest
      extend folded depth fuel
        ⟨line.reverse ++ ((lines.gap folded indented).reverse ++ lines.read),
          ending.peek?.toList, breaks, indented⟩
        next

end TextLines

/-- A block of text, at the sign that begins it. Its lines are indented by `floor` at least, and at
most `bound` characters are left. -/
def textBlock? (bound floor : Nat) (cursor : Cursor) : Option (String × Cursor) := do
  let folded := cursor.peek? = some '>'
  let (header, rest) ← TextHeader.read? cursor.restOfLine.tail
  let start ← (cursor.resume rest).finishLine?
  let said := header.depth.map (· + (floor - 1))
  let (breaks, widest, next) ← emptyLines said [] 0 start.toPosition start.rest
  let depth := said.getD (max widest (max floor 1))
  let (lines, next) ←
    TextLines.extend folded depth (bound + 1) ⟨[], [], breaks, false⟩ next
  some (String.ofList (lines.text (header.chomping.getD .clip)), next)

end Mvcc.Document

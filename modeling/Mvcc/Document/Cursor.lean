/-!
# Positions in a document

A cursor is the text that is left, with the position at which it begins. Columns matter, since the
indentation of a line says which block it belongs to, and so do lines, since a key and its colon
share one.
-/

namespace Mvcc.Document

def isAllowed (c : Char) : Bool :=
  let code := c.toNat
  code = 0x9 || code = 0xA || code = 0xD || (0x20 ≤ code && code ≤ 0x7E) || code = 0x85 ||
    (0xA0 ≤ code && code ≤ 0xFFFD) || 0x10000 ≤ code

/-- Write every line break as a line feed, except the separators of lines and paragraphs, which
stand for themselves. -/
def unifyBreaks : List Char → List Char
  | '\r' :: '\n' :: rest => '\n' :: unifyBreaks rest
  | c :: rest => (if c = '\r' ∨ c = '\u0085' then '\n' else c) :: unifyBreaks rest
  | [] => []

def isBreak (c : Char) : Bool := c = '\n' || c = '\u2028' || c = '\u2029'

def isSpace (c : Char) : Bool := c = ' ' || c = '\t'

def endsWord : List Char → Bool
  | [] => true
  | c :: _ => isSpace c || isBreak c

structure Position where
  line : Nat
  column : Nat
  /-- The octet offset in the line. -/
  octets : Nat
  deriving DecidableEq, Repr

namespace Position

def origin : Position := ⟨0, 0, 0⟩

def after (position : Position) (c : Char) : Position :=
  if isBreak c then ⟨position.line + 1, 0, 0⟩
  else ⟨position.line, position.column + 1, position.octets + c.utf8Size⟩

end Position

/-- The mark of byte order, which has no meaning at the front of a line but takes up a column. -/
def byteOrderMark : Char := '\uFEFF'

structure Cursor extends Position where
  rest : List Char

namespace Cursor

def start (text : List Char) : Cursor := ⟨.origin, text⟩

def skip (cursor : Cursor) (count : Nat) : Cursor :=
  ⟨(cursor.rest.take count).foldl Position.after cursor.toPosition, cursor.rest.drop count⟩

def restOfLine (cursor : Cursor) : List Char := cursor.rest.takeWhile (!isBreak ·)

def resume (cursor : Cursor) (rest : List Char) : Cursor :=
  cursor.skip (cursor.restOfLine.length - rest.length)

def skipBreak (cursor : Cursor) : Cursor :=
  if cursor.rest.head?.any isBreak then cursor.skip 1 else cursor

def peek? (cursor : Cursor) : Option Char := cursor.rest.head?

/-- Whether a line begins with the given mark, which is then a word of its own. -/
def atMark (cursor : Cursor) (mark : List Char) : Bool :=
  cursor.column = 0 && mark.isPrefixOf cursor.rest && endsWord (cursor.rest.drop mark.length)

def atStartMark (cursor : Cursor) : Bool := cursor.atMark ['-', '-', '-']

def atEndMark (cursor : Cursor) : Bool := cursor.atMark ['.', '.', '.']

def atEnd (cursor : Cursor) : Bool :=
  cursor.rest.isEmpty || cursor.atStartMark || cursor.atEndMark

/-- Past the spaces and the comment at the end of a line. Nothing else may stand there. -/
def finishLine? (cursor : Cursor) : Option Cursor :=
  let next := cursor.skip (cursor.rest.takeWhile isSpace).length
  let next := if next.peek? = some '#' then
      next.skip next.restOfLine.length
    else next
  if next.rest.head?.all isBreak then some next.skipBreak else none

/-- Past spaces, comments and line breaks. Tabs count as spaces where `tabs` says so on the first
line, and `laterTabs` on the others. -/
def skipBlank (tabs laterTabs : Bool) (position : Position) (comment : Bool) : List Char → Cursor
  | [] => ⟨position, []⟩
  | c :: rest =>
    let next := position.after c
    if isBreak c then skipBlank laterTabs laterTabs next false rest
    else if comment || c = ' ' || (c = '\t' && tabs) then
      skipBlank tabs laterTabs next comment rest
    else if c = byteOrderMark && position.column = 0 then
      skipBlank tabs laterTabs next comment rest
    else if c = '#' then skipBlank tabs laterTabs next true rest
    else ⟨position, c :: rest⟩

def skipLoose (cursor : Cursor) (tabs laterTabs : Bool) : Cursor :=
  skipBlank tabs laterTabs cursor.toPosition false cursor.rest

end Cursor

end Mvcc.Document

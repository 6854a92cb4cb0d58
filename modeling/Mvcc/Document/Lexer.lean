import Mvcc.Document.Scalar
import Mvcc.Document.TextBlock
import Mvcc.Document.Token

/-!
# Reading tokens

Outside of brackets a block begins at an item or key to the right of the enclosing block, and ends
at a line to the left of it. A key is recognised only by the colon after it, so the position of a
possible key is recorded, and the key mark is inserted there later. A key ends on its line and has
at most 1024 octets.
-/

namespace Mvcc.Document

structure KeyStart extends Position where
  /-- The number of preceding tokens. -/
  place : Nat
  /-- Whether only a key is allowed there. -/
  required : Bool
  deriving DecidableEq, Repr

namespace KeyStart

def limit : Nat := 1024

def isPast (start : KeyStart) (cursor : Cursor) : Bool :=
  start.line < cursor.line || start.octets + limit < cursor.octets

end KeyStart

structure Lexer where
  size : Nat
  cursor : Cursor
  tokens : Array Token
  /-- The columns of the open blocks, innermost first. -/
  columns : List Nat
  /-- Whether a simple key may begin here. -/
  keyMayBegin : Bool
  /-- The possible simple key of the innermost flow level. -/
  key : Option KeyStart
  /-- The possible simple keys of the enclosing flow levels. -/
  outerKeys : List (Option KeyStart)

namespace Lexer

def start (text : List Char) : Lexer :=
  ⟨text.length, .start text, #[], [], true, none, []⟩

def inFlow (l : Lexer) : Bool := !l.outerKeys.isEmpty

/-- The least column that is further right than the innermost block. -/
def floor (l : Lexer) : Nat :=
  match l.columns with
  | [] => 0
  | column :: _ => column + 1

def push (l : Lexer) (token : Token) (next : Cursor) : Lexer :=
  { l with tokens := l.tokens.push token, cursor := next }

def insert (l : Lexer) (place : Nat) (token : Token) : Lexer :=
  { l with tokens := l.tokens.insertIdxIfInBounds place token }

/-- Open a block at a column, before the token at a place, if the column is further right than the
innermost block. -/
def openBlock (l : Lexer) (column place : Nat) (token : Token) : Lexer :=
  if l.inFlow || column < l.floor then l
  else { l.insert place token with columns := column :: l.columns }

/-- Close the blocks at a column or further right. Inside brackets nothing is closed. -/
def closeBlocks (l : Lexer) (column : Nat) : Lexer :=
  if l.inFlow then l
  else
    let count := (l.columns.takeWhile (column ≤ ·)).length
    { l with
      tokens := l.tokens ++ Array.replicate count .blockEnd
      columns := l.columns.drop count }

def expectKey (l : Lexer) (may : Bool) : Lexer := { l with keyMayBegin := may }

def dropKey? (l : Lexer) : Option Lexer :=
  if l.key.any (·.required) then none else some { l with key := none }

def markKey? (l : Lexer) : Option Lexer :=
  if l.keyMayBegin then do
    let required := !l.inFlow && l.columns.head? = some l.cursor.column
    let start : KeyStart := ⟨l.cursor.toPosition, l.tokens.size, required⟩
    some { ← l.dropKey? with key := some start }
  else some l

def keepKey? (cursor : Cursor) : Option KeyStart → Option (Option KeyStart)
  | none => some none
  | some start =>
    if !start.isPast cursor then some (some start)
    else if start.required then none
    else some none

def dropPastKeys? (l : Lexer) : Option Lexer := do
  some { l with
    key := ← keepKey? l.cursor l.key
    outerKeys := ← l.outerKeys.mapM (keepKey? l.cursor) }

/-- Past everything that has no meaning. Outside of brackets a key may begin on a new line, and
where one may begin a tab is no space. -/
def skipLoose (l : Lexer) : Lexer :=
  let next := l.cursor.skipLoose (l.inFlow || !l.keyMayBegin) l.inFlow
  { l with
    cursor := next
    keyMayBegin := l.keyMayBegin || (!l.inFlow && next.line ≠ l.cursor.line) }

def mark (l : Lexer) (token : Token) (keyMayFollow : Bool) : Lexer :=
  (l.push token (l.cursor.skip 1)).expectKey keyMayFollow

/-- A mark for a whole line, which ends all blocks. -/
def outerMark? (l : Lexer) (token : Token) (next : Cursor) : Option Lexer := do
  some (((← (l.closeBlocks 0).dropKey?).push token next).expectKey false)

def directive? (l : Lexer) : Option Lexer := do
  let (said, rest) ← Directive.read? l.cursor.restOfLine.tail
  l.outerMark? (.directive said) (← (l.cursor.resume rest).finishLine?)

/-- An opening bracket. What is inside it is a key of its own accord or not. -/
def openFlow? (l : Lexer) (token : Token) : Option Lexer := do
  let l ← l.markKey?
  some ({ l with key := none, outerKeys := l.key :: l.outerKeys }.mark token true)

def closeFlow? (l : Lexer) (token : Token) : Option Lexer := do
  let l ← l.dropKey?
  let l := match l.outerKeys with
    | [] => l
    | key :: outerKeys => { l with key := key, outerKeys := outerKeys }
  some (l.mark token false)

/-- An item or key that is marked as one; outside of brackets it may open a block. -/
def entry? (l : Lexer) (block token : Token) (keyMayFollow : Bool) : Option Lexer :=
  if l.inFlow || l.keyMayBegin then do
    let l ← (l.openBlock l.cursor.column l.tokens.size block).dropKey?
    some (l.mark token keyMayFollow)
  else none

/-- The colon between a key and its value. Where no key began before it there is none. -/
def value? (l : Lexer) : Option Lexer :=
  match l.key with
  | some start =>
    let l := (l.insert start.place .key).openBlock start.column start.place .blockMap
    some ({ l with key := none }.mark .value false)
  | none =>
    if l.inFlow then some (l.mark .value false)
    else if l.keyMayBegin then
      some ((l.openBlock l.cursor.column l.tokens.size .blockMap).mark .value true)
    else none

def keyLike? (l : Lexer) (token : Token) (next : Cursor) : Option Lexer := do
  some (((← l.markKey?).push token next).expectKey false)

def label? (l : Lexer) (token : String → Token) : Option Lexer := do
  let (name, rest) ← Document.label? l.cursor.restOfLine.tail
  l.keyLike? (token name) (l.cursor.resume rest)

def tag? (l : Lexer) : Option Lexer := do
  let (tag, rest) ← WrittenTag.read? l.inFlow l.cursor.restOfLine.tail
  l.keyLike? (.tag tag) (l.cursor.resume rest)

def quoted? (l : Lexer) : Option Lexer := do
  let (text, next) ← quotedScalar? l.size l.cursor
  l.keyLike? (.scalar .quoted text) next

/-- A scalar without quotes. A key may begin after it on a new line. -/
def plain? (l : Lexer) : Option Lexer :=
  if startsPlain l.inFlow l.cursor.rest then do
    let found ← plainScalar? l.size l.inFlow l.floor l.cursor
    let l ← l.keyLike? (.scalar .plain (String.ofList found.text)) found.next
    some (l.expectKey found.isBroken)
  else none

def textBlock? (l : Lexer) (style : Style) : Option Lexer := do
  let (text, next) ← Document.textBlock? l.size l.floor l.cursor
  some (((← l.dropKey?).push (.scalar style text) next).expectKey true)

def inner? (l : Lexer) : Option Lexer :=
  let flow := l.inFlow
  match l.cursor.rest with
  | [] => none
  | c :: rest =>
    if c = '[' then l.openFlow? .openList
    else if c = '{' then l.openFlow? .openMap
    else if c = ']' then l.closeFlow? .closeList
    else if c = '}' then l.closeFlow? .closeMap
    else if c = ',' then l.dropKey?.map (·.mark .comma true)
    else if c = '-' && endsWord rest then l.entry? .blockList .dash true
    else if c = '?' && (flow || endsWord rest) then l.entry? .blockMap .key !flow
    else if c = ':' && (flow || endsWord rest) then l.value?
    else if c = '*' then l.label? .alias
    else if c = '&' then l.label? .anchor
    else if c = '!' then l.tag?
    else if c = '|' && !flow then l.textBlock? .literal
    else if c = '>' && !flow then l.textBlock? .folded
    else if c = '\'' || c = '"' then l.quoted?
    else l.plain?

def token? (l : Lexer) : Option Lexer :=
  let cursor := l.cursor
  if cursor.column = 0 && cursor.peek? = some '%' then l.directive?
  else if cursor.atStartMark then l.outerMark? .documentStart (cursor.skip 3)
  else if cursor.atEndMark then l.outerMark? .documentEnd (cursor.skip 3)
  else l.inner?

/-- Read tokens up to the end of the text. Every one takes up a character at least. -/
def run : Nat → Lexer → Option (Array Token)
  | 0, _ => none
  | fuel + 1, l => do
    let l ← l.skipLoose.dropPastKeys?
    let l := l.closeBlocks (l.cursor.column + 1)
    if l.cursor.rest.isEmpty then some (← (l.closeBlocks 0).dropKey?).tokens
    else run fuel (← l.token?)

end Lexer

def tokens? (text : String) : Option (List Token) :=
  let raw := text.toList
  if raw.all isAllowed then
    let start := Lexer.start (unifyBreaks raw)
    (Lexer.run (start.size + 1) start).map Array.toList
  else none

end Mvcc.Document

import Mvcc.Document.Lexer
import Mvcc.Document.Node

/-!
# Reading documents

Tokens make up the tree of a document. What is left out is an empty scalar: an item after a dash, a
key or a value, and what a name or a tag is given to. A text that breaks a rule is refused as a
whole, and so is one with more than one document.
-/

namespace Mvcc.Document

/-- The tokens that are left, and what is known from those before them. -/
structure Reading where
  tokens : List Token
  /-- The prefixes of tag handles. -/
  handles : List (String × String)
  /-- The anchors defined so far, without repetition. -/
  names : List (String × Nat)

abbrev Grammar := StateT Reading Option

namespace Grammar

def peek : Grammar (Option Token) := do pure (← get).tokens.head?

def skip : Grammar Unit := modify fun s => { s with tokens := s.tokens.tail }

def isNext (tokens : List Token) : Grammar Bool := do pure ((← peek).any (· ∈ tokens))

def accept (token : Token) : Grammar Bool := do
  let found ← isNext [token]
  if found then skip
  pure found

def expect (token : Token) : Grammar Unit := do guard (← accept token)

def unlessNext (tokens : List Token) (read : Grammar Node) : Grammar Node := do
  if ← isNext tokens then pure .omitted else read

def anchor? : Grammar (Option String) := do
  match ← peek with
  | some (.anchor name) => do
    skip
    pure (some name)
  | _ => pure none

def tag? : Grammar (Option String) := do
  match ← peek with
  | some (.tag written) => do
    skip
    let tag ← written.expand? (← get).handles
    pure (some tag)
  | _ => pure none

def properties : Grammar (Option String × Option String) := do
  match ← anchor? with
  | some name => pure (some name, ← tag?)
  | none =>
    let tag ← tag?
    pure (← anchor?, tag)

/-- The label of a name from here on. It is the number of names that were given before. -/
def define (name : String) : Grammar Nat := do
  let known := (← get).names
  modify fun s => { s with names := (name, known.length) :: known.filter (·.1 ≠ name) }
  pure known.length

inductive Place where
  | flow
  | block
  /-- As the value of a key, where items may be at the key's column. -/
  | beside
  deriving DecidableEq

/-- The tokens before which a key or value of a block is left out. -/
def besideEnds : List Token := [.key, .value, .blockEnd]

mutual

def node (place : Place) : Nat → Grammar Node
  | 0 => failure
  | fuel + 1 => do
    match ← peek with
    | some (.alias name) =>
      skip
      let label ← (← get).names.lookup name
      pure (.alias label)
    | _ =>
      let (name, tag) ← properties
      let label ← name.mapM define
      let part ← content place (name.isSome || tag.isSome) tag fuel
      pure (label.elim part (.labelled · part))

def content (place : Place) (hasProperties : Bool) (tag : Option String) : Nat → Grammar Node
  | 0 => failure
  | fuel + 1 => do
    match ← peek with
    | some (.scalar style text) =>
      skip
      pure (.scalar tag style text)
    | some .openList =>
      skip
      flowItems true [] fuel
    | some .openMap =>
      skip
      flowEntries true [] fuel
    | found =>
      if found = some .dash ∧ place = .beside then besideItems [] fuel
      else if found = some .blockList ∧ place ≠ .flow then
        skip
        blockItems [] fuel
      else if found = some .blockMap ∧ place ≠ .flow then
        skip
        blockEntries [] fuel
      else
        guard hasProperties
        pure (.scalar tag .plain "")

def blockItems (items : List Node) : Nat → Grammar Node
  | 0 => failure
  | fuel + 1 => do
    if ← accept .blockEnd then pure (.list items.reverse)
    else
      expect .dash
      let item ← unlessNext [.dash, .blockEnd] (node .block fuel)
      blockItems (item :: items) fuel

def besideItems (items : List Node) : Nat → Grammar Node
  | 0 => failure
  | fuel + 1 => do
    if ← accept .dash then
      let item ← unlessNext (.dash :: besideEnds) (node .block fuel)
      besideItems (item :: items) fuel
    else pure (.list items.reverse)

def blockEntries (entries : List (Node × Node)) : Nat → Grammar Node
  | 0 => failure
  | fuel + 1 => do
    if ← accept .blockEnd then pure (.map entries.reverse)
    else
      expect .key
      let key ← unlessNext besideEnds (node .beside fuel)
      let hasValue ← accept .value
      let value ← if hasValue then unlessNext besideEnds (node .beside fuel) else pure .omitted
      blockEntries ((key, value) :: entries) fuel

def flowValue (close : Token) : Nat → Grammar Node
  | 0 => failure
  | fuel + 1 => do
    if ← accept .value then unlessNext [.comma, close] (node .flow fuel) else pure .omitted

/-- The rest of a list in brackets, after some items. An item that is marked as a key is a map of
one entry; where its key is left out, so is the token after the mark. -/
def flowItems (first : Bool) (items : List Node) : Nat → Grammar Node
  | 0 => failure
  | fuel + 1 => do
    if ← accept .closeList then pure (.list items.reverse)
    else
      if !first then expect .comma
      if ← accept .closeList then pure (.list items.reverse)
      else if ← accept .key then
        let isOmitted ← isNext [.value, .comma, .closeList]
        if isOmitted then skip
        let key ← if isOmitted then pure .omitted else node .flow fuel
        let value ← flowValue .closeList fuel
        flowItems false (.map [(key, value)] :: items) fuel
      else
        let item ← node .flow fuel
        flowItems false (item :: items) fuel

/-- The rest of a map in brackets, after some entries. A key that is not marked as one has no
value. -/
def flowEntries (first : Bool) (entries : List (Node × Node)) : Nat → Grammar Node
  | 0 => failure
  | fuel + 1 => do
    if ← accept .closeMap then pure (.map entries.reverse)
    else
      if !first then expect .comma
      if ← accept .closeMap then pure (.map entries.reverse)
      else if ← accept .key then
        let key ← unlessNext [.value, .comma, .closeMap] (node .flow fuel)
        let value ← flowValue .closeMap fuel
        flowEntries false ((key, value) :: entries) fuel
      else
        let key ← node .flow fuel
        flowEntries false ((key, .omitted) :: entries) fuel

end

/-- Take in a directive. A version and the meaning of a handle are said once at most. -/
def direct (hasVersion : Bool) : Directive → Grammar Bool
  | .version major minor => do
    guard (!hasVersion && major = 1 && (minor = 1 || minor = 2))
    pure true
  | .handle name value => do
    let s ← get
    guard (s.handles.lookup name).isNone
    set { s with handles := (name, value) :: s.handles }
    pure hasVersion

def directives (hasVersion : Bool) : Nat → Grammar Bool
  | 0 => failure
  | fuel + 1 => do
    match ← peek with
    | some (.directive said) =>
      skip
      let hasVersion ← direct hasVersion said
      let _ ← directives hasVersion fuel
      pure true
    | _ => pure false

def hasContent : Grammar Bool := do
  match ← peek with
  | none | some (.directive _) | some .documentStart | some .documentEnd => pure false
  | _ => pure true

def document (fuel : Nat) : Grammar Node := do
  let directed ← directives false fuel
  modify fun s => { s with handles := s.handles ++ Directive.knownHandles }
  let marked ← accept .documentStart
  guard (marked || !directed)
  let isEmpty := (← peek).isNone
  let root ← if isEmpty || (marked && !(← hasContent)) then pure .omitted else node .block fuel
  modify fun s => { s with tokens := s.tokens.dropWhile (· = .documentEnd) }
  guard (← peek).isNone
  pure root

end Grammar

/-- The document in a text. An empty text holds a document that is left out. -/
def parse? (text : String) : Option Node := do
  let tokens ← tokens? text
  (Grammar.document (4 * tokens.length + 8)).run' ⟨tokens, [], []⟩

end Mvcc.Document

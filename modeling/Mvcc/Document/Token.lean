import Mvcc.Document.Property

/-!
# Tokens

A document is a row of scalars with marks between them. Where blocks of lines begin and end, and
which scalars are keys, is seen from columns and colons and becomes marks of its own.
-/

namespace Mvcc.Document

inductive Style where
  | plain
  | quoted
  | literal
  | folded
  deriving DecidableEq, Repr

inductive Token where
  | directive (said : Directive)
  | documentStart
  | documentEnd
  | blockList
  | blockMap
  /-- The end of a block of lines. -/
  | blockEnd
  | openList
  | closeList
  | openMap
  | closeMap
  | comma
  | dash
  | key
  | value
  | alias (name : String)
  | anchor (name : String)
  | tag (written : WrittenTag)
  | scalar (style : Style) (text : String)
  deriving DecidableEq, Repr

end Mvcc.Document

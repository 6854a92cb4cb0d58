import Mvcc.Document.Token

/-!
# Documents

A document is a tree of scalars, lists and maps. Parts may be labelled, and an alias stands for the
part with a label, wherever that is; a part may even hold an alias of itself.
-/

namespace Mvcc.Document

inductive Node where
  | scalar (tag : Option String) (style : Style) (text : String)
  | list (items : List Node)
  | map (entries : List (Node × Node))
  | labelled (label : Nat) (part : Node)
  | alias (label : Nat)

namespace Node

def plain (text : String) : Node := .scalar none .plain text

def quoted (text : String) : Node := .scalar none .quoted text

def omitted : Node := plain ""

instance : Inhabited Node := ⟨omitted⟩

mutual

def find? (label : Nat) : Node → Option Node
  | .scalar _ _ _ | .alias _ => none
  | .list items => findIn? label items
  | .map entries => findInEntries? label entries
  | .labelled own part =>
    find? label part <|> if own = label then some part else none

def findIn? (label : Nat) : List Node → Option Node
  | [] => none
  | part :: rest => findIn? label rest <|> find? label part

def findInEntries? (label : Nat) : List (Node × Node) → Option Node
  | [] => none
  | (key, value) :: rest => findInEntries? label rest <|> find? label value <|> find? label key

end

def standsFor (root : Node) : Node → Node
  | .alias label => (root.find? label).getD omitted
  | .labelled _ part => part
  | node => node

end Node

end Mvcc.Document

import Mvcc.Clock.Mark
import Mvcc.Text.Utf8

/-!
# Files and directories

A path leads from the working directory or from the root through directories to a file or directory.
The steps `.` and `..` apply in directories.
-/

namespace Mvcc

/-- The names of directories on the way to a place, the last one first. The root has an empty name;
a way without it begins in the working directory. -/
abbrev Place := List String

namespace Place

def up : String := ".."

def step (place : Place) (name : String) : Place :=
  if name = "" ∨ name = "." then place
  else if name ≠ up then name :: place
  else match place with
    | [] => [up]
    | last :: rest => if last = "" then place else if last = up then up :: place else rest

def above : Place → List Place
  | [] => []
  | _ :: rest => rest :: above rest

/-- Whether there is a directory for certain: the working directory, the root, or one above. -/
def isGiven (place : Place) : Bool := place = [""] || place.all (· = up)

def nameLimit : Nat := 255

def pathLimit : Nat := 4096

def isName (name : String) : Bool := Text.utf8Length name ≤ nameLimit

def isPath (path : String) : Bool := Text.utf8Length path < pathLimit && '\x00' ∉ path.toList

end Place

structure FileTree where
  files : List (Place × Bytes)
  directories : List Place

namespace FileTree

def empty : FileTree := ⟨[], []⟩

def below (directory name : String) : String :=
  if directory = "" || directory.endsWith "/" then directory ++ name
  else directory ++ "/" ++ name

def look (tree : FileTree) (place : Place) : FileContent :=
  match tree.files.lookup place with
  | some raw => .bytes raw
  | none => if place.isGiven || tree.directories.contains place then .directory else .absent

def namesIn (path : String) : Place × List String :=
  let names := path.splitOn "/"
  if names.head? = some "" && 1 < names.length then ([""], names.tail) else ([], names)

def follow (tree : FileTree) (place : Place) : List String → FileContent × Place
  | [] => (tree.look place, place)
  | name :: rest =>
    match tree.look place with
    | .directory =>
      if Place.isName name then tree.follow (place.step name) rest else (.notDirectory, place)
    | .absent => (.noDirectory, place)
    | _ => (.notDirectory, place)

def find (tree : FileTree) (path : String) : FileContent :=
  if path = "" then .absent
  else if !Place.isPath path then .notDirectory
  else
    let (start, names) := namesIn path
    (tree.follow start names).1

/-- Make the directories that names lead to, where they are missing. There has to be no file in
their way. -/
def makeAlong (tree : FileTree) (place : Place) : List String → Option FileTree
  | [] => some tree
  | name :: rest =>
    if !Place.isName name then none
    else
      let next := place.step name
      match tree.look next with
      | .directory => tree.makeAlong next rest
      | .absent => makeAlong { tree with directories := next :: tree.directories } next rest
      | _ => none

def makeDirectory (tree : FileTree) (path : String) : Option FileTree :=
  let (start, names) := namesIn path
  if Place.isPath path then tree.makeAlong start names else none

def place (tree : FileTree) (path : String) (content : FileContent) : FileTree :=
  let (start, names) := namesIn path
  let way : Place := names.foldl Place.step start
  match content with
  | .bytes raw =>
    { tree with files := (way, raw) :: tree.files, directories := way.above ++ tree.directories }
  | .directory => { tree with directories := way :: (way.above ++ tree.directories) }
  | _ => tree

/-- What every machine has: a file that is always empty. -/
def bare : FileTree := empty.place "/dev/null" (.bytes [])

end FileTree

end Mvcc

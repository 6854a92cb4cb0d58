import Mvcc.Service.CommandLine

/-!
# The program

The command line of the service. The files that a command needs are read before it runs. The program
has no sockets: it checks settings and probes, but reaches no server and cannot serve.
-/

namespace Mvcc

def contentAt (path : String) : IO FileContent := do
  try
    pure (.bytes (← IO.FS.readBinFile path).data.toList)
  catch
    | .noFileOrDirectory .. => pure .absent
    | _ => pure .directory

def withPath (tree : FileTree) (path : String) : IO FileTree := do
  pure (tree.place path (← contentAt path))

/-- The files that a command may read: its settings, and the mark that those name. -/
def filesOf (config : Option String) : IO FileTree := do
  let tree ← config.elim (pure .empty) (withPath .empty)
  match CommandLine.settings ⟨tree, .unreachable, 0⟩ config with
  | .error _ => pure tree
  | .ok s => withPath tree s.oracle.markPath

def surroundingsOf : Invocation → IO CommandLine.Surroundings
  | .run config _ => do
    let files ← filesOf config
    let now ← IO.monoMsNow
    pure ⟨files, .unreachable, UInt64.ofNat now⟩
  | _ => pure ⟨.empty, .unreachable, 0⟩

def report : CommandLine.Outcome → IO UInt32
  | .ended code printed => do
    IO.print printed
    pure (UInt32.ofNat code)
  | .serving _ => do
    IO.eprintln "no sockets to serve on"
    pure 1

end Mvcc

def main (words : List String) : IO UInt32 := do
  let invocation := Mvcc.Invocation.parse words
  Mvcc.report (Mvcc.CommandLine.run (← Mvcc.surroundingsOf invocation) invocation)

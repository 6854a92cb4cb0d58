import Mvcc.Service.Environment
import Mvcc.Service.FileTree
import Mvcc.Service.Invocation
import Mvcc.Service.Metrics
import Mvcc.Service.Network
import Mvcc.Service.SettingsDocument

/-!
# The command line

The outcome of an invocation is its output and an exit code: two for a malformed command line, one
for a failed command.
-/

namespace Mvcc.CommandLine

def programName : String := "stratumd"

def version : String := "0.1.0"

structure Surroundings where
  files : FileTree
  network : Network
  now : UInt64

inductive Outcome where
  | ended (code : Nat) (printed : String)
  /-- The program serves clients until it is interrupted. -/
  | serving (environment : Environment)

def failed : Outcome := .ended 1 ""

def printed (lines : List String) : String := String.join (lines.map (· ++ "\n"))

def settings (surroundings : Surroundings) : Option String → Except DocumentFault ServiceSettings
  | none => .ok .standard
  | some path =>
    ServiceSettings.ofFile <| match surroundings.files.find path with
      | .bytes raw => some raw
      | _ => none

def startService (files : FileTree) (now : UInt64) (s : ServiceSettings) :
    Except StartFault Environment :=
  let path := s.oracle.markPath
  Environment.start s (.file ⟨path, files.find path⟩) now

/-- The exit code of a program whose log cannot be written. -/
def brokenLog : Nat := 101

/-- The form of a log file's name, which ends in the hour in which the file begins. -/
def logName : String := "stratum.log.YYYY-MM-DD-HH"

/-- The files once a log file is open in a directory, which is made where it is missing. -/
def openLog (files : FileTree) (directory : String) : Option FileTree :=
  if Place.isPath (FileTree.below directory logName) then files.makeDirectory directory else none

/-- Export metrics and start the service, and then listen for clients. -/
def startServing (surroundings : Surroundings) (files : FileTree) (s : ServiceSettings)
    (address : String) : Option Environment := do
  let network ← match s.metricsListen with
    | none => some surroundings.network
    | some exported => (Exporter.listen surroundings.network exported).toOption
  let environment ← (startService files surroundings.now s).toOption
  let _ ← (Network.locate address >>= network.listen).toOption
  some environment

/-- Serve clients. The log is opened first. -/
def serve (surroundings : Surroundings) (s : ServiceSettings) (address : Option String) :
    Outcome :=
  match s.log.dir.elim (some surroundings.files) (openLog surroundings.files) with
  | none => .ended brokenLog ""
  | some files =>
    (startServing surroundings files s (address.getD s.listen)).elim failed .serving

/-- Request timestamps from a server. Those received are printed even if a later request fails. -/
def nextTimestamps (network : Network) (address : String) (count : Nat) : Outcome :=
  match network.dial address with
  | .error _ => failed
  | .ok oracle =>
    let (times, failure) := Network.fetch count oracle
    .ended (if failure.isSome then 1 else 0) (printed (times.map fun time => s!"{time}"))

def probe (network : Network) (address : String) : Outcome :=
  match network.probe address with
  | .ok time => .ended 0 (printed [s!"OK {time}"])
  | .error e => .ended 1 (printed ["FAILED: " ++ e.message])

def run (surroundings : Surroundings) : Invocation → Outcome
  | .misuse => .ended 2 ""
  | .help => .ended 0 ""
  | .version => .ended 0 (printed [programName ++ " " ++ version])
  | .run config command =>
    match settings surroundings config with
    | .error _ => failed
    | .ok s =>
      match command with
      | .serve listen => serve surroundings s listen
      | .nextTimestamps address count => nextTimestamps surroundings.network address count
      | .healthCheck none => .ended 0 (printed ["OK"])
      | .healthCheck (some address) => probe surroundings.network address

end Mvcc.CommandLine

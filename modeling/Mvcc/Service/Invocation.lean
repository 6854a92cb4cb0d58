import Mvcc.Service.LogLevel
import Mvcc.Service.Settings

/-!
# Invocations

A command, its options and a settings file. Options are given as `--name value` or `--name=value`,
each at most once. A value after an equals sign is checked at once, a separate one when the next
option is read or the words are exhausted. Help and the version end the reading, unless there was an
error before.
-/

namespace Mvcc

inductive Command where
  | serve (listen : Option String)
  | nextTimestamps (address : String) (count : Nat)
  /-- Validate the settings, or probe the given server. -/
  | healthCheck (address : Option String)
  deriving DecidableEq, Repr

inductive Invocation where
  | run (config : Option String) (command : Command)
  | version
  | help
  | misuse
  deriving DecidableEq, Repr

namespace Invocation

inductive Word where
  | assigned (name value : String)
  | option (name : String)
  | terminator
  | letter (name : Char)
  | plain (text : String)
  deriving DecidableEq, Repr

def Word.ofText (text : String) : Word :=
  match text.toList with
  | ['-', '-'] => .terminator
  | '-' :: '-' :: name =>
    if '=' ∈ name then
      .assigned (String.ofList (name.takeWhile (· ≠ '=')))
        (String.ofList ((name.dropWhile (· ≠ '=')).drop 1))
    else .option (String.ofList name)
  | '-' :: c :: _ => .letter c
  | _ => .plain text

/-- A number of timestamps: digits after a sign or none, which may be a minus sign before zero. -/
def count? (text : String) : Option Nat := do
  let (isNegative, digits) := match text.toList with
    | '-' :: digits => (true, digits)
    | '+' :: digits => (false, digits)
    | digits => (false, digits)
  guard (!digits.isEmpty && digits.all Char.isDigit)
  let value := digits.foldl (fun value c => 10 * value + (c.toNat - '0'.toNat)) 0
  guard (value < UInt32.size && !(isNegative && value ≠ 0))
  pure value

def takes (name value : String) : Bool :=
  if name = "config" then value ≠ ""
  else if name = "count" then (count? value).isSome
  else true

structure Given where
  options : List (String × String)
  /-- An option not yet checked, with its value where one was given. -/
  waiting : Option (String × Option String)
  deriving DecidableEq, Repr

namespace Given

def none : Given := ⟨[], .none⟩

/-- Add an option. It has to take the value, and to be the first of its name. -/
def add? (given : Given) (name value : String) : Option Given :=
  if takes name value && (given.options.lookup name).isNone then
    some { given with options := given.options ++ [(name, value)] }
  else .none

def settle? (given : Given) : Option Given :=
  match given.waiting with
  | .none => some given
  | some (_, .none) => .none
  | some (name, some value) => (Given.mk given.options .none).add? name value

def await (given : Given) (name : String) : Given := { given with waiting := some (name, .none) }

def isAwaiting (given : Given) : Bool := given.waiting.any (·.2.isNone)

def supply (given : Given) (value : String) : Given :=
  { given with waiting := given.waiting.map fun option => (option.1, some value) }

/-- Where the reading ends early, provided that nothing was wrong so far. -/
def ending (given : Given) (invocation : Invocation) : Invocation :=
  if given.settle?.isSome then invocation else .misuse

end Given

/-- What reading options gives: the options, and the words from the first one on that is none; or
why reading ended early. -/
inductive Scan where
  | found (given : Given) (rest : List String)
  | early (invocation : Invocation)
  deriving DecidableEq, Repr

def scan (names : List String) (hasVersion : Bool) (given : Given) : List String → Scan
  | [] => .found given []
  | word :: rest =>
    match Word.ofText word with
    | .plain text =>
      if given.isAwaiting then scan names hasVersion (given.supply text) rest
      else .found given (word :: rest)
    | .terminator => if rest.isEmpty then .found given [] else .early .misuse
    | .letter c =>
      if c = 'h' then .early (given.ending .help)
      else if c = 'V' && hasVersion then .early (given.ending .version)
      else .early .misuse
    | .assigned name value =>
      match given.settle?.bind (·.add? name value) with
      | some given =>
        if name ∈ names then scan names hasVersion given rest else .early .misuse
      | none => .early .misuse
    | .option name =>
      if name = "help" then .early (given.ending .help)
      else if name = "version" && hasVersion then .early (given.ending .version)
      else match given.settle? with
      | some given =>
        if name ∈ names then scan names hasVersion (given.await name) rest else .early .misuse
      | none => .early .misuse

def standardAddress : String := ServiceSettings.standardAddress

def helpName : String := "help"

def optionsOf : String → Option (List String)
  | "serve" => some ["listen"]
  | "next-ts" => some ["addr", "count"]
  | "health-check" => some ["addr"]
  | _ => none

def command? (name : String) (options : List (String × String)) : Option Command :=
  match name with
  | "serve" => some (.serve (options.lookup "listen"))
  | "next-ts" => do
    let address := (options.lookup "addr").getD standardAddress
    let count ← match options.lookup "count" with
      | none => some 1
      | some text => count? text
    some (.nextTimestamps address count)
  | "health-check" => some (.healthCheck (options.lookup "addr"))
  | _ => none

/-- The invocation of a command; `before` are the options given before its name. -/
def invoke (name : String) (before given : Given) : Invocation :=
  match before.settle?, given.settle? with
  | some before, some given =>
    let config := given.options.lookup "config" <|> before.options.lookup "config"
    match command? name given.options with
    | some command => .run config command
    | none => .misuse
  | _, _ => .misuse

def helpOn : List String → Invocation
  | [] => .help
  | [name] => if name = helpName || (optionsOf name).isSome then .help else .misuse
  | _ => .misuse

def parse (words : List String) : Invocation :=
  match scan ["config"] true .none words with
  | .early invocation => invocation
  | .found _ [] => .misuse
  | .found before (name :: rest) =>
    if name = helpName then helpOn rest
    else match optionsOf name with
      | none => .misuse
      | some names =>
        match scan ("config" :: names) false .none rest with
        | .early invocation => invocation
        | .found given [] => invoke name before given
        | .found _ (_ :: _) => .misuse

end Invocation

end Mvcc

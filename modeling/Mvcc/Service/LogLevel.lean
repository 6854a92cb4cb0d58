import Mvcc.Text.Blank
import Mvcc.Text.Quoted

/-!
# Log levels

A level is given by its name in any case or by its number, with blanks around it.
-/

namespace Mvcc

inductive LogLevel where
  | error
  | warn
  | info
  | debug
  | trace
  deriving DecidableEq, Repr

namespace LogLevel

def all : List LogLevel := [.error, .warn, .info, .debug, .trace]

def name : LogLevel → String
  | .error => "ERROR"
  | .warn => "WARN"
  | .info => "INFO"
  | .debug => "DEBUG"
  | .trace => "TRACE"

/-- The value of ASCII digits, of which there has to be at least one; a sign may stand before. -/
def number? (text : List Char) : Option Nat :=
  let digits := match text with
    | '+' :: rest => rest
    | text => text
  if digits.isEmpty || !digits.all Char.isDigit then none
  else some (digits.foldl (fun value c => 10 * value + (c.toNat - '0'.toNat)) 0)

def ofWord? (word : String) : Option LogLevel :=
  match number? word.toList with
  | some value => if value = 0 then none else all[value - 1]?
  | none => all.find? fun level => level.name.toList = word.toList.map Char.toUpper

def parse? (text : String) : Option LogLevel := ofWord? (Text.trimBlanks text)

def refusal (text : String) : String := "invalid log level " ++ Text.quoted text

end LogLevel

end Mvcc

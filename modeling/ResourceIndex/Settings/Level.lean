import ResourceIndex.Number.Literal
import ResourceIndex.Text.Lowercase
/-
How much is logged. Settings are checked with a strict reading of the level; what is used is a
lenient reading, in which a text that names no level stands for the middle one.
-/
namespace ResourceIndex

inductive LogLevel where
  | error | warn | info | debug | trace
deriving DecidableEq, Repr, Inhabited

namespace LogLevel

/-- The levels from the least to the most that is logged. -/
def all : List LogLevel := [error, warn, info, debug, trace]

def name : LogLevel → String
  | error => "error"
  | warn => "warn"
  | info => "info"
  | debug => "debug"
  | trace => "trace"

def label : LogLevel → String
  | error => "ERROR"
  | warn => "WARN"
  | info => "INFO"
  | debug => "DEBUG"
  | trace => "TRACE"

/-- The level that a text stands for strictly: its place from one to five, or its name. -/
def read? (s : List Char) : Option LogLevel :=
  match (Text.word? s).bind fun n => if n = 0 then none else all[n - 1]? with
  | some level => some level
  | none => all.find? fun level => Text.sameAscii level.name.toList s

def ofText (s : List Char) : LogLevel :=
  (all.find? fun level => level.name.toList == Text.lower s).getD info

end LogLevel

end ResourceIndex

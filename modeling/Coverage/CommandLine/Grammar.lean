import Coverage.Merge

/-!
What a command line may hold: options with and without values, words that stand for themselves, and
the names of commands. What a grammar does not allow has a reason, `Usage`; to ask for help is one too.
-/
namespace Coverage.CommandLine

/-- Why a command line names nothing to be done. -/
inductive Usage where
  | help
  | version
  /-- Nothing was given at all. -/
  | helpForNothing
  | missingCommand
  | unknownCommand
  | unknownArgument
  /-- What may be given once was given again. -/
  | repeatedArgument
  | superfluousValue
  /-- A value that is missing or not among those allowed. -/
  | invalidValue
  /-- A value that cannot be read. -/
  | unreadableValue
  | missingArgument
  deriving DecidableEq

inductive LogLevel where
  | off
  | error
  | warn
  | info
  | debug
  | trace
  deriving DecidableEq

namespace LogLevel

def name : LogLevel → String
  | off => "OFF"
  | error => "ERROR"
  | warn => "WARN"
  | info => "INFO"
  | debug => "DEBUG"
  | trace => "TRACE"

def all : List LogLevel := [off, error, warn, info, debug, trace]

/-- Small letters and capitals name the same level. -/
def ofName? (s : String) : Option LogLevel :=
  all.find? fun l => l.name.toList == s.toList.map Char.toUpper

end LogLevel

inductive ValueKind where
  | text
  | path
  | strategy
  | level
  deriving DecidableEq

/-- A path is never empty; names have to be known. -/
def ValueKind.check : ValueKind → String → Except Usage Unit
  | text, _ => .ok ()
  | path, s => if s.isEmpty then .error .invalidValue else .ok ()
  | strategy, s => if (Strategy.ofName? s).isSome then .ok () else .error .invalidValue
  | level, s => if (LogLevel.ofName? s).isSome then .ok () else .error .unreadableValue

/-- What happens when an argument is met. -/
inductive Role where
  | stop (u : Usage)
  | flag
  | once (kind : ValueKind)
  /-- Each time with one value. -/
  | each (kind : ValueKind)
  deriving DecidableEq

namespace Role

/-- The kind of its values, if it takes any. -/
def kind? : Role → Option ValueKind
  | stop _ | flag => none
  | once k | each k => some k

def mayRepeat : Role → Bool
  | each _ => true
  | _ => false

end Role

/-- An argument with the name under which its values are kept; an option is called by that name. -/
structure Argument where
  name : String
  short : Option Char := none
  role : Role
  deriving DecidableEq

structure Grammar where
  options : List Argument
  /-- What words that are no options are values of. -/
  words : Option Argument := none
  commands : List String := []
  required : List String := []

namespace Grammar

def long? (g : Grammar) (name : String) : Option Argument := g.options.find? (·.name == name)
def short? (g : Grammar) (c : Char) : Option Argument := g.options.find? (·.short == some c)

end Grammar
end Coverage.CommandLine

import Coverage.CommandLine.Reading
import Coverage.Files.Path

/-!
The commands with their options, and what a command line asks for.
-/
namespace Coverage.CommandLine

/-- Coverage files, or folders that hold them, merged into one. -/
structure MergeOptions where
  inputs : List Path
  strategy : Strategy := .max
  output : Path := "coverage-merged.json"
  included : List String := []
  excluded : List String := []
  /-- The name of the files wanted from a folder. -/
  pattern : String := "coverage-final.json"
  deriving DecidableEq

/-- Coverage merged onto a base. -/
structure BaseOptions where
  base : Path
  additional : Path
  output : Path := "coverage-merged.json"
  deriving DecidableEq

/-- The artifacts of bundlers and transpilers removed from a coverage file. -/
structure FixupOptions where
  input : Path
  /-- By default the input itself. -/
  output : Option Path := none
  backfill : Bool := false
  sourceRoot : Option Path := none
  deriving DecidableEq

inductive Command where
  | merge (o : MergeOptions)
  | mergeBase (o : BaseOptions)
  | fixup (o : FixupOptions)
  deriving DecidableEq

structure Invocation where
  logLevel : LogLevel
  command : Command
  deriving DecidableEq

/-- Options of every command, and before it. -/
def commonOptions : List Argument :=
  [{ name := "log-level", role := .once .level },
    { name := "help", short := some 'h', role := .stop .help }]

def outputOption : Argument := { name := "output", short := some 'o', role := .once .path }

def commandNames : List String := ["merge", "merge-base", "fixup", "help"]

def topGrammar : Grammar where
  options := { name := "version", short := some 'V', role := .stop .version } :: commonOptions
  commands := commandNames

def mergeGrammar : Grammar where
  options := commonOptions ++ [outputOption,
    { name := "strategy", short := some 's', role := .once .strategy },
    { name := "include", short := some 'i', role := .each .text },
    { name := "exclude", short := some 'e', role := .each .text },
    { name := "pattern", short := some 'p', role := .once .text }]
  words := some { name := "inputs", role := .each .path }
  required := ["inputs"]

def baseGrammar : Grammar where
  options := commonOptions ++ [outputOption,
    { name := "base", short := some 'b', role := .once .path },
    { name := "additional", short := some 'a', role := .once .path }]
  required := ["base", "additional"]

def fixupGrammar : Grammar where
  options := commonOptions ++ [outputOption,
    { name := "backfill", role := .flag },
    { name := "source-root", role := .once .path }]
  words := some { name := "input", role := .once .path }
  required := ["input"]

namespace Command

def ofMerge (f : Found) : Command :=
  let o : MergeOptions := { inputs := f.values "inputs" }
  .merge { o with
    strategy := ((f.value? "strategy").bind Strategy.ofName?).getD o.strategy
    output := (f.value? "output").getD o.output
    included := f.values "include", excluded := f.values "exclude"
    pattern := (f.value? "pattern").getD o.pattern }

def ofMergeBase (f : Found) : Command :=
  let o : BaseOptions :=
    { base := (f.value? "base").getD "", additional := (f.value? "additional").getD "" }
  .mergeBase { o with output := (f.value? "output").getD o.output }

def ofFixup (f : Found) : Command :=
  .fixup {
    input := (f.value? "input").getD "", output := f.value? "output"
    backfill := f.has "backfill", sourceRoot := f.value? "source-root" }

end Command

/-- The words behind a command, read by its grammar. -/
def readCommand (g : Grammar) (l : List String) : Except Usage Found := do
  (← Reading.words g {} l).1.finish g

/-- Help for a command, as long as each word names one; only the top has any. -/
def helpFor : List String → Usage
  | [] => .help
  | [name] => if commandNames.contains name then .help else .unknownCommand
  | _ => .unknownCommand

/-- A command with what was found behind its name. -/
def commandOf (name : String) (l : List String) : Except Usage (Command × Found) := do
  if name == "merge" then
    let f ← readCommand mergeGrammar l
    return (.ofMerge f, f)
  else if name == "merge-base" then
    let f ← readCommand baseGrammar l
    return (.ofMergeBase f, f)
  else if name == "fixup" then
    let f ← readCommand fixupGrammar l
    return (.ofFixup f, f)
  else throw (helpFor l)

/-- The level given last, that behind the command before that in front of it. -/
def levelOf (top behind : Found) : LogLevel :=
  let level? (f : Found) := (f.value? "log-level").bind LogLevel.ofName?
  (level? behind <|> level? top).getD .info

/-- The command is read to its end before the options in front of it are checked. -/
def Invocation.ofWords (l : List String) : Except Usage Invocation := do
  let (r, rest) ← Reading.words topGrammar {} l
  match rest with
  | some (name, l) =>
    let (c, behind) ← commandOf name l
    let top ← r.finish topGrammar
    return ⟨levelOf top behind, c⟩
  | none =>
    let top ← r.finish topGrammar
    throw (if top.isEmpty then .helpForNothing else .missingCommand)

end Coverage.CommandLine

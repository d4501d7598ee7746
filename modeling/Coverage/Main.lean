import Coverage.CommandLine.Run

/-!
The program: words in, files read and written, lines and an exit code out.
-/
namespace Coverage.CommandLine

def answerTo {α : Type} (action : IO α) : IO (Option α) := do
  try return some (← action) catch _ => return none

/-- A path that goes on with a dot leads somewhere only from a folder. -/
def kindOnDisk? (p : Path) : IO (Option EntryKind) := do
  if p.isEmpty then return none
  if (← answerTo (IO.FS.realPath (Path.join p "."))).isSome then return some .folder
  return (← answerTo (IO.FS.realPath p)).map fun _ => .file

partial def filesOnDisk (p : Path) : IO (List (List String)) := do
  let entries ← answerTo do (← IO.FS.realPath p).readDir
  let names := (entries.getD #[]).toList.map (·.fileName)
  let below ← names.mapM fun name => do
    match ← kindOnDisk? (Path.join p name) with
    | some .file => return [[name]]
    | some .folder => return (← filesOnDisk (Path.join p name)).map (name :: ·)
    | none => return []
  return below.flatten

instance : Storage IO where
  kind? := kindOnDisk?
  readText? p := answerTo (IO.FS.readFile p)
  filesBelow := filesOnDisk
  makeFolders p := return (← answerTo (IO.FS.createDirAll p)).isSome
  writeText p s := return (← answerTo (IO.FS.writeFile p s)).isSome

def Usage.message : Usage → String
  | help | helpForNothing => "Commands: merge, merge-base, fixup"
  | version => "Coverage 0.1.0"
  | missingCommand => "a command is missing"
  | unknownCommand => "there is no such command"
  | unknownArgument => "an argument is not known"
  | repeatedArgument => "an argument is given more than once"
  | superfluousValue => "an argument takes no value"
  | invalidValue => "a value is missing or not allowed"
  | unreadableValue => "a value cannot be read"
  | missingArgument => "an argument is missing"

/-- What was asked for goes to the output; what is wrong is an error. -/
def Usage.exit (u : Usage) : IO UInt32 := do
  if u = .help ∨ u = .version then
    IO.println u.message
    return 0
  IO.eprintln u.message
  return 2

def Outcome.exit (o : Outcome) : IO UInt32 := do
  IO.print o.text
  match o.result with
  | .ok () => return 0
  | .error e =>
    IO.eprintln e.message
    return 1

def execute (l : List String) : IO UInt32 := do
  match Invocation.ofWords l with
  | .error u => u.exit
  | .ok i => (← i.command.run).exit

end Coverage.CommandLine

def main (l : List String) : IO UInt32 := Coverage.CommandLine.execute l

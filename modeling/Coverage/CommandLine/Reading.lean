import Coverage.CommandLine.Grammar
import Coverage.Text.Bytes

/-!
Reading the words of a command line by a grammar. The values of an argument are kept back until the
next argument is met; only then are they counted and checked.
-/
namespace Coverage.CommandLine

/-- The values of each argument met, in order. A flag has the value `true`. -/
abbrev Found := List (String × String)

namespace Found

def values (f : Found) (name : String) : List String := (f.filter (·.1 == name)).map (·.2)
def value? (f : Found) (name : String) : Option String := (f.values name).getLast?
def has (f : Found) (name : String) : Bool := f.any (·.1 == name)

end Found

/-- How far a command line has been read. -/
structure Reading where
  found : Found := []
  /-- The argument met last, with its values so far. -/
  pending : Option (Argument × List String) := none
  /-- Whether the next word is a value of that argument. -/
  awaits : Bool := false
  /-- Whether all options are behind, by the word `--`. -/
  onlyWords : Bool := false

namespace Reading

/-- An argument is counted, and then its values are checked one by one. -/
def accept (r : Reading) (a : Argument) (values : List String) : Except Usage Reading := do
  if a.role.kind?.isSome && values.isEmpty then throw .invalidValue
  if !a.role.mayRepeat && r.found.has a.name then throw .repeatedArgument
  if let some k := a.role.kind? then values.forM k.check
  return { r with found := r.found ++ values.map (a.name, ·) }

def resolve (r : Reading) : Except Usage Reading :=
  match r.pending with
  | none => .ok r
  | some (a, values) => { r with pending := none }.accept a values

/-- An argument without values of its own. -/
def meet (r : Reading) (a : Argument) : Except Usage Reading := do
  let r ← r.resolve
  match a.role with
  | .stop u => throw u
  | _ => return { ← r.accept a ["true"] with awaits := false }

/-- An argument with the value attached to it, or else with the next word. -/
def meetValue (r : Reading) (a : Argument) (attached : Option String) : Except Usage Reading := do
  let r ← r.resolve
  match attached with
  | some v => return { ← r.accept a [v] with awaits := false }
  | none => return { r with pending := some (a, []), awaits := true }

/-- An option behind two hyphens, with its value behind an equals sign. -/
def long (g : Grammar) (r : Reading) (body : Text) : Except Usage Reading :=
  let name := String.ofList (body.takeWhile (· != '='))
  let attached := match body.dropWhile (· != '=') with
    | _ :: v => some (String.ofList v)
    | [] => none
  match g.long? name with
  | none => .error .unknownArgument
  | some a =>
    if a.role.kind?.isSome then r.meetValue a attached
    else if attached.isSome then .error .superfluousValue
    else r.meet a

/-- What stands behind an option that takes a value, with or without an equals sign. -/
def attachedTo : Text → Option String
  | [] => none
  | '=' :: v | v => some (String.ofList v)

/-- Options behind one hyphen, each a single character. -/
def shorts (g : Grammar) (r : Reading) : Text → Except Usage Reading
  | [] => .ok r
  | c :: rest =>
    match g.short? c with
    | none => .error .unknownArgument
    | some a =>
      if a.role.kind?.isSome then r.meetValue a (attachedTo rest)
      else do shorts g (← r.meet a) rest

/-- A word that nothing allows. A command may only stand before the word `--`. -/
def refusal (g : Grammar) (r : Reading) (w : String) : Usage :=
  if g.commands.isEmpty || r.onlyWords && g.commands.contains w then .unknownArgument
  else .unknownCommand

/-- Whether one more word would be too many. -/
def isFull (r : Reading) (a : Argument) : Bool :=
  !a.role.mayRepeat &&
  (r.found.has a.name || r.pending.any fun p => p.1.name == a.name)

/-- A word that stands for itself. -/
def word (g : Grammar) (r : Reading) (w : String) : Except Usage Reading :=
  match g.words with
  | none => .error (r.refusal g w)
  | some a =>
    if r.isFull a then .error (r.refusal g w)
    else
      match r.pending with
      | some (b, values) =>
        if b.name == a.name then .ok { r with pending := some (a, values ++ [w]) }
        else do return { ← r.resolve with pending := some (a, [w]), awaits := false }
      | none => .ok { r with pending := some (a, [w]), awaits := false }

/-- The value that the argument met last has been waiting for. -/
def value (r : Reading) (w : String) : Reading :=
  { r with pending := r.pending.map fun p => (p.1, p.2 ++ [w]), awaits := false }

/-- One word that names no command. A hyphen alone is no option. -/
def step (g : Grammar) (r : Reading) (w : String) : Except Usage Reading :=
  if r.onlyWords then r.word g w
  else
    match w.toList with
    | ['-', '-'] => .ok { r with onlyWords := true }
    | '-' :: '-' :: body => r.long g body
    | '-' :: c :: body => r.shorts g (c :: body)
    | _ => if r.awaits then .ok (r.value w) else r.word g w

/-- Whether a word is the name of a command here. -/
def isCommand (g : Grammar) (r : Reading) (w : String) : Bool :=
  !r.onlyWords && !r.awaits && g.commands.contains w

/-- All words, or those before a command; with it come the words behind it. -/
def words (g : Grammar) (r : Reading) :
    List String → Except Usage (Reading × Option (String × List String))
  | [] => .ok (r, none)
  | w :: rest => do
    if r.isCommand g w then return (r, some (w, rest))
    words g (← r.step g w) rest

/-- What has been found in the end, unless something required is missing. -/
def finish (g : Grammar) (r : Reading) : Except Usage Found := do
  let r ← r.resolve
  if g.required.all r.found.has then return r.found else throw .missingArgument

end Reading
end Coverage.CommandLine

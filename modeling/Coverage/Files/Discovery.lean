import Coverage.Failure
import Coverage.Files.Storage
import Coverage.Selection

/-!
The coverage files that some inputs stand for. A file stands for itself, a folder for the files below
it whose name matches a pattern, in order of the names that lead to them.
-/
namespace Coverage.Discovery

variable {m : Type → Type} [Monad m] [Storage m]

/-- Whether a file found below a folder is wanted, by its own name. -/
def isWanted (pattern : String) (names : List String) : Bool :=
  Pattern.matchesText pattern.toList (names.getLastD "").toList

/-- Names compare one by one, so a folder's files stay together. -/
def precedes : List String → List String → Bool
  | [], _ => true
  | _ :: _, [] => false
  | a :: r, b :: s =>
    match compare a b with
    | .lt => true
    | .eq => precedes r s
    | .gt => false

def ordered (l : List (List String)) : List (List String) := l.mergeSort precedes

def below (pattern : String) (input : Path) (found : List (List String)) : List Path :=
  (ordered (found.filter (isWanted pattern))).map fun names => Path.join input (Path.ofNames names)

def expand (pattern : String) (input : Path) : m (Except Failure (List Path)) := do
  match ← Storage.kind? input with
  | some .file => return .ok [input]
  | some .folder => return .ok (below pattern input (← Storage.filesBelow input))
  | none => return .error (.missingInput input)

def expandAll (pattern : String) : List Path → m (Except Failure (List Path))
  | [] => return .ok []
  | input :: r => do
    match ← expand pattern input with
    | .error e => return .error e
    | .ok l => return (← expandAll pattern r).map (l ++ ·)

/-- The files of all inputs in order; a missing input is a failure, and so is finding nothing. -/
def discover (inputs : List Path) (pattern : String) : m (Except Failure (List Path)) := do
  match ← expandAll pattern inputs with
  | .ok [] => return .error (.noMatch pattern)
  | r => return r

end Coverage.Discovery

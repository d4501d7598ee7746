import Coverage.FileCoverage
import Coverage.Text.Bytes

/-!
Choosing files by patterns. A star stands for any text and a question mark for one character. A
pattern with a slash is about the whole name of a file and one without about the part behind the
last slash.
-/
namespace Coverage

namespace Pattern

/-- For each suffix of a text, itself first, whether a pattern matches it; from the row of the rest of
the pattern. -/
def row (c : Char) (rest : List Bool) (t : Text) : List Bool :=
  match t, rest with
  | d :: t, here :: rest' =>
    let tail := row c rest' t
    (if c = '*' then here || tail.headD false else (c == '?' || c == d) && rest'.headD false) :: tail
  | _, here :: _ => [c == '*' && here]
  | _, [] => []

/-- The empty pattern matches the empty suffix alone. -/
def lastRow : Text → List Bool
  | [] => [true]
  | _ :: t => false :: lastRow t

def rows (p t : Text) : List Bool := p.foldr (fun c rest => row c rest t) (lastRow t)

def matchesText (p t : Text) : Bool := (rows p t).headD false

def isWild (p : String) : Bool := p.toList.any fun c => c == '*' || c == '?'
def isPath (p : String) : Bool := p.toList.contains '/'

/-- The part of a name behind the last slash. -/
def lastPart (name : String) : Text := (Text.splitAt '/' name.toList).getLastD []

def matchesName (p name : String) : Bool :=
  if isPath p then
    if isWild p then matchesText p.toList name.toList else p == name
  else matchesText p.toList (lastPart name)

end Pattern

namespace Selection

/-- Exact names come first, then parts without and with wildcards, then wild names. -/
def ranked (patterns : List String) : List String :=
  let pick (path wild : Bool) :=
    patterns.filter fun p => Pattern.isPath p == path && Pattern.isWild p == wild
  pick true false ++ pick false false ++ pick false true ++ pick true true

def matched (files : List String) (p : String) : List String :=
  files.filter (Pattern.matchesName p)

/-- The patterns that match no file. -/
def unmatched (files patterns : List String) : List String :=
  (ranked patterns).filter fun p => (matched files p).isEmpty

/-- The files that some pattern matches, ascending and each once. -/
def selected (files patterns : List String) : List String :=
  (SortedMap.ofList (((ranked patterns).flatMap (matched files)).map (·, ()))).keys

/-- Whether a name is in an ascending list from `low` up to `high`, found by halving that part in at
most so many rounds. -/
def within (a : Array String) (name : String) : Nat → (low high : Nat) → high ≤ a.size → Bool
  | 0, _, _, _ => false
  | rounds + 1, low, high, h =>
    if hlt : low < high then
      let middle := (low + high) / 2
      have hmiddle : middle < high := Nat.div_lt_of_lt_mul (by omega)
      match compare a[middle] name with
      | .eq => true
      | .lt => within a name rounds (middle + 1) high h
      | .gt => within a name rounds low middle (by omega)
    else false

/-- The part is shorter after each round, so as many rounds as there are names are enough. -/
def has (a : Array String) (name : String) : Bool := within a name a.size 0 a.size (Nat.le_refl _)

/-- The files that patterns include; without patterns all of them. -/
def wanted (files patterns : List String) : List String :=
  if patterns.isEmpty then files else selected files patterns

def keeps (included excluded : Array String) (name : String) (_ : FileCoverage) : Bool :=
  has included name && !has excluded name

def filter (m : CoverageMap) (included excluded : List String) : CoverageMap :=
  m.filter (keeps (wanted m.paths included).toArray (selected m.paths excluded).toArray)

def unmatchedIn (m : CoverageMap) (included excluded : List String) : List String :=
  unmatched m.paths included ++ unmatched m.paths excluded

end Selection
end Coverage

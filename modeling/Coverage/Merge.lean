import Coverage.Matching

/-!
Coverage of the same files from several sources. The structure of a merged file is that of one source
for each kind of record, its skeleton; the others only raise counts. Sources that are not valid are
left out unless none is.
-/
namespace Coverage

inductive Strategy where
  | max
  | add
  | preferFirst
  | preferLast
  deriving DecidableEq

namespace Strategy

def name : Strategy → String
  | max => "max"
  | add => "add"
  | preferFirst => "prefer-first"
  | preferLast => "prefer-last"

def all : List Strategy := [max, add, preferFirst, preferLast]

def ofName? (s : String) : Option Strategy := all.find? (·.name == s)

def unknownName (s : String) : String := s!"unknown merge strategy '{s}'"

def combine : Strategy → Hits → Hits → Hits
  | add => Hits.add
  | _ => fun a b => if a < b then b else a

/-- Sums must not take a record twice. -/
def exclusive (s : Strategy) : Bool := s == add

end Strategy

/-- Which source supplies the structure of each kind of record. -/
structure Skeletons where
  statements : Nat
  functions : Nat
  branches : Nat
  deriving DecidableEq

def Skeletons.uniform (i : Nat) : Skeletons := ⟨i, i, i⟩

namespace Merge
variable {ρ η ω : Type} [Inhabited η]

/-- The records of the skeleton with counts raised by what they find in another table. -/
def raise (kind : RecordKind ρ η ω) (s : Strategy) (skeleton : Table ρ η) (t other : Table ρ η) :
    Table ρ η :=
  let found := Matching.matchAll kind other s.exclusive (Matching.queries kind skeleton)
  let counts := skeleton.ids.zip found
  { t with hits := t.hits.mapWithKey fun id h =>
      ((counts.lookup id).join.map (kind.combine s.combine h)).getD h }

/-- The table at an index, raised by all others in turn. -/
def table (kind : RecordKind ρ η ω) (s : Strategy) (sources : List (Table ρ η)) (index : Nat) :
    Table ρ η :=
  let skeleton := sources[index]?.getD ∅
  (sources.eraseIdx index).foldl (raise kind s skeleton) skeleton

/-- The index of the greatest number, the last of equals. -/
def lastGreatest (l : List Nat) : Nat :=
  (l.zipIdx.foldl (fun best e => if best.1 ≤ e.1 then e else best) (0, 0)).2

/-- The id of the first statement at the very start of the file: it may be a directive, which some
instrumenters do not record. -/
def directive? (f : FileCoverage) : Option Id :=
  (f.statements.records.entries.find? fun e => e.2.start == .origin).map (·.1)

def ranBesides (f : FileCoverage) (id : Id) : Bool :=
  f.statements.hits.entries.any (fun e => e.1 != id && 0 < e.2) ||
  f.functions.hits.values.any (0 < ·)

/-- A directive counts as run once when another source has nothing on the first line and something
else in the file ran. -/
def countDirective (others : List FileCoverage) (f : FileCoverage) : FileCoverage :=
  match directive? f with
  | none => f
  | some id =>
    if others.any (!·.hasStatementOnLine 1) && ranBesides f id then
      { f with statements.hits := f.statements.hits.modify id fun h => if h = 0 then 1 else h }
    else f

/-- One file from valid sources. -/
def reconcile (path : String) (sources : List FileCoverage) (skeletons : Skeletons) (s : Strategy) :
    FileCoverage :=
  countDirective (sources.eraseIdx skeletons.statements) {
    path
    statements := table .statements s (sources.map (·.statements)) skeletons.statements
    functions := table .functions s (sources.map (·.functions)) skeletons.functions
    branches := table .branches s (sources.map (·.branches)) skeletons.branches }

/-- The richest source of each kind, the first or the last. -/
def skeletons (s : Strategy) (sources : List FileCoverage) : Skeletons :=
  match s with
  | .max | .add =>
    ⟨lastGreatest (sources.map (·.statements.size)), lastGreatest (sources.map (·.functions.size)),
      lastGreatest (sources.map (·.branches.size))⟩
  | .preferFirst => .uniform 0
  | .preferLast => .uniform (sources.length - 1)

/-- One file from all its sources. Without a valid one the first stays as it is, and a single valid
one stays as it is too. -/
def file? (path : String) (sources : List FileCoverage) (s : Strategy) : Option FileCoverage :=
  match sources.filter (·.Valid) with
  | [] => sources.head?
  | [f] => some f
  | valid => some (reconcile path valid (skeletons s valid) s)

def pathsOf (maps : List CoverageMap) : List String :=
  (SortedMap.ofList (maps.flatMap fun m => m.paths.map (·, ()))).keys

/-- All files of several maps; a single map stays as it is. -/
def maps (l : List CoverageMap) (s : Strategy) : CoverageMap :=
  match l with
  | [] => ∅
  | [m] => m
  | _ => .ofList <| (pathsOf l).filterMap fun path =>
    (file? path (l.filterMap (·.get? path)) s).map (path, ·)

end Merge
end Coverage

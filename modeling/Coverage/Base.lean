import Coverage.Merge

/-!
New coverage merged onto a base. A file that both sides have takes its whole structure from one of
them; a file of one side only passes through.
-/
namespace Coverage.Base

/-- Of indices with a weight the one with the least, the last of equals. -/
def lastLeast : List (Nat × Nat) → Option (Nat × Nat)
  | [] => none
  | e :: r =>
    match lastLeast r with
    | none => some e
    | some d => if e.2 < d.2 then some e else some d

/-- The index of the source whose structure is kept: never an empty one if there is another, the last
without a statement at the very start, else the smallest. -/
def skeleton (sources : List FileCoverage) : Nat :=
  let filled := sources.zipIdx.filter fun e => e.1.size != 0
  match (filled.filter fun e => !e.1.hasStatementAt .origin).getLast? with
  | some e => e.2
  | none =>
    match lastLeast (filled.map fun e => (e.2, e.1.size)) with
    | some e => e.1
    | none => sources.length - 1

structure Counts where
  baseFiles : Nat
  additionalFiles : Nat
  baseOnlyFiles : Nat
  mergedFiles : Nat
  newFiles : Nat
  deriving DecidableEq

/-- A file of both sides. If either is not valid, the new one is kept as it is. -/
def file (path : String) (base additional : FileCoverage) : FileCoverage :=
  let sources := [base, additional]
  if base.Valid ∧ additional.Valid then
    Merge.reconcile path sources (.uniform (skeleton sources)) .max
  else additional

def fileOver (base : CoverageMap) (path : String) (additional : FileCoverage) : FileCoverage :=
  ((base.get? path).map fun b => file path b additional).getD additional

def merge (base additional : CoverageMap) : CoverageMap :=
  (additional.mapWithKey (fileOver base)).entries.foldl (fun m e => m.insert e.1 e.2)
    (base.filter fun path _ => !additional.contains path)

def counts (base additional : CoverageMap) : Counts where
  baseFiles := base.size
  additionalFiles := additional.size
  baseOnlyFiles := (base.filter fun path _ => !additional.contains path).size
  mergedFiles := (additional.filter fun path _ => base.contains path).size
  newFiles := (additional.filter fun path _ => !base.contains path).size

end Coverage.Base

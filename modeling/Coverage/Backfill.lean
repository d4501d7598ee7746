import Coverage.Failure
import Coverage.Passes
import Coverage.Syntax.Outline

/-!
Structure of a file from its source text, for files that ran but came without statements. The counts
are estimates: a statement takes that of the innermost function around it, and a branch has none.
-/
namespace Coverage.Backfill
open Syntax

/-- Nothing but hits is known of the file. -/
def isNeeded (f : FileCoverage) : Bool := f.statements.records.isEmpty && f.hasHits

def spanOf (starts : List Nat) (e : Extent) : Span :=
  ⟨Text.locationOf starts e.start, Text.locationOf starts e.stop⟩

def statementSpan? (starts : List Nat) : Mark → Option Span
  | .statement e => some (spanOf starts e)
  | _ => none

def site (starts : List Nat) (whole : Extent) (kind : BranchKind) (arms : List Extent) : BranchSite :=
  let span := spanOf starts whole
  ⟨span, kind, arms.map (spanOf starts), span.start.line⟩

/-- Whether a logical operator of the text stands at an extent. One that is no part of the text, which no
parser gives for it, holds none. -/
def isLogical (t : Text) (operator : Extent) : Bool :=
  ((t.slice? operator.start operator.stop).map Passes.logicalOperators.contains).getD false

/-- Choices and conditional expressions have two arms each; a choice without alternative counts as
its own. Of operators only the logical ones branch. -/
def branch? (t : Text) (starts : List Nat) : Mark → Option BranchSite
  | .statement _ => none
  | .choice e consequence alternative =>
    some (site starts e .ifElse [consequence, alternative.getD e])
  | .conditional e consequence alternative =>
    some (site starts e .conditional [consequence, alternative])
  | .binary e left operator right =>
    if isLogical t operator then some (site starts e .logical [left, right]) else none

/-- Of rows the one whose body starts last, the last of equals. -/
def lastStart? : List (Id × FunctionSite × Hits) → Option (Id × FunctionSite × Hits)
  | [] => none
  | a :: r =>
    match lastStart? r with
    | none => some a
    | some b => if b.2.1.body.start < a.2.1.body.start then some a else some b

/-- The count of the innermost function whose body holds a location. -/
def enclosingHits? (f : FileCoverage) (l : Location) : Option Hits :=
  (lastStart? (f.functions.rows.filter fun row => row.2.1.body.contains l)).bind fun row =>
    f.functions.hits.get? row.1

def statementHits (f : FileCoverage) (l : Location) : Hits :=
  (enclosingHits? f l).getD (if f.hasHits then 1 else 0)

/-- Statements for all marks, and branches if the file has none. -/
def fill (f : FileCoverage) (t : Text) (marks : List Mark) : FileCoverage × Nat :=
  let starts := t.lineStarts
  let statements := marks.filterMap (statementSpan? starts)
  let branches :=
    if f.branches.records.isEmpty then marks.filterMap (branch? t starts) else []
  ({ f with
      statements := f.statements.addAll (statements.map fun s => (s, statementHits f s.start))
      branches := f.branches.addAll (branches.map fun b => (b, b.arms.map fun _ => 0)) },
    statements.length + branches.length)

/-- The file with its structure and how many records were added. -/
def apply [Parser] (f : FileCoverage) (t : Text) : Except Failure (FileCoverage × Nat) :=
  match Parser.outline? (.ofPath f.path) t with
  | none => .error .syntaxError
  | some o => .ok (fill f t o.marks)

end Coverage.Backfill

import Coverage.Position
import Coverage.Table

/-!
Coverage of one source file: statements, functions and branches, each a table of records with
counts. A file is valid when every record has a count and every branch one count for each arm;
`FileCoverage.defect?` finds the first record for which that fails.
-/
namespace Coverage

structure FunctionSite where
  name : String
  declaration : Span
  body : Span
  line : UInt32
  deriving DecidableEq, Inhabited

/-- Unnamed functions have no name or a numbered placeholder. -/
def FunctionSite.isAnonymous (f : FunctionSite) : Bool :=
  f.name.isEmpty || f.name == "anonymous" || "(anonymous".toList.isPrefixOf f.name.toList

inductive BranchKind where
  | ifElse
  | conditional
  | logical
  | switchCase
  | defaultValue
  | other (tag : String)
  deriving DecidableEq

namespace BranchKind

def tag : BranchKind → String
  | ifElse => "if"
  | conditional => "cond-expr"
  | logical => "binary-expr"
  | switchCase => "switch"
  | defaultValue => "default-arg"
  | other t => t

def ofTag (t : String) : BranchKind :=
  if t = "if" then ifElse
  else if t = "cond-expr" then conditional
  else if t = "binary-expr" then logical
  else if t = "switch" then switchCase
  else if t = "default-arg" then defaultValue
  else other t

theorem tag_ofTag (t : String) : (ofTag t).tag = t := by
  unfold ofTag
  repeat' split
  all_goals simp [tag, *]

/-- No tag of its own stands under `other`. -/
def IsCanonical (k : BranchKind) : Prop := ofTag k.tag = k

end BranchKind

structure BranchSite where
  span : Span
  kind : BranchKind
  arms : List Span
  line : UInt32
  deriving DecidableEq

structure FileCoverage where
  path : String
  statements : Table Span Hits
  functions : Table FunctionSite Hits
  branches : Table BranchSite (List Hits)
  deriving DecidableEq, Inhabited

/-- Why the records of a file and its counts do not fit together. -/
inductive Defect where
  | statementWithoutCount (id : Id)
  | functionWithoutCount (id : Id)
  | branchWithoutCounts (id : Id)
  | branchArity (id : Id) (counts arms : Nat)
  deriving DecidableEq

def Defect.message : Defect → String
  | statementWithoutCount id => s!"statement {id} has no count"
  | functionWithoutCount id => s!"function {id} has no count"
  | branchWithoutCounts id => s!"branch {id} has no counts"
  | branchArity id counts arms => s!"branch {id} has {counts} counts for {arms} locations"

namespace FileCoverage
variable (f : FileCoverage)

def empty (path : String) : FileCoverage := ⟨path, ∅, ∅, ∅⟩

def branchDefect? (id : Id) (b : BranchSite) : Option Defect :=
  match f.branches.hits.get? id with
  | none => some (.branchWithoutCounts id)
  | some counts =>
    if counts.length = b.arms.length then none
    else some (.branchArity id counts.length b.arms.length)

/-- Statements come before functions and functions before branches, each by ascending id. -/
def defect? : Option Defect :=
  (f.statements.uncounted?.map .statementWithoutCount) <|>
  (f.functions.uncounted?.map .functionWithoutCount) <|>
  f.branches.records.entries.findSome? fun e => f.branchDefect? e.1 e.2

def Valid : Prop := f.defect? = none

instance : Decidable f.Valid := inferInstanceAs (Decidable (f.defect? = none))

/-- The tables have equal ids and every branch has as many counts as arms. -/
structure Aligned : Prop where
  statements : f.statements.Aligned
  functions : f.functions.Aligned
  branches : f.branches.Aligned
  arity : ∀ id b, f.branches.records.get? id = some b → (f.branches.count id).length = b.arms.length

/-- How many records the file has. -/
def size : Nat := f.statements.size + f.functions.size + f.branches.size

def hasStatementAt (l : Location) : Bool := f.statements.records.values.any (·.start == l)
def hasStatementOnLine (n : UInt32) : Bool := f.statements.records.values.any (·.start.line == n)

def eraseFunctions (ids : List Id) : FileCoverage := { f with functions := f.functions.eraseAll ids }
def eraseBranches (ids : List Id) : FileCoverage := { f with branches := f.branches.eraseAll ids }

def hasHits : Bool :=
  f.statements.hits.values.any (0 < ·) || f.functions.hits.values.any (0 < ·) ||
  f.branches.hits.values.any (·.any (0 < ·))

end FileCoverage

abbrev CoverageMap := SortedMap String FileCoverage

def CoverageMap.paths (m : CoverageMap) : List String := m.keys

end Coverage

import Coverage.Backfill

/-!
All passes over all files, in order: phantom branches, statements on declarations, duplicate
functions, and with the source text markup callbacks, spurious branches and, if wanted, missing
structure. A file that is not valid in the end stays as it was.
-/
namespace Coverage

/-- How many records each pass changed, and how many files stayed as they were. -/
structure FixupReport where
  phantomBranches : Nat := 0
  reconciledStatements : Nat := 0
  duplicateFunctions : Nat := 0
  markupCallbacks : Nat := 0
  spuriousBranches : Nat := 0
  backfilledRecords : Nat := 0
  failedFiles : Nat := 0
  deriving DecidableEq

namespace FixupReport

def add (a b : FixupReport) : FixupReport where
  phantomBranches := a.phantomBranches + b.phantomBranches
  reconciledStatements := a.reconciledStatements + b.reconciledStatements
  duplicateFunctions := a.duplicateFunctions + b.duplicateFunctions
  markupCallbacks := a.markupCallbacks + b.markupCallbacks
  spuriousBranches := a.spuriousBranches + b.spuriousBranches
  backfilledRecords := a.backfilledRecords + b.backfilledRecords
  failedFiles := a.failedFiles + b.failedFiles

def total (r : FixupReport) : Nat :=
  r.phantomBranches + r.reconciledStatements + r.duplicateFunctions + r.markupCallbacks +
  r.spuriousBranches + r.backfilledRecords

end FixupReport

/-- Where the text of a file is looked up by its path. -/
abbrev Sources := String → Option String

namespace Fixups

/-- A file after some passes, with what they did. -/
abbrev Fixed := FileCoverage × FixupReport

/-- The passes that need no source text. -/
def structural (f : FileCoverage) : Fixed :=
  let a := Passes.erasePhantomBranches f
  let b := Passes.reconcileStatements a
  (Passes.eraseDuplicateFunctions b,
    { phantomBranches := (Passes.phantomBranches f).length
      reconciledStatements := (Passes.unreconciledStatements a).length
      duplicateFunctions := (Passes.duplicateFunctions b).length })

/-- The passes that read the source text. -/
def textual (t : Text) (x : Fixed) : Fixed :=
  let a := Passes.eraseMarkupCallbacks x.1 t
  (Passes.eraseSpuriousBranches a t,
    x.2.add
      { markupCallbacks := (Passes.markupCallbacks x.1 t).length
        spuriousBranches := (Passes.spuriousBranches a t).length })

variable [Syntax.Parser]

def backfilled (t : Text) (x : Fixed) : Except Failure Fixed :=
  if Backfill.isNeeded x.1 then
    (Backfill.apply x.1 t).map fun (f, n) => (f, x.2.add { backfilledRecords := n })
  else .ok x

def withText (backfill : Bool) (t : Text) (x : Fixed) : Except Failure Fixed :=
  if backfill then backfilled t (textual t x) else .ok (textual t x)

/-- One file with its source text, if there is one. -/
def file (backfill : Bool) (source : Option String) (f : FileCoverage) : Except Failure Fixed := do
  let x ← match source with
    | some s => withText backfill s.toList (structural f)
    | none => .ok (structural f)
  x.1.validate
  return x

/-- One file, which stays as it was if a pass fails. -/
def fileOrSame (backfill : Bool) (source : Option String) (f : FileCoverage) : Fixed :=
  match file backfill source f with
  | .ok x => x
  | .error _ => (f, { failedFiles := 1 })

def fixedFiles (m : CoverageMap) (sources : Sources) (backfill : Bool) : SortedMap String Fixed :=
  m.mapWithKey fun path f => fileOrSame backfill (sources path) f

def apply (m : CoverageMap) (sources : Sources) (backfill : Bool) : CoverageMap × FixupReport :=
  let fixed := fixedFiles m sources backfill
  (fixed.mapWithKey fun _ x => x.1, (fixed.values.map (·.2)).foldl FixupReport.add {})

end Fixups
end Coverage

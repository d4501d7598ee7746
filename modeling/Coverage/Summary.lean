import Coverage.Binary64
import Coverage.FileCoverage

/-!
How many statements, functions and branch arms were reached. A record without a count counts as not
reached; a branch without counts has no arms to count.
-/
namespace Coverage

structure Totals where
  covered : Nat
  total : Nat
  deriving DecidableEq, Inhabited

namespace Totals

def ofHits (l : List Hits) : Totals := ⟨l.countP (0 < ·), l.length⟩

def add (a b : Totals) : Totals := ⟨a.covered + b.covered, a.total + b.total⟩

/-- The quotient and its hundredfold are rounded one after the other; nothing of nothing is all. -/
def percent (t : Totals) : Binary64 :=
  let hundred := Binary64.ofNat 100
  if t.total = 0 then hundred
  else ((Binary64.ofNat t.covered).div (Binary64.ofNat t.total)).mul hundred

def text (t : Totals) : String := s!"{t.covered}/{t.total} ({t.percent.oneDecimal}%)"

end Totals

structure Summary where
  files : Nat
  statements : Totals
  functions : Totals
  branches : Totals
  deriving DecidableEq, Inhabited

namespace Summary

def add (a b : Summary) : Summary :=
  ⟨a.files + b.files, a.statements.add b.statements, a.functions.add b.functions,
    a.branches.add b.branches⟩

def ofFile (f : FileCoverage) : Summary where
  files := 1
  statements := .ofHits (f.statements.rows.map (·.2.2))
  functions := .ofHits (f.functions.rows.map (·.2.2))
  branches := .ofHits (f.branches.rows.flatMap (·.2.2))

def ofMap (m : CoverageMap) : Summary := (m.values.map ofFile).foldl add default

def text (s : Summary) : String :=
  s!"Files:      {s.files}\nStatements: {s.statements.text}\n" ++
  s!"Functions:  {s.functions.text}\nBranches:   {s.branches.text}"

end Summary
end Coverage

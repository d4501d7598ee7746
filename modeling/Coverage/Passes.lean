import Coverage.Markup

/-!
What bundlers and transpilers leave in coverage. Each pass names the records it is about; the
phantom, duplicate, markup and spurious ones are erased, and a statement that stands on the
declaration of a function that ran takes over its count.
-/
namespace Coverage.Passes
variable (f : FileCoverage) (t : Text)

/-- Wrappers of asynchronous modules leave an `if` of no width at the very start. -/
def phantomBranches : List Id :=
  f.branches.idsWhere fun b => b.kind == .ifElse && b.span.isOrigin

def erasePhantomBranches : FileCoverage := f.eraseBranches (phantomBranches f)

/-- The count of the first function that ran and is declared exactly there. -/
def declarationHits? (declaration : Span) : Option Hits :=
  (f.functions.rows.find? fun row => row.2.2 != 0 && row.2.1.declaration == declaration).map (·.2.2)

/-- The count that a statement takes over, if it has none of its own. -/
def reconciledHits? (id : Id) : Option Hits :=
  if f.statements.hits.get? id = some 0 then
    (f.statements.records.get? id).bind (declarationHits? f)
  else none

def unreconciledStatements : List Id :=
  f.statements.ids.filter fun id => (reconciledHits? f id).isSome

def reconcileStatements : FileCoverage :=
  { f with statements.hits :=
      f.statements.hits.mapWithKey fun id h => (reconciledHits? f id).getD h }

/-- More hits first; of equal hits a body that starts on another line than its declaration. -/
def outranks (a b : FunctionSite × Hits) : Bool :=
  let separate (s : FunctionSite) := s.body.start.line != s.declaration.start.line
  b.2 < a.2 || (b.2 == a.2 && separate a.1 && !separate b.1)

/-- Of several rows the one that no other outranks, the first of equals. -/
def best? : List (Id × FunctionSite × Hits) → Option (Id × FunctionSite × Hits)
  | [] => none
  | a :: r =>
    match best? r with
    | none => some a
    | some b => if outranks b.2 a.2 then some b else some a

/-- The id of the function that stays of those declared at one place. -/
def keeper? (start : Location) : Option Id :=
  (best? (f.functions.rows.filter fun row => row.2.1.declaration.start == start)).map (·.1)

/-- Bundled arrow functions leave a second record for the binding that exports them. -/
def duplicateFunctions : List Id :=
  (f.functions.rows.filter fun row =>
    keeper? f row.2.1.declaration.start != some row.1).map (·.1)

def eraseDuplicateFunctions : FileCoverage := f.eraseFunctions (duplicateFunctions f)

def markupCallbacks : List Id := f.functions.idsWhere (Markup.isCallback t)

def eraseMarkupCallbacks : FileCoverage := f.eraseFunctions (markupCallbacks f t)

def logicalOperators : List Text := [['&', '&'], ['|', '|'], ['?', '?']]

def hasLogicalOperator (t : Text) : Bool := logicalOperators.any (Text.hasWord · t)

/-- Branches of logical expressions on lines that the text has and that hold no logical operator. -/
def spuriousBranches : List Id :=
  f.branches.idsWhere fun b =>
    let lines := t.linesBetween b.span.start.line b.span.stop.line
    b.kind == .logical && !lines.isEmpty && !lines.any hasLogicalOperator

def eraseSpuriousBranches : FileCoverage := f.eraseBranches (spuriousBranches f t)

end Coverage.Passes

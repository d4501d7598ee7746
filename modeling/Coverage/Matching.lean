import Coverage.FileCoverage

/-!
Finding for each record of one file a record of another. Instrumenters disagree on columns, so a
query first looks at the records with exactly its start and then at those of its line. Queries may
share a record or, when matching is exclusive, have each record once; then every exact match is
settled before any other.
-/
namespace Coverage

structure Query (ω : Type) where
  start : Location
  wish : ω

/-- A record that can be found, with its place among all of its kind. -/
structure Candidate (α : Type) where
  index : Nat
  start : Location
  value : α

/-- What tells the records of one kind apart: where they start, what a record looks for in another
file and which candidate it takes there, and how counts are combined. -/
structure RecordKind (ρ η ω : Type) where
  start : ρ → Location
  wish : ρ → η → ω
  pick : ω → List (Candidate (ρ × η)) → Option (Candidate (ρ × η))
  combine : (Hits → Hits → Hits) → η → η → η

namespace Matching
variable {ρ η ω α : Type} [Inhabited η]

def sameStart (a b : Location) : Bool := a == b
def sameLine (a b : Location) : Bool := a.line == b.line

def candidates (kind : RecordKind ρ η ω) (t : Table ρ η) : List (Candidate (ρ × η)) :=
  t.rows.zipIdx.map fun (row, index) => ⟨index, kind.start row.2.1, row.2⟩

def queries (kind : RecordKind ρ η ω) (t : Table ρ η) : List (Query ω) :=
  t.rows.map fun row => ⟨kind.start row.2.1, kind.wish row.2.1 row.2.2⟩

/-- The candidates for a start that are not claimed yet. -/
def unclaimed (near : Location → Location → Bool) (all : List (Candidate α)) (claimed : List Nat)
    (start : Location) : List (Candidate α) :=
  all.filter fun c => near c.start start && !claimed.contains c.index

/-- One round over the queries that have found nothing so far. -/
def round (pick : ω → List (Candidate α) → Option (Candidate α)) (all : List (Candidate α))
    (exclusive : Bool) (near : Location → Location → Bool) :
    List Nat → List (Query ω × Option (Candidate α)) →
      List Nat × List (Query ω × Option (Candidate α))
  | claimed, [] => (claimed, [])
  | claimed, (q, some c) :: r =>
    let (claimed, r) := round pick all exclusive near claimed r
    (claimed, (q, some c) :: r)
  | claimed, (q, none) :: r =>
    let found := pick q.wish (unclaimed near all claimed q.start)
    let claimed := if exclusive then (found.map (·.index)).toList ++ claimed else claimed
    let (claimed, r) := round pick all exclusive near claimed r
    (claimed, (q, found) :: r)

/-- The candidate of each query: exact starts in a first round, lines in a second. -/
def assign (pick : ω → List (Candidate α) → Option (Candidate α)) (all : List (Candidate α))
    (exclusive : Bool) (qs : List (Query ω)) : List (Option (Candidate α)) :=
  let (claimed, exact) := round pick all exclusive sameStart [] (qs.map (·, none))
  (round pick all exclusive sameLine claimed exact).2.map (·.2)

/-- The counts that each query finds in a table. -/
def matchAll (kind : RecordKind ρ η ω) (t : Table ρ η) (exclusive : Bool) (qs : List (Query ω)) :
    List (Option η) :=
  (assign kind.pick (candidates kind t) exclusive qs).map (·.map (·.value.2))

/-- What a query finds on its own. -/
def find? (kind : RecordKind ρ η ω) (t : Table ρ η) (q : Query ω) : Option η :=
  (matchAll kind t false [q]).head?.join

/-- Of candidates with the highest count the last. -/
def pickHighest : List (Candidate (ρ × Hits)) → Option (Candidate (ρ × Hits))
  | [] => none
  | c :: r =>
    match pickHighest r with
    | none => some c
    | some d => if d.value.2 < c.value.2 then some c else some d

/-- The first candidate with the same kind and number of arms, else with the same number of arms,
else at all. -/
def pickBranch (wish : BranchKind × Nat) (l : List (Candidate (BranchSite × List Hits))) :
    Option (Candidate (BranchSite × List Hits)) :=
  l.find? (fun c => c.value.2.length == wish.2 && c.value.1.kind == wish.1) <|>
  l.find? (fun c => c.value.2.length == wish.2) <|>
  l.head?

/-- Counts arm by arm; the second list is cut or filled with zeros to the length of the first. -/
def combineArms (combine : Hits → Hits → Hits) : List Hits → List Hits → List Hits
  | [], _ => []
  | a :: r, [] => combine a 0 :: combineArms combine r []
  | a :: r, b :: s => combine a b :: combineArms combine r s

theorem length_combineArms (combine : Hits → Hits → Hits) (a b : List Hits) :
    (combineArms combine a b).length = a.length := by
  fun_induction combineArms combine a b <;> simp_all

end Matching

namespace RecordKind

def statements : RecordKind Span Hits Unit where
  start := Span.start
  wish _ _ := ()
  pick _ := Matching.pickHighest
  combine := id

/-- Functions are told apart by where their declaration starts. -/
def functions : RecordKind FunctionSite Hits Unit where
  start f := f.declaration.start
  wish _ _ := ()
  pick _ := Matching.pickHighest
  combine := id

def branches : RecordKind BranchSite (List Hits) (BranchKind × Nat) where
  start b := b.span.start
  wish b counts := (b.kind, counts.length)
  pick := Matching.pickBranch
  combine := Matching.combineArms

end RecordKind
end Coverage

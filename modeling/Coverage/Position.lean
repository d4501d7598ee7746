/-!
Places in a source file: a `Location` counts lines from one and columns from zero, in bytes, and a
`Span` runs from one location to another. Locations are ordered by line, then by column.
-/
namespace Coverage

structure Location where
  line : UInt32
  column : UInt32
  deriving DecidableEq, Inhabited

namespace Location
variable {a b : Location}

def byLine (a b : Location) : Ordering := compare a.line b.line
def byColumn (a b : Location) : Ordering := compare a.column b.column

instance : Ord Location := ⟨compareLex byLine byColumn⟩

instance : Std.TransCmp byLine := inferInstanceAs (Std.TransCmp (compareOn Location.line))
instance : Std.TransCmp byColumn := inferInstanceAs (Std.TransCmp (compareOn Location.column))
instance : Std.TransOrd Location :=
  inferInstanceAs (Std.TransCmp (compareLex byLine byColumn))

theorem compare_eq_iff : compare a b = .eq ↔ a = b := by
  change compareLex byLine byColumn a b = .eq ↔ a = b
  rw [compareLex_eq_eq, byLine, byColumn, Std.LawfulEqCmp.compare_eq_iff_eq,
    Std.LawfulEqCmp.compare_eq_iff_eq]
  exact ⟨fun h => by cases a; cases b; cases h.1; cases h.2; rfl, fun h => h ▸ ⟨rfl, rfl⟩⟩

instance : Std.LawfulEqOrd Location where
  compare_self := Std.ReflCmp.compare_self
  eq_of_compare := compare_eq_iff.1

instance : LT Location := ltOfOrd
instance : LE Location := leOfOrd

/-- The first place of a file. -/
def origin : Location := ⟨1, 0⟩

end Location

structure Span where
  start : Location
  stop : Location
  deriving DecidableEq, Inhabited

namespace Span

def ofNumbers (startLine startColumn stopLine stopColumn : UInt32) : Span :=
  ⟨⟨startLine, startColumn⟩, ⟨stopLine, stopColumn⟩⟩

/-- A span of no width at the first place of the file. -/
def isOrigin (s : Span) : Bool := s.start == .origin && s.stop == s.start

/-- The span holds its start and not its stop. -/
def contains (s : Span) (l : Location) : Bool := decide (s.start ≤ l) && decide (l < s.stop)

end Span
end Coverage

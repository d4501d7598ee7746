/-!
Ranges of bytes in generated code. A range holds its start and not its stop.
-/
namespace Coverage

structure CodeRange where
  start : Nat
  stop : Nat
  deriving DecidableEq

namespace CodeRange

def length (r : CodeRange) : Nat := r.stop - r.start
def isEmpty (r : CodeRange) : Bool := r.length == 0
def contains (r : CodeRange) (n : Nat) : Bool := r.start ≤ n && n < r.stop

/-- Whether a span of bytes shares one with the range; a span without bytes has to lie inside. -/
def overlaps (r : CodeRange) (start stop : Nat) : Bool :=
  if start = stop then r.contains start else start < r.stop && r.start < stop

/-- Without ranges nothing is skipped, else what overlaps none of them. -/
def skips (ranges : List CodeRange) (start stop : Nat) : Bool :=
  !ranges.isEmpty && !ranges.any (·.overlaps start stop)

end CodeRange
end Coverage

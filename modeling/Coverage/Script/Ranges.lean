import Coverage.Script.CodeRange
import Coverage.Script.PositionMap

/-!
The parts of a large script that are worth converting: ranges around the bytes that come from the
user's sources.
-/
namespace Coverage

structure RangeOptions where
  /-- Bytes closer than this are in one range. -/
  gap : Nat := 1000
  padBefore : Nat := 1000
  padAfter : Nat := 5000
  /-- Scripts up to this size are converted as a whole. -/
  minSize : Nat := 100000
  deriving DecidableEq

instance : Inhabited RangeOptions := ⟨{}⟩

namespace CodeRange

/-- The breakpoints inside the code, ascending and each once. -/
def breakpoints (l : List Nat) (length : Nat) : List Nat :=
  ((l.filter (· < length)).mergeSort).eraseReps

/-- Ranges over ascending breakpoints; the open one goes from `start` to `last`. -/
def group (gap start last : Nat) : List Nat → List CodeRange
  | [] => [⟨start, last + 1⟩]
  | n :: r =>
    if n - last < gap then group gap start n r else ⟨start, last + 1⟩ :: group gap n n r

def padFirst (before : Nat) : List CodeRange → List CodeRange
  | [] => []
  | r :: rest => { r with start := r.start - before } :: rest

def padLast (after length : Nat) : List CodeRange → List CodeRange
  | [] => []
  | [r] => [{ r with stop := min (r.stop + after) length }]
  | r :: rest => r :: padLast after length rest

/-- Ranges over breakpoints, with room before the first and after the last. -/
def cover (l : List Nat) (length : Nat) (o : RangeOptions) : List CodeRange :=
  match breakpoints l length with
  | [] => []
  | n :: r => padLast o.padAfter length (padFirst o.padBefore (group o.gap n n r))

/-- The ranges of a script; none if it is small or its source map is missing or unreadable. -/
def ofScript (code : Text) (map : Option PositionMap) (o : RangeOptions) : List CodeRange :=
  match map with
  | none => []
  | some m =>
    if code.byteLength ≤ o.minSize then []
    else
      match m.userOffsets PositionMap.isVendor code with
      | .error _ => []
      | .ok l => cover l code.byteLength o

end CodeRange
end Coverage

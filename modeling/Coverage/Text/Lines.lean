import Coverage.Position
import Coverage.Text.Bytes

/-!
A text by lines. Lines are counted from one, end at each newline, and are shown without a carriage
return before it; columns are bytes.
-/
namespace Coverage.Text

def rawLines (t : Text) : List Text := splitAt '\n' t

/-- A line without one carriage return at its end. -/
def chomp (t : Text) : Text := if t.getLast? = some '\r' then t.dropLast else t

def line? (t : Text) (n : UInt32) : Option Text :=
  if n = 0 then none else ((rawLines t)[n.toNat - 1]?).map chomp

/-- The lines from the first number to the second, or to the first if that is greater; those that the
text does not have are left out. -/
def linesBetween (t : Text) (first last : UInt32) : List Text :=
  (((rawLines t).take (max first.toNat last.toNat)).drop (first.toNat - 1)).map chomp

/-- The bytes behind the newlines of a text that starts at byte `n`. -/
def startsBehind (n : Nat) (t : Text) : List Nat :=
  (t.foldl (fun (n, l) c =>
    let n := n + c.utf8Size
    (n, if c = '\n' then n :: l else l)) (n, [])).2.reverse

/-- The bytes at which the lines start. -/
def lineStarts (t : Text) : List Nat := 0 :: startsBehind 0 t

def lineStart? (t : Text) (index : Nat) : Option Nat := (lineStarts t)[index]?

/-- The byte of a location; a column beyond the end of its line means that end. -/
def offset? (t : Text) (l : Location) : Option Nat := do
  let line ← t.line? l.line
  return (← t.lineStart? (l.line.toNat - 1)) + min l.column.toNat line.byteLength

/-- The location of a byte: behind how many line starts it lies, and how far behind the last. Both numbers
are cut to 32 bits, the line as in a release build; in a debug build line 2^32 is a panic. -/
def locationOf (starts : List Nat) (offset : Nat) : Location :=
  let before := starts.takeWhile (· ≤ offset)
  ⟨UInt32.ofNat before.length, UInt32.ofNat (offset - before.getLastD 0)⟩

/-- The text under a span. A stop on a missing line means the end of the text and a stop before the
start means the start. -/
def sliceSpan? (t : Text) (s : Span) : Option Text := do
  let start ← t.offset? s.start
  t.slice? start (max start ((t.offset? s.stop).getD t.byteLength))

end Coverage.Text

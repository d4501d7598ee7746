import Coverage.Text.Bytes

/-!
Paths as they are written: names with slashes between them. A leading slash makes a path absolute.
-/
namespace Coverage

abbrev Path := String

namespace Path

/-- What stands between the slashes; two slashes in a row have nothing between them. -/
def segments (p : Path) : List String := (Text.splitAt '/' p.toList).map String.ofList

def isAbsolute (p : Path) : Bool := p.toList.head? == some '/'

/-- Segments that stay where they are. -/
def isIdle (segment : String) : Bool := segment.isEmpty || segment == "."

def names (p : Path) : List String := (segments p).filter (!isIdle ·)

def ofNames (l : List String) : Path := String.intercalate "/" l

/-- The folder that holds what the path names; empty where that is the current one. -/
def parent (p : Path) : Path :=
  let above := ofNames (names p).dropLast
  if isAbsolute p then "/" ++ above else above

/-- A path below another. The upper one is kept as it is written. -/
def join (p : Path) (name : String) : Path :=
  if p.isEmpty || p.toList.getLast? == some '/' then p ++ name else p ++ "/" ++ name

end Path
end Coverage

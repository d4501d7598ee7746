import Coverage.Files.Storage
import Coverage.Keys

/-!
The texts of source files. Each path is read once; what was found, or that nothing was, is
remembered.
-/
namespace Coverage

structure SourceReader where
  /-- Where relative paths start. -/
  root : Option Path := none
  known : SortedMap String (Option String) := ∅

namespace SourceReader

/-- The file of a path in a coverage document. -/
def locate (root : Option Path) (path : String) : Path :=
  let p := String.ofList (Keys.withoutScheme path)
  match root with
  | none => p
  | some r => if Path.isAbsolute p then p else Path.join r p

variable {m : Type → Type} [Monad m] [Storage m]

def read (r : SourceReader) (path : String) : m (Option String × SourceReader) := do
  match r.known.get? path with
  | some x => return (x, r)
  | none =>
    let x ← Storage.readText? (locate r.root path)
    return (x, { r with known := r.known.insert path x })

def readAll (r : SourceReader) : List String → m SourceReader
  | [] => return r
  | path :: rest => do
    let (_, r) ← r.read path
    r.readAll rest

/-- A text that has been read. -/
def text? (r : SourceReader) (path : String) : Option String := (r.known.get? path).join

end SourceReader
end Coverage

import Coverage.Json.Record
import Coverage.Script.Mappings
import Coverage.Text.Blank
import Coverage.Text.Lines

/-!
Source maps of generated scripts, and the bytes of a script that come from the user's own sources.
-/
namespace Coverage

structure PositionMap where
  sources : List String
  contents : Option (List (Option String))
  mappings : String
  names : List String
  deriving DecidableEq

namespace PositionMap
open Json

def ofJson? (j : Json) : Option PositionMap := do
  let [sources, contents, mappings, names] ←
    fields? [["sources"], ["sourcesContent"], ["mappings"], ["names"]] j | none
  return {
    sources := ← optional? (list? string?) [] sources
    contents := ← optional? (nullable? (list? (nullable? string?))) none contents
    mappings := ← optional? string? "" mappings
    names := ← optional? (list? string?) [] names }

def strings (l : List String) : Json := array (l.map string)

def toJson (m : PositionMap) : Json :=
  object [("sources", strings m.sources),
    ("sourcesContent", m.contents.elim null fun l => array (l.map fun c => c.elim null string)),
    ("mappings", string m.mappings),
    ("names", strings m.names)]

/-- The text of a source, if the map holds it. -/
def content? (m : PositionMap) (index : Nat) : Option String :=
  (m.contents.bind fun l => l[index]?).join

/-- Sources that are not the user's: installed packages and the loader of the bundle. -/
def isVendor (source : String) : Bool :=
  let t := source.toList
  Text.hasWord "node_modules".toList t || Text.hasWord "webpack/runtime".toList t ||
  "webpack/bootstrap".toList.isPrefixOf t

/-- The byte of a segment that stands for a source of the user's on a line that the code has. -/
def offset? (m : PositionMap) (vendor : String → Bool) (starts : List Nat) (s : MappingSegment) :
    Option Nat := do
  let source ← m.sources[(← s.source).toNat]?
  if vendor source then none
  return (← starts[s.line.toNat]?) + s.column.toNat

def userOffsets (m : PositionMap) (vendor : String → Bool) (code : Text) :
    Except MappingFault (List Nat) :=
  (Mappings.decode m.mappings).map (·.filterMap (m.offset? vendor code.lineStarts))

end PositionMap
end Coverage

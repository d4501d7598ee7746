import Coverage.Failure
import Coverage.Json.Reader
import Coverage.Json.Record
import Coverage.Json.Writer

/-!
Coverage as JSON: an object with one member for each file. Reading keeps the files that have the
right shape and are valid, and gives a file without a path the name it stands under.
-/
namespace Coverage
open Json

namespace Location

/-- Open ends are written as null and mean zero. -/
def coordinate? (j : Json) : Option UInt32 := (nullable? uint32? j).map (·.getD 0)

def ofJson? (j : Json) : Option Location := do
  let [line, column] ← fields? [["line"], ["column"]] j | none
  return ⟨← optional? coordinate? 0 line, ← optional? coordinate? 0 column⟩

def toJson (l : Location) : Json :=
  object [("line", ofUInt32 l.line), ("column", ofUInt32 l.column)]

end Location

namespace Span

def ofJson? (j : Json) : Option Span := do
  let [start, stop] ← fields? [["start"], ["end"]] j | none
  return ⟨← optional? Location.ofJson? default start, ← optional? Location.ofJson? default stop⟩

def toJson (s : Span) : Json := object [("start", s.start.toJson), ("end", s.stop.toJson)]

end Span

namespace FunctionSite

def ofJson? (j : Json) : Option FunctionSite := do
  let [name, declaration, body, line] ← fields? [["name"], ["decl"], ["loc"], ["line"]] j | none
  return {
    name := ← optional? string? "" name
    declaration := ← required? Span.ofJson? declaration
    body := ← required? Span.ofJson? body
    line := ← optional? uint32? 0 line }

def toJson (f : FunctionSite) : Json :=
  object [("name", string f.name), ("decl", f.declaration.toJson), ("loc", f.body.toJson),
    ("line", ofUInt32 f.line)]

end FunctionSite

namespace BranchSite

def ofJson? (j : Json) : Option BranchSite := do
  let [span, kind, arms, line] ← fields? [["loc"], ["type"], ["locations"], ["line"]] j | none
  return {
    span := ← required? Span.ofJson? span
    kind := .ofTag (← required? string? kind)
    arms := ← optional? (list? Span.ofJson?) [] arms
    line := ← optional? uint32? 0 line }

def toJson (b : BranchSite) : Json :=
  object [("loc", b.span.toJson), ("type", string b.kind.tag),
    ("locations", array (b.arms.map Span.toJson)), ("line", ofUInt32 b.line)]

end BranchSite

/-- Plain decimal digits without a leading zero. -/
def idOfName? (s : String) : Option Id :=
  let digits := s.toList
  let n := Number.natOfDigits digits
  if digits.isEmpty || !digits.all Char.isDigit || (digits.head? == some '0' && 1 < digits.length) then
    none
  else if n < UInt32.size then some (UInt32.ofNat n)
  else none

namespace SortedMap
variable {α : Type}

def ofJson? (d : Json → Option α) (j : Json) : Option (SortedMap Id α) := do
  let l ← members? d j
  return ofList (← l.mapM fun e => (idOfName? e.1).map (·, e.2))

def toJson (d : α → Json) (m : SortedMap Id α) : Json :=
  object (m.entries.map fun e => (toString e.1, d e.2))

end SortedMap

def hitsToJson (h : Hits) : Json := ofUInt64 h
def armHitsToJson (l : List Hits) : Json := array (l.map ofUInt64)

namespace FileCoverage

def ofJson? (j : Json) : Option FileCoverage := do
  let [path, statements, functions, branches, s, f, b] ←
    fields? [["path"], ["statementMap"], ["fnMap"], ["branchMap"], ["s"], ["f"], ["b"]] j | none
  return {
    path := ← optional? string? "" path
    statements := ⟨← optional? (SortedMap.ofJson? Span.ofJson?) ∅ statements,
      ← optional? (SortedMap.ofJson? uint64?) ∅ s⟩
    functions := ⟨← optional? (SortedMap.ofJson? FunctionSite.ofJson?) ∅ functions,
      ← optional? (SortedMap.ofJson? uint64?) ∅ f⟩
    branches := ⟨← optional? (SortedMap.ofJson? BranchSite.ofJson?) ∅ branches,
      ← optional? (SortedMap.ofJson? (list? uint64?)) ∅ b⟩ }

def toJson (f : FileCoverage) : Json :=
  object [("path", string f.path),
    ("statementMap", f.statements.records.toJson Span.toJson),
    ("fnMap", f.functions.records.toJson FunctionSite.toJson),
    ("branchMap", f.branches.records.toJson BranchSite.toJson),
    ("s", f.statements.hits.toJson hitsToJson),
    ("f", f.functions.hits.toJson hitsToJson),
    ("b", f.branches.hits.toJson armHitsToJson)]

def named (f : FileCoverage) (path : String) : FileCoverage :=
  if f.path = "" then { f with path } else f

/-- The entry of a document under a path, if it is a valid file. -/
def ofEntry? (path : String) (j : Json) : Option FileCoverage :=
  (ofJson? j).bind fun f => if (f.named path).Valid then some (f.named path) else none

end FileCoverage

namespace CoverageMap

def toJson (m : CoverageMap) : Json := object (m.entries.map fun e => (e.1, e.2.toJson))

/-- Entries that are no valid file are left out. -/
def ofJson : Json → Except Failure CoverageMap
  | object l =>
    .ok <| .ofList <| l.filterMap fun e => (FileCoverage.ofEntry? e.1 e.2).map (e.1, ·)
  | _ => .error .notAnObject

def ofText (t : String) : Except Failure CoverageMap :=
  match Json.ofText? t with
  | none => .error .json
  | some j => ofJson j

def text (m : CoverageMap) : String := (toJson m).text

/-- An object whose every member is a file, valid or not. -/
def records? (j : Json) : Option CoverageMap := (members? FileCoverage.ofJson? j).map .ofList

end CoverageMap
end Coverage

import Coverage.Json.Reader
import Coverage.Script.Ranges
import Coverage.Table

/-!
Coverage of scripts as an engine reports it: for each function the ranges of bytes that ran, with
their counts. Some fields are known by two names.
-/
namespace Coverage
open Json

structure RawRange where
  start : Nat
  stop : Nat
  hits : Hits
  deriving DecidableEq

structure RawFunction where
  name : String
  isBlockCoverage : Bool
  ranges : List RawRange
  deriving DecidableEq

structure RawScript where
  url : String
  code : Option String
  functions : List RawFunction
  deriving DecidableEq

namespace CodeRange

def ofJson? (j : Json) : Option CodeRange := do
  let [start, stop] ← fields? [["minOffset"], ["maxOffset"]] j | none
  return ⟨← required? nat? start, ← required? nat? stop⟩

def toJson (r : CodeRange) : Json :=
  object [("minOffset", ofNat r.start), ("maxOffset", ofNat r.stop)]

end CodeRange

namespace RawRange

def ofJson? (j : Json) : Option RawRange := do
  let [start, stop, hits] ← fields? [["startOffset"], ["endOffset"], ["count", "hitCount"]] j | none
  return ⟨← required? nat? start, ← required? nat? stop, ← required? uint64? hits⟩

def toJson (r : RawRange) : Json :=
  object [("startOffset", ofNat r.start), ("endOffset", ofNat r.stop), ("count", ofUInt64 r.hits)]

end RawRange

namespace RawFunction

def ofJson? (j : Json) : Option RawFunction := do
  let [name, block, ranges] ←
    fields? [["name", "functionName"], ["isBlockCoverage"], ["ranges"]] j | none
  return ⟨← optional? string? "" name, ← optional? bool? false block,
    ← optional? (list? RawRange.ofJson?) [] ranges⟩

def toJson (f : RawFunction) : Json :=
  object [("name", string f.name), ("isBlockCoverage", bool f.isBlockCoverage),
    ("ranges", array (f.ranges.map RawRange.toJson))]

end RawFunction

namespace RawScript

def ofJson? (j : Json) : Option RawScript := do
  let [url, code, functions] ← fields? [["url"], ["sourceCode", "source"], ["functions"]] j | none
  return ⟨← optional? string? "" url, ← optional? (nullable? string?) none code,
    ← optional? (list? RawFunction.ofJson?) [] functions⟩

def toJson (s : RawScript) : Json :=
  object [("url", string s.url), ("sourceCode", s.code.elim null string),
    ("functions", array (s.functions.map RawFunction.toJson))]

/-- Scripts read straight from text: what no field asks for is skipped, whatever its value. -/
def listOfText? (t : String) : Option (List RawScript) := (document? t).bind (list? ofJson?)

/-- The code of a script that has both an address and code. -/
def usable? (s : RawScript) : Option String :=
  s.code.filter fun code => !s.url.isEmpty && !code.isEmpty

end RawScript
end Coverage

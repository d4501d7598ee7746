import Coverage.Failure
import Coverage.Script.Raw
import Coverage.Syntax.Outline

/-!
The conversion of one script. The script is parsed and a mapper turns its counts into coverage of
source files. A mapper may crash, and then the conversion has no result.
-/
namespace Coverage.Conversion

structure Task where
  url : String
  code : String
  map : Option PositionMap := none
  functions : List RawFunction := []
  ranges : List CodeRange := []
  /-- Counts only if there are no `ranges`. -/
  range : Option CodeRange := none
  deriving DecidableEq

/-- What a mapper gets to see of a script. -/
structure Input where
  url : String
  code : Text
  outline : Syntax.Outline
  map : Option PositionMap
  functions : List RawFunction
  /-- The parts worth mapping; without any, all of the code is. -/
  ranges : List CodeRange

def Input.skips (i : Input) (e : Syntax.Extent) : Bool := CodeRange.skips i.ranges e.start e.stop

inductive Mapped where
  | fragment (m : CoverageMap)
  | failure (e : Failure)
  | crash
  deriving DecidableEq

abbrev Mapper := Input → Mapped

/-- How long a script was parsed and mapped. -/
structure Timings where
  parse : Nat
  convert : Nat
  deriving DecidableEq

def Timings.total (t : Timings) : Nat := t.parse + t.convert

structure Result where
  url : String
  outcome : Except Failure CoverageMap
  timings : Timings

namespace Result

def fragment? (r : Result) : Option CoverageMap := r.outcome.toOption
def isSuccess (r : Result) : Bool := r.fragment?.isSome

end Result

/-- What is sent to whoever submitted a task. -/
abbrev Reply := Except Failure Result

/-- A fragment comes only from a task that was carried out and did not fail. -/
def Reply.fragment? (r : Reply) : Option CoverageMap := r.toOption.bind Result.fragment?

namespace Task

def effectiveRanges (t : Task) : List CodeRange :=
  if t.ranges.isEmpty then t.range.toList else t.ranges

variable [Syntax.Parser]

/-- The input of the mapper, if the code has no syntax error. -/
def input? (t : Task) : Option Input :=
  let code := t.code.toList
  (Syntax.Parser.outline? (.ofPath t.url) code).map fun outline =>
    { url := t.url, code, outline, map := t.map, functions := t.functions
      ranges := t.effectiveRanges }

/-- The result, unless the mapper crashes. No time passes in the mapper if it is never called. -/
def convert? (t : Task) (mapper : Mapper) (elapsed : Timings) : Option Result :=
  match t.input? with
  | none => some ⟨t.url, .error .syntaxError, { elapsed with convert := 0 }⟩
  | some i =>
    match mapper i with
    | .fragment m => some ⟨t.url, .ok m, elapsed⟩
    | .failure e => some ⟨t.url, .error e, elapsed⟩
    | .crash => none

/-- A crash fails the task alone. -/
def reply (t : Task) (mapper : Mapper) (elapsed : Timings) : Reply :=
  match t.convert? mapper elapsed with
  | some r => .ok r
  | none => .error (.workerCrashed t.url)

end Task
end Coverage.Conversion

import Coverage.Conversion.Progress
import Coverage.Merge

/-!
Many scripts converted by one pool. Each usable script is a task of its own; the fragments that come
back are merged in the order of the scripts, whatever order they were converted in.
-/
namespace Coverage.Conversion
variable [Syntax.Parser]

/-- Where the source map of a script is looked up. -/
abbrev PositionMaps := RawScript → Option PositionMap

/-- A script without an address or without code makes no task. -/
def Task.ofScript? (maps : PositionMaps) (o : RangeOptions) (s : RawScript) : Option Task :=
  s.usable?.map fun code =>
    { url := s.url, code, map := maps s, functions := s.functions
      ranges := CodeRange.ofScript code.toList (maps s) o }

namespace Batch

def tasks (maps : PositionMaps) (o : RangeOptions) (scripts : List RawScript) : List Task :=
  scripts.filterMap (Task.ofScript? maps o)

def skipped (scripts : List RawScript) : Nat := scripts.countP (·.usable?.isNone)

/-- What else happens in the pool after each submission of a batch, through other threads or through
the mapper itself. What cannot happen does not. -/
abbrev Schedule := List (List Event)

def perform (p : Pool) (e : Event) : Pool := (p.step? e).getD p

/-- What has been submitted: the address of a task, and its ticket if it was accepted. -/
structure Submission where
  url : String
  ticket : Except Failure Nat

/-- A pool without workers ends each task before the next one is submitted. -/
def returned (pace : Pace) (p : Pool) : Pool :=
  if p.isSingleThreaded then p.settle pace else p

def submit (mapper : Mapper) (p : Pool) (t : Task) : Pool × Submission :=
  match p.submit t mapper with
  | .ok q => (q, ⟨t.url, .ok p.accepted⟩)
  | .error e => (p, ⟨t.url, .error e⟩)

/-- A whole call of `submit`, with what happens in the pool before it returns. -/
def call (pace : Pace) (p : Pool) (during : List Event) (t : Task) (mapper : Mapper) :
    Pool × Submission :=
  let (q, s) := submit mapper p t
  (returned pace (during.foldl perform q), s)

/-- Tasks submitted one after the other, each with the mapper as it behaves when called for this task. -/
def submitAll (pace : Pace) : Pool → Schedule → List (Task × Mapper) → Pool × List Submission
  | p, _, [] => (p, [])
  | p, schedule, (t, mapper) :: r =>
    let (q, s) := call pace p (schedule.headD []) t mapper
    let (q, l) := submitAll pace q schedule.tail r
    (q, s :: l)

/-- A task that will never be answered counts as crashed. -/
def reply (p : Pool) (s : Submission) : Reply :=
  match s.ticket with
  | .ok n => (p.reply? n).getD (.error (.workerCrashed s.url))
  | .error e => .error e

/-- Submit every task, then wait for all of them. The replies are in the order of the tasks. -/
def runEach (p : Pool) (pace : Pace) (schedule : Schedule) (l : List (Task × Mapper)) :
    Pool × List Reply :=
  let (p, submissions) := submitAll pace p schedule l
  let p := p.settle pace
  (p, submissions.map (reply p))

def run (p : Pool) (mapper : Mapper) (pace : Pace) (schedule : Schedule) (l : List Task) :
    Pool × List Reply :=
  runEach p pace schedule (l.map (·, mapper))

end Batch

/-- What became of some scripts. -/
structure Assembly where
  coverage : CoverageMap
  converted : Nat
  failed : Nat
  skipped : Nat

namespace Assembly

/-- The replies of a batch put together. -/
def ofReplies (skipped : Nat) (replies : List Reply) : Assembly :=
  let fragments := replies.filterMap Reply.fragment?
  { coverage := Merge.maps fragments .max
    converted := fragments.length
    failed := replies.countP (·.fragment?.isNone)
    skipped }

/-- Scripts, each with the mapper as it behaves when called for this script. -/
def ofEach (p : Pool) (maps : PositionMaps) (o : RangeOptions) (pace : Pace)
    (schedule : Batch.Schedule) (l : List (RawScript × Mapper)) : Assembly :=
  ofReplies (Batch.skipped (l.map (·.1)))
    (Batch.runEach p pace schedule
      (l.filterMap fun c => (Task.ofScript? maps o c.1).map (·, c.2))).2

def ofScripts (p : Pool) (maps : PositionMaps) (o : RangeOptions) (mapper : Mapper)
    (pace : Pace) (schedule : Batch.Schedule) (scripts : List RawScript) : Assembly :=
  ofEach p maps o pace schedule (scripts.map (·, mapper))

end Assembly
end Coverage.Conversion

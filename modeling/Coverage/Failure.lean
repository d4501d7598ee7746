import Coverage.FileCoverage
import Coverage.Script.Mappings

/-!
Why an operation fails, and the text that says so.
-/
namespace Coverage

inductive Failure where
  | storage
  | json
  | syntaxError
  | mapping (fault : MappingFault)
  | mapper (reason : String)
  | poolTerminated
  | workerCrashed (url : String)
  | notAnObject
  | defect (path : String) (d : Defect)
  | missingInput (path : String)
  | noMatch (pattern : String)
  deriving DecidableEq

def Failure.message : Failure → String
  | storage => "IO error"
  | json => "JSON error"
  | syntaxError => "Parse failed: syntax error"
  | mapping fault => s!"Parse failed: {fault.message}"
  | mapper reason => s!"Coverage mapper failed: {reason}"
  | poolTerminated => "Worker pool has been terminated"
  | workerCrashed url => s!"Worker crashed while converting '{url}'"
  | notAnObject => "Invalid coverage for '<root>': coverage document is not an object"
  | defect path d => s!"Invalid coverage for '{path}': {d.message}"
  | missingInput path =>
    s!"No coverage inputs: '{path}' is neither a file nor a directory"
  | noMatch pattern => s!"No coverage inputs: no files matching '{pattern}' found"

/-- A file with a defect is a failure of its own. -/
def FileCoverage.validate (f : FileCoverage) : Except Failure Unit :=
  match f.defect? with
  | none => .ok ()
  | some d => .error (.defect f.path d)

end Coverage

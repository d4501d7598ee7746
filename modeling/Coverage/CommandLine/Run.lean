import Coverage.CommandLine.Invocation
import Coverage.Files.Discovery
import Coverage.Files.Documents
import Coverage.Files.SourceReader
import Coverage.Fixups
import Coverage.Summary
import Coverage.Syntax.Program

/-!
Carrying out a command: all files are read first, then one file is written, and what was done is
printed.
-/
namespace Coverage.CommandLine

inductive Fault where
  | failure (e : Failure)
  /-- No file is left after filtering. -/
  | nothingLeft
  deriving DecidableEq

def Fault.message : Fault → String
  | failure e => e.message
  | nothingLeft => "No files left to write after filtering"

/-- What a command printed, and how it ended. -/
structure Outcome where
  lines : List String
  result : Except Fault Unit

namespace Outcome

def failed (lines : List String) (e : Failure) : Outcome := ⟨lines, .error (.failure e)⟩

/-- Every line is ended. -/
def text (o : Outcome) : String := String.join (o.lines.map (· ++ "\n"))

end Outcome

variable {m : Type → Type} [Monad m] [Storage m]

/-- A map saved; if it could be, more is printed, and last a summary of it. -/
def conclude (before : List String) (c : CoverageMap) (output : Path) (after : List String) :
    m Outcome := do
  match ← Documents.save output c with
  | .error e => return .failed before e
  | .ok () => return ⟨before ++ after ++ [(Summary.ofMap c).text], .ok ()⟩

def indented (s : String) : String := "  " ++ s

namespace MergeOptions

def opening (o : MergeOptions) (files : List Path) : List String :=
  s!"Merging {files.length} coverage files with strategy '{o.strategy.name}'" :: files.map indented

/-- The documents merged, before any file is chosen. -/
def merged (o : MergeOptions) (maps : List CoverageMap) : CoverageMap :=
  Merge.maps (maps.map Keys.normalizeMap) o.strategy

def kept (o : MergeOptions) (c : CoverageMap) : CoverageMap :=
  Selection.filter c o.included o.excluded

def warning (o : MergeOptions) (c : CoverageMap) : List String :=
  match Selection.unmatchedIn c o.included o.excluded with
  | [] => []
  | l => "Warning: The following patterns did not match any files:" :: l.map indented

def closing (o : MergeOptions) : List String := [s!"Merge complete! Results saved to {o.output}"]

def run (o : MergeOptions) : m Outcome := do
  match ← Discovery.discover o.inputs o.pattern with
  | .error e => return .failed [] e
  | .ok files =>
    let opening := o.opening files
    match ← Documents.loadAll files with
    | .error e => return .failed opening e
    | .ok maps =>
      let all := o.merged maps
      let before := opening ++ o.warning all
      if (o.kept all).isEmpty then return ⟨before, .error .nothingLeft⟩
      conclude before (o.kept all) o.output o.closing

end MergeOptions

namespace BaseOptions

def closing (o : BaseOptions) (c : Base.Counts) : List String :=
  [s!"Merged onto base! Results saved to {o.output}",
    s!"  base files: {c.baseFiles}, additional files: {c.additionalFiles}",
    s!"  kept from base: {c.baseOnlyFiles}, merged: {c.mergedFiles}, new: {c.newFiles}"]

def run (o : BaseOptions) : m Outcome := do
  match ← Documents.load o.additional with
  | .error e => return .failed [] e
  | .ok additional =>
    let (c, counts) ← Documents.mergeOnto o.base additional
    conclude [] c o.output (o.closing counts)

end BaseOptions

namespace FixupOptions

def target (o : FixupOptions) : Path := o.output.getD o.input

def closing (o : FixupOptions) (r : FixupReport) : List String :=
  [s!"Fixups applied! Results saved to {o.target}",
    s!"  phantom branches removed: {r.phantomBranches}",
    s!"  declaration statements reconciled: {r.reconciledStatements}",
    s!"  duplicate functions removed: {r.duplicateFunctions}",
    s!"  markup callbacks removed: {r.markupCallbacks}",
    s!"  spurious branches removed: {r.spuriousBranches}"] ++
  (if o.backfill then [s!"  records backfilled: {r.backfilledRecords}"] else []) ++
  (if r.failedFiles > 0 then [s!"  files left unchanged after errors: {r.failedFiles}"] else [])

def run [Syntax.Parser] (o : FixupOptions) : m Outcome := do
  match ← Documents.load o.input with
  | .error e => return .failed [] e
  | .ok c =>
    let reader ← SourceReader.readAll { root := o.sourceRoot } c.paths
    let (c, report) := Fixups.apply c reader.text? o.backfill
    conclude [] c o.target (o.closing report)

end FixupOptions

def Command.run [Syntax.Parser] : Command → m Outcome
  | .merge o => o.run
  | .mergeBase o => o.run
  | .fixup o => o.run

end Coverage.CommandLine

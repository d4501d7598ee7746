import Coverage.Base
import Coverage.Document
import Coverage.Files.Storage
import Coverage.Keys

/-!
Coverage documents in files: read, written, and merged onto a base.
-/
namespace Coverage.Documents

variable {m : Type → Type} [Monad m] [Storage m]

def load (p : Path) : m (Except Failure CoverageMap) := do
  match ← Storage.readText? p with
  | some t => return CoverageMap.ofText t
  | none => return .error .storage

/-- All documents, or the failure of the first that cannot be read. -/
def loadAll : List Path → m (Except Failure (List CoverageMap))
  | [] => return .ok []
  | p :: r => do
    match ← load p with
    | .error e => return .error e
    | .ok c => return (← loadAll r).map (c :: ·)

/-- The folders above are made where they are missing. -/
def saveText (p : Path) (t : String) : m (Except Failure Unit) := do
  let parent := Path.parent p
  let ready ← if parent.isEmpty then pure true else Storage.makeFolders parent
  if !ready then return .error .storage
  return if ← Storage.writeText p t then .ok () else .error .storage

def saveJson (p : Path) (j : Json) : m (Except Failure Unit) := saveText p j.text

def save (p : Path) (c : CoverageMap) : m (Except Failure Unit) := saveText p (CoverageMap.text c)

/-- A base that cannot be read is an empty one. -/
def loadBase (p : Path) : m CoverageMap := return (← load p).toOption.getD ∅

/-- Coverage merged onto the base in a file, with the keys of both sides normalised. -/
def mergeOnto (p : Path) (additional : CoverageMap) : m (CoverageMap × Base.Counts) := do
  let base := Keys.normalizeMap (← loadBase p)
  let additional := Keys.normalizeMap additional
  return (Base.merge base additional, Base.counts base additional)

end Coverage.Documents

import Coverage.Files.Path

/-!
What the library asks of a place that holds files. No operation fails otherwise than by its answer.
-/
namespace Coverage

inductive EntryKind where
  | file
  | folder
  deriving DecidableEq

class Storage (m : Type → Type) where
  /-- What a path leads to, if to anything. -/
  kind? : Path → m (Option EntryKind)
  /-- The text of a file, if it can be read and is text. -/
  readText? : Path → m (Option String)
  /-- Every file below a folder, by the names that lead to it, in any order. -/
  filesBelow : Path → m (List (List String))
  /-- A folder is made, with those above it that are missing. Whether it is there afterwards. -/
  makeFolders : Path → m Bool
  /-- A file is made or replaced. Whether it could be. -/
  writeText : Path → String → m Bool

end Coverage

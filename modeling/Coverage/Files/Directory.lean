import Coverage.Files.Storage
import Coverage.SortedMap

/-!
A directory tree held in memory. Each node is kept by the names that lead to it, and a path is
followed step by step: every step has to start in a folder, and none leads above the top.
-/
namespace Coverage

inductive Content where
  | text (s : String)
  /-- Bytes that are no text. -/
  | binary
  deriving DecidableEq

inductive Node where
  | file (c : Content)
  | folder
  deriving DecidableEq

structure Directory where
  nodes : SortedMap String Node := ∅
  deriving DecidableEq

namespace Directory

/-- The top is a folder. -/
def node? (d : Directory) (place : List String) : Option Node :=
  if place.isEmpty then some .folder else d.nodes.get? (Path.ofNames place)

def isFolder (d : Directory) (place : List String) : Bool := d.node? place == some .folder

/-- Where a segment leads, as long as the step does not need what it leads to. -/
def step? (d : Directory) (place : List String) (segment : String) : Option (List String) :=
  if !d.isFolder place then none
  else if Path.isIdle segment then some place
  else if segment == ".." then if place.isEmpty then none else some place.dropLast
  else some (place ++ [segment])

/-- The place of a path, whether something is there or not. -/
def place? (d : Directory) (p : Path) : Option (List String) :=
  if p.isEmpty || Path.isAbsolute p then none else (Path.segments p).foldlM d.step? []

def find? (d : Directory) (p : Path) : Option Node := (d.place? p).bind d.node?

def put (d : Directory) (place : List String) (n : Node) : Directory :=
  ⟨d.nodes.insert (Path.ofNames place) n⟩

def kind? (d : Directory) (p : Path) : Option EntryKind :=
  (d.find? p).map fun
    | .file _ => .file
    | .folder => .folder

def readText? (d : Directory) (p : Path) : Option String :=
  match d.find? p with
  | some (.file (.text s)) => some s
  | _ => none

/-- The names that lead from one place to another below it. -/
def namesBelow? : List String → List String → Option (List String)
  | [], l => some l
  | a :: r, b :: s => if a == b then namesBelow? r s else none
  | _ :: _, [] => none

def files (d : Directory) : List (String × Content) :=
  d.nodes.entries.filterMap fun
    | (key, .file c) => some (key, c)
    | (_, .folder) => none

def filesBelow (d : Directory) (p : Path) : List (List String) :=
  match d.place? p with
  | none => []
  | some place => d.files.filterMap fun e => namesBelow? place (Path.segments e.1)

/-- A folder that is missing is made; a file cannot become one. -/
def enter? (x : Directory × List String) (segment : String) : Option (Directory × List String) := do
  let place ← x.1.step? x.2 segment
  match x.1.node? place with
  | some .folder => return (x.1, place)
  | some (.file _) => none
  | none => return (x.1.put place .folder, place)

/-- Folders that were made stay, also when a later one cannot be. -/
def enterAll (x : Directory × List String) : List String → Directory × Bool
  | [] => (x.1, true)
  | s :: r =>
    match enter? x s with
    | some y => enterAll y r
    | none => (x.1, false)

def makeFolders (d : Directory) (p : Path) : Directory × Bool :=
  if Path.isAbsolute p then (d, false) else enterAll (d, []) (Path.segments p)

/-- The place of a file that can be written: in a folder, and no folder itself. -/
def target? (d : Directory) (p : Path) : Option (List String) :=
  (d.place? p).filter fun place => !d.isFolder place

def write (d : Directory) (p : Path) (c : Content) : Directory × Bool :=
  match d.target? p with
  | some place => (d.put place (.file c), true)
  | none => (d, false)

/-- A file is removed; nothing else is. -/
def remove (d : Directory) (p : Path) : Directory :=
  match d.target? p with
  | some place => ⟨d.nodes.erase (Path.ofNames place)⟩
  | none => d

end Directory

instance : Storage (StateM Directory) where
  kind? p := fun d => (d.kind? p, d)
  readText? p := fun d => (d.readText? p, d)
  filesBelow p := fun d => (d.filesBelow p, d)
  makeFolders p := fun d => ((d.makeFolders p).2, (d.makeFolders p).1)
  writeText p s := fun d => ((d.write p (.text s)).2, (d.write p (.text s)).1)

end Coverage

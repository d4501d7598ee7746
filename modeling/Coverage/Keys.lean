import Coverage.Merge

/-!
Names of files in one spelling: without the scheme of a file address and with forward slashes.
Entries whose names become equal are merged.
-/
namespace Coverage.Keys

def scheme : List Char := "file://".toList

def withoutScheme (s : String) : List Char :=
  if scheme.isPrefixOf s.toList then s.toList.drop scheme.length else s.toList

def normalize (key : String) : String :=
  String.ofList ((withoutScheme key).map fun c => if c = '\\' then '/' else c)

/-- The entries under each normal name, in order of the names they had. -/
def groups (m : CoverageMap) : SortedMap String (List FileCoverage) :=
  m.entries.foldl (fun g e =>
    let key := normalize e.1
    g.insert key ((g.get? key).getD [] ++ [{ e.2 with path := key }])) ∅

def normalizeMap (m : CoverageMap) : CoverageMap :=
  .ofList <| (groups m).entries.filterMap fun e => (Merge.file? e.1 e.2 .max).map (e.1, ·)

end Coverage.Keys

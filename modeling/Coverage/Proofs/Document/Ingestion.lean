import Coverage.Proofs.Document.Shape

/-! Coverage documents. A file is read from every value that has its shape, and of a document those files
are kept whose records all have counts. -/
namespace Coverage

namespace Json

/-- An open end is null and means zero. -/
def IsCoordinate (j : Json) (n : UInt32) : Prop := j = null ∧ n = 0 ∨ IsUInt32 j n

/-- A kind is written as its tag, and no tag of its own stands under `other`. -/
def IsKind (j : Json) (k : BranchKind) : Prop := j = string k.tag ∧ k.IsCanonical

def locationFields : List String := ["line", "column"]

structure IsLocation (j : Json) (l : Location) : Prop where
  record : IsRecord locationFields j
  line : Optional IsCoordinate 0 (field? locationFields "line" j) l.line
  column : Optional IsCoordinate 0 (field? locationFields "column" j) l.column

def spanFields : List String := ["start", "end"]

structure IsSpan (j : Json) (s : Span) : Prop where
  record : IsRecord spanFields j
  start : Optional IsLocation default (field? spanFields "start" j) s.start
  stop : Optional IsLocation default (field? spanFields "end" j) s.stop

def functionFields : List String := ["name", "decl", "loc", "line"]

structure IsFunction (j : Json) (f : FunctionSite) : Prop where
  record : IsRecord functionFields j
  name : Optional IsString "" (field? functionFields "name" j) f.name
  declaration : Required IsSpan (field? functionFields "decl" j) f.declaration
  body : Required IsSpan (field? functionFields "loc" j) f.body
  line : Optional IsUInt32 0 (field? functionFields "line" j) f.line

def branchFields : List String := ["loc", "type", "locations", "line"]

structure IsBranch (j : Json) (b : BranchSite) : Prop where
  record : IsRecord branchFields j
  span : Required IsSpan (field? branchFields "loc" j) b.span
  kind : Required IsKind (field? branchFields "type" j) b.kind
  arms : Optional (IsListOf IsSpan) [] (field? branchFields "locations" j) b.arms
  line : Optional IsUInt32 0 (field? branchFields "line" j) b.line

def fileFields : List String := ["path", "statementMap", "fnMap", "branchMap", "s", "f", "b"]

/-- A map that is left out is empty. -/
structure IsFile (j : Json) (f : FileCoverage) : Prop where
  record : IsRecord fileFields j
  path : Optional IsString "" (field? fileFields "path" j) f.path
  statements : Optional (IsIdMapOf IsSpan) ∅ (field? fileFields "statementMap" j) f.statements.records
  functions : Optional (IsIdMapOf IsFunction) ∅ (field? fileFields "fnMap" j) f.functions.records
  branches : Optional (IsIdMapOf IsBranch) ∅ (field? fileFields "branchMap" j) f.branches.records
  statementHits : Optional (IsIdMapOf IsUInt64) ∅ (field? fileFields "s" j) f.statements.hits
  functionHits : Optional (IsIdMapOf IsUInt64) ∅ (field? fileFields "f" j) f.functions.hits
  branchHits : Optional (IsIdMapOf (IsListOf IsUInt64)) ∅ (field? fileFields "b" j) f.branches.hits

end Json

open Json

theorem BranchKind.isCanonical_ofTag (t : String) : (ofTag t).IsCanonical :=
  congrArg ofTag (tag_ofTag t)

theorem Location.accepts_coordinate : Accepts coordinate? IsCoordinate := by
  intro j hj n
  have hnumber := accepts_uint32 j hj n
  cases j with
  | null => simp [coordinate?, nullable?, IsCoordinate, IsUInt32, ofUInt32, ofNat, eq_comm]
  | bool | number | string | array | object | void =>
    simpa [coordinate?, nullable?, IsCoordinate, Function.comp_def] using hnumber

theorem Location.accepts : Accepts ofJson? IsLocation := by
  intro j hj l
  have hvalue {name} : ∀ x ∈ field? locationFields name j, x.IsValue := isValue_of_field? hj
  refine (fields?_bind_eq_some_iff locationFields (by decide) hj).trans ?_
  simp only [locationFields, List.map_cons, List.map_nil, Option.bind_eq_bind, Option.bind_eq_some_iff,
    Option.pure_def, Option.some.injEq]
  constructor
  · rintro ⟨hrecord, line, hline, column, hcolumn, rfl⟩
    exact ⟨hrecord, (accepts_coordinate.optional hvalue).1 hline,
      (accepts_coordinate.optional hvalue).1 hcolumn⟩
  · rintro ⟨hrecord, hline, hcolumn⟩
    exact ⟨hrecord, _, (accepts_coordinate.optional hvalue).2 hline, _,
      (accepts_coordinate.optional hvalue).2 hcolumn, rfl⟩

theorem Span.accepts : Accepts ofJson? IsSpan := by
  intro j hj s
  have hvalue {name} : ∀ x ∈ field? spanFields name j, x.IsValue := isValue_of_field? hj
  refine (fields?_bind_eq_some_iff spanFields (by decide) hj).trans ?_
  simp only [spanFields, List.map_cons, List.map_nil, Option.bind_eq_bind, Option.bind_eq_some_iff,
    Option.pure_def, Option.some.injEq]
  constructor
  · rintro ⟨hrecord, start, hstart, stop, hstop, rfl⟩
    exact ⟨hrecord, (Location.accepts.optional hvalue).1 hstart,
      (Location.accepts.optional hvalue).1 hstop⟩
  · rintro ⟨hrecord, hstart, hstop⟩
    exact ⟨hrecord, _, (Location.accepts.optional hvalue).2 hstart, _,
      (Location.accepts.optional hvalue).2 hstop, rfl⟩

theorem FunctionSite.accepts : Accepts ofJson? IsFunction := by
  intro j hj f
  have hvalue {name} : ∀ x ∈ field? functionFields name j, x.IsValue := isValue_of_field? hj
  refine (fields?_bind_eq_some_iff functionFields (by decide) hj).trans ?_
  simp only [functionFields, List.map_cons, List.map_nil, Option.bind_eq_bind, Option.bind_eq_some_iff,
    Option.pure_def, Option.some.injEq]
  constructor
  · rintro ⟨hrecord, name, hname, declaration, hdeclaration, body, hbody, line, hline, rfl⟩
    exact ⟨hrecord, (accepts_string.optional hvalue).1 hname,
      (Span.accepts.required hvalue).1 hdeclaration, (Span.accepts.required hvalue).1 hbody,
      (accepts_uint32.optional hvalue).1 hline⟩
  · rintro ⟨hrecord, hname, hdeclaration, hbody, hline⟩
    exact ⟨hrecord, _, (accepts_string.optional hvalue).2 hname, _,
      (Span.accepts.required hvalue).2 hdeclaration, _, (Span.accepts.required hvalue).2 hbody, _,
      (accepts_uint32.optional hvalue).2 hline, rfl⟩

theorem BranchKind.required_iff {field : Option Json} {k : BranchKind} :
    Required IsKind field k ↔ ∃ t, Required IsString field t ∧ ofTag t = k := by
  constructor
  · rintro ⟨j, hfield, hj, hcanonical⟩
    exact ⟨k.tag, ⟨j, hfield, hj⟩, hcanonical⟩
  · rintro ⟨t, ⟨j, hfield, hj⟩, rfl⟩
    exact ⟨j, hfield, by rw [tag_ofTag]; exact hj, isCanonical_ofTag t⟩

theorem BranchSite.accepts : Accepts ofJson? IsBranch := by
  intro j hj b
  have hvalue {name} : ∀ x ∈ field? branchFields name j, x.IsValue := isValue_of_field? hj
  refine (fields?_bind_eq_some_iff branchFields (by decide) hj).trans ?_
  simp only [branchFields, List.map_cons, List.map_nil, Option.bind_eq_bind, Option.bind_eq_some_iff,
    Option.pure_def, Option.some.injEq]
  constructor
  · rintro ⟨hrecord, span, hspan, tag, htag, arms, harms, line, hline, rfl⟩
    exact ⟨hrecord, (Span.accepts.required hvalue).1 hspan,
      BranchKind.required_iff.2 ⟨tag, (accepts_string.required hvalue).1 htag, rfl⟩,
      ((accepts_list Span.accepts).optional hvalue).1 harms, (accepts_uint32.optional hvalue).1 hline⟩
  · rintro ⟨hrecord, hspan, hkind, harms, hline⟩
    obtain ⟨tag, htag, hkind⟩ := BranchKind.required_iff.1 hkind
    refine ⟨hrecord, _, (Span.accepts.required hvalue).2 hspan, tag,
      (accepts_string.required hvalue).2 htag, _, ((accepts_list Span.accepts).optional hvalue).2 harms,
      _, (accepts_uint32.optional hvalue).2 hline, ?_⟩
    rw [hkind]

theorem FileCoverage.accepts : Accepts ofJson? IsFile := by
  intro j hj f
  have hvalue {name} : ∀ x ∈ field? fileFields name j, x.IsValue := isValue_of_field? hj
  have hspans := accepts_idMap Span.accepts
  have hfunctions := accepts_idMap FunctionSite.accepts
  have hbranches := accepts_idMap BranchSite.accepts
  have hhits := accepts_idMap accepts_uint64
  have harms := accepts_idMap (accepts_list accepts_uint64)
  refine (fields?_bind_eq_some_iff fileFields (by decide) hj).trans ?_
  simp only [fileFields, List.map_cons, List.map_nil, Option.bind_eq_bind, Option.bind_eq_some_iff,
    Option.pure_def, Option.some.injEq]
  constructor
  · rintro ⟨hrecord, path, hpath, ss, hss, s, hs, fs, hfs, f, hf, bs, hbs, b, hb, rfl⟩
    exact ⟨hrecord, (accepts_string.optional hvalue).1 hpath, (hspans.optional hvalue).1 hss,
      (hfunctions.optional hvalue).1 hfs, (hbranches.optional hvalue).1 hbs,
      (hhits.optional hvalue).1 hs, (hhits.optional hvalue).1 hf, (harms.optional hvalue).1 hb⟩
  · rintro ⟨hrecord, hpath, hss, hfs, hbs, hs, hf, hb⟩
    exact ⟨hrecord, _, (accepts_string.optional hvalue).2 hpath, _, (hspans.optional hvalue).2 hss, _,
      (hhits.optional hvalue).2 hs, _, (hfunctions.optional hvalue).2 hfs, _,
      (hhits.optional hvalue).2 hf, _, (hbranches.optional hvalue).2 hbs, _,
      (harms.optional hvalue).2 hb, rfl⟩

namespace FileCoverage
variable {f g : FileCoverage} {path : String} {j : Json}

/-- Every record of a statement, function or branch has a count, and every arm of a branch. -/
structure Complete (f : FileCoverage) : Prop where
  statements : f.statements.Counted
  functions : f.functions.Counted
  branches : ArmsCounted f.branches

theorem valid_iff_complete : f.Valid ↔ f.Complete :=
  valid_iff.trans ⟨fun ⟨hs, hf, hb⟩ => ⟨hs, hf, hb⟩, fun ⟨hs, hf, hb⟩ => ⟨hs, hf, hb⟩⟩

/-- The name of a file has no part in whether it is valid. -/
theorem valid_named_iff : (f.named path).Valid ↔ f.Valid := by
  rw [named]
  split
  · rw [valid_iff, valid_iff]
  · rfl

theorem entry_eq_some_iff (hj : j.IsValue) :
    ofEntry? path j = some f ↔ ∃ g, j.IsFile g ∧ g.Complete ∧ f = g.named path := by
  unfold ofEntry?
  rw [Option.bind_eq_some_iff]
  refine exists_congr fun g => and_congr (accepts j hj g) ?_
  rw [Option.ite_none_right_eq_some, valid_named_iff, valid_iff_complete, Option.some.injEq, eq_comm]

end FileCoverage

namespace CoverageMap
variable {o o' : List (String × Json)} {m m' : CoverageMap} {path : String} {f : FileCoverage}

/-- The files that are kept of the members of a document. -/
structure Ingests (o : List (String × Json)) (m : CoverageMap) : Prop where
  paths : ∀ path, path ∈ m.paths ↔ ∃ j g, (path, j) ∈ o ∧ j.IsFile g ∧ g.Complete
  files : ∀ path f, m.get? path = some f ↔
    ∃ j g, (path, j) ∈ o ∧ j.IsFile g ∧ g.Complete ∧ f = g.named path

theorem ingests_of_object (h : (object o).IsValue) :
    ∃ m, ofJson (object o) = .ok m ∧ Ingests o m := by
  obtain ⟨hnames, hparts⟩ := isValue_object_iff.1 h
  have hfiles (path f) : (SortedMap.ofList
      (o.filterMap fun e => (FileCoverage.ofEntry? e.1 e.2).map (e.1, ·))).get? path = some f ↔
        ∃ j g, (path, j) ∈ o ∧ j.IsFile g ∧ g.Complete ∧ f = g.named path := by
    rw [SortedMap.get?_ofList_filterMap hnames, Option.bind_eq_some_iff]
    simp only [SortedMap.lookup_eq_some_iff_of_nodup hnames, exists_and_left]
    exact exists_congr fun j => and_congr_right fun hj =>
      FileCoverage.entry_eq_some_iff (hparts _ hj)
  refine ⟨_, rfl, fun path => ?_, hfiles⟩
  rw [paths, SortedMap.mem_keys_iff, Option.isSome_iff_exists]
  constructor
  · rintro ⟨f, hf⟩
    obtain ⟨j, g, hj, hg, hcomplete, -⟩ := (hfiles path f).1 hf
    exact ⟨j, g, hj, hg, hcomplete⟩
  · rintro ⟨j, g, hj, hg, hcomplete⟩
    exact ⟨_, (hfiles path _).2 ⟨j, g, hj, hg, hcomplete, rfl⟩⟩

theorem ofJson_eq_error_iff {j : Json} {e : Failure} :
    ofJson j = .error e ↔ e = .notAnObject ∧ ∀ o, j ≠ object o := by
  cases j <;> simp [ofJson, eq_comm]

/-- A file does not depend on the other members of the document. -/
theorem Ingests.get?_eq (h : Ingests o m) (h' : Ingests o' m')
    (hpath : ∀ j, (path, j) ∈ o ↔ (path, j) ∈ o') : m.get? path = m'.get? path := by
  refine Option.ext fun f => ?_
  rw [h.files, h'.files]
  simp only [hpath]

/-- Only what is no object is refused. Of an object exactly those members are kept that have the shape
of a file and are complete, under the name they have or else the one they stand under, and each
whatever the others are. -/
theorem ingestion_of_value (j : Json) (h : j.IsValue) :
    (∀ e, ofJson j = .error e ↔ e = .notAnObject ∧ ∀ o, j ≠ object o) ∧
    ∀ o, j = object o → ∃ m, ofJson j = .ok m ∧ Ingests o m ∧
      ∀ o' m' path, (object o').IsValue → ofJson (object o') = .ok m' →
        (∀ x, (path, x) ∈ o ↔ (path, x) ∈ o') → m.get? path = m'.get? path := by
  refine ⟨fun e => ofJson_eq_error_iff, ?_⟩
  rintro o rfl
  obtain ⟨m, hm, hingests⟩ := ingests_of_object h
  refine ⟨m, hm, hingests, fun o' m' path h' hm' hpath => ?_⟩
  obtain ⟨n, hn, hingests'⟩ := ingests_of_object h'
  obtain rfl := Except.ok.inj (hm'.symm.trans hn)
  exact hingests.get?_eq hingests' hpath

/-- One file in which a statement with an open end ran, and one whose count has no place for it. -/
def sampleMembers : List (String × Json) :=
  [("/a.ts", object [
      ("statementMap", object [("0", object [
        ("start", array [ofNat 3, ofNat 0]), ("end", object [("line", ofNat 3), ("column", null)])])]),
      ("s", object [("0", ofNat 2)])]),
    ("/b.ts", object [("path", string "b.ts"), ("s", object [("00", ofNat 1)])])]

theorem ingestion_of_value_sample : (object sampleMembers).IsValue ∧
    ∃ m, ofJson (object sampleMembers) = .ok m ∧ Ingests sampleMembers m ∧ m.paths = ["/a.ts"] := by
  have hvalue : (object sampleMembers).IsValue := by
    simp [sampleMembers, IsValue, IsValueMembers, IsValueList, ofNat]
  obtain ⟨m, hm, hingests, -⟩ := (ingestion_of_value _ hvalue).2 sampleMembers rfl
  refine ⟨hvalue, m, hm, hingests, ?_⟩
  obtain rfl := Except.ok.inj hm
  decide

end CoverageMap
end Coverage

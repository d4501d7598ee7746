import Coverage.Proofs.Document.Ingestion
import Coverage.Proofs.Json.RoundTrip
import Mathlib.Data.List.Perm.Basic

/-! Coverage in text. What is written for a file has the shape of that file, so a map of files that can
be written is read back from its own text, and what is read from a text can be written. -/
namespace Coverage

namespace Json
variable {α : Type} {P : Json → α → Prop} {d : α → Json} {a : α} {names : List String} {name : String}
  {o : List (String × Json)} {x : Json} {n : Nat}

section Written

/-- The members that are written for a record are its fields in order. -/
def FieldsOf (names : List String) (o : List (String × Json)) : Prop := o.map (·.1) = names ∧ names.Nodup

theorem field?_written (ho : FieldsOf names o) (hx : (name, x) ∈ o) :
    field? names name (object o).canonical = some x.canonical := by
  obtain ⟨rfl, hnodup⟩ := ho
  have hkeys : ((o.map fun e => (e.1, e.2.canonical)).map (·.1)).Nodup := by
    rw [List.map_map]
    exact hnodup
  rw [canonical_object, field?, lookup_collapse hkeys, SortedMap.lookup_map fun _ => canonical,
    (SortedMap.lookup_eq_some_iff_of_nodup hnodup).2 hx]
  rfl

theorem required_written (h : P x.canonical a) (ho : FieldsOf names o) (hx : (name, x) ∈ o) :
    Required P (field? names name (object o).canonical) a :=
  ⟨_, field?_written ho hx, h⟩

theorem optional_written {absent : α} (h : P x.canonical a) (ho : FieldsOf names o)
    (hx : (name, x) ∈ o) : Optional P absent (field? names name (object o).canonical) a := by
  rw [field?_written ho hx]
  exact h

theorem isRecord_written : IsRecord names (object o).canonical := by
  rw [canonical_object]
  trivial

theorem isListOf_written {l : List α} (h : ∀ x ∈ l, P (d x).canonical x) :
    IsListOf P (array (l.map d)).canonical l := by
  refine ⟨_, canonical_array, ?_⟩
  rw [List.map_map, List.forall₂_map_left_iff, List.forall₂_same]
  exact h

theorem isIdMapOf_written {m : SortedMap Id α} (h : ∀ id x, m.get? id = some x → P (d x).canonical x) :
    IsIdMapOf P (m.toJson d).canonical m := by
  have hforall : List.Forall₂ (fun e r => e.1 = toString r.1 ∧ P e.2 r.2)
      ((m.entries.map fun e => (toString e.1, d e.2)).map fun e => (e.1, e.2.canonical)) m.entries := by
    rw [List.map_map, List.forall₂_map_left_iff, List.forall₂_same]
    exact fun e he => ⟨rfl, h e.1 e.2 (SortedMap.get?_eq_some_iff.2 he)⟩
  have hkeys : (((m.entries.map fun e => (toString e.1, d e.2)).map fun e =>
      (e.1, e.2.canonical)).map (·.1)).Nodup := by
    have hids : (m.keys.map toString).Nodup := m.nodup_keys.map fun _ _ => toString_injective
    rw [SortedMap.keys, List.map_map] at hids
    rw [List.map_map, List.map_map]
    exact hids
  obtain ⟨l, hl, hperm⟩ := List.perm_comp_forall₂ (perm_collapse hkeys).symm hforall
  exact ⟨_, l, canonical_object, hperm, hl⟩

theorem isUInt32_written (k : UInt32) : IsUInt32 (ofUInt32 k).canonical k := rfl
theorem isUInt64_written (k : UInt64) : IsUInt64 (ofUInt64 k).canonical k := rfl
theorem isString_written (s : String) : IsString (string s).canonical s := rfl

theorem isCoordinate_written (k : UInt32) : IsCoordinate (ofUInt32 k).canonical k := .inr rfl

theorem isKind_written {k : BranchKind} (h : k.IsCanonical) : IsKind (string k.tag).canonical k := ⟨rfl, h⟩

end Written
section Plain

theorem isPlainTo_uint32 (k : UInt32) : (ofUInt32 k).IsPlainTo n :=
  isPlainTo_natural (Nat.lt_trans k.toNat_lt (by decide))

theorem isPlainTo_uint64 (k : UInt64) : (ofUInt64 k).IsPlainTo n := isPlainTo_natural k.toNat_lt

theorem isPlainTo_list {l : List α} (h : ∀ x, (d x).IsPlainTo n) :
    (array (l.map d)).IsPlainTo (n + 1) :=
  isPlainTo_array_iff.2 (List.forall_mem_map.2 fun x _ => h x)

theorem isPlainTo_idMap {m : SortedMap Id α} (h : ∀ x, (d x).IsPlainTo n) :
    (m.toJson d).IsPlainTo (n + 1) :=
  isPlainTo_object_iff.2 (List.forall_mem_map.2 fun e _ => h e.2)

end Plain
end Json

open Json

/-- A kind is canonical unless it hides a tag that has a name of its own. -/
theorem BranchKind.isCanonical_iff {k : BranchKind} : k.IsCanonical ↔
    ∀ t, k = .other t → t ∉ ["if", "cond-expr", "binary-expr", "switch", "default-arg"] := by
  cases k with
  | other t =>
    simp only [IsCanonical, tag, ofTag, other.injEq, forall_eq', List.mem_cons, List.not_mem_nil]
    grind
  | ifElse | conditional | logical | switchCase | defaultValue => simp [IsCanonical, tag, ofTag]

theorem Location.isLocation_toJson (l : Location) : IsLocation l.toJson.canonical l where
  record := isRecord_written
  line := optional_written (isCoordinate_written _) ⟨rfl, by decide⟩ (by simp)
  column := optional_written (isCoordinate_written _) ⟨rfl, by decide⟩ (by simp)

theorem Location.isPlainTo_toJson (l : Location) : l.toJson.IsPlainTo 1 := by
  simp [toJson, isPlainTo_object_iff, isPlainTo_uint32]

theorem Span.isSpan_toJson (s : Span) : IsSpan s.toJson.canonical s where
  record := isRecord_written
  start := optional_written s.start.isLocation_toJson ⟨rfl, by decide⟩ (by simp)
  stop := optional_written s.stop.isLocation_toJson ⟨rfl, by decide⟩ (by simp)

theorem Span.isPlainTo_toJson (s : Span) : s.toJson.IsPlainTo 2 := by
  simp [toJson, isPlainTo_object_iff, Location.isPlainTo_toJson]

theorem FunctionSite.isFunction_toJson (f : FunctionSite) : IsFunction f.toJson.canonical f where
  record := isRecord_written
  name := optional_written (isString_written _) ⟨rfl, by decide⟩ (by simp)
  declaration := required_written f.declaration.isSpan_toJson ⟨rfl, by decide⟩ (by simp)
  body := required_written f.body.isSpan_toJson ⟨rfl, by decide⟩ (by simp)
  line := optional_written (isUInt32_written _) ⟨rfl, by decide⟩ (by simp)

theorem FunctionSite.isPlainTo_toJson (f : FunctionSite) : f.toJson.IsPlainTo 3 := by
  have hspan (s : Span) : s.toJson.IsPlainTo 2 := s.isPlainTo_toJson
  simp [toJson, isPlainTo_object_iff, isPlainTo_string, isPlainTo_uint32, hspan]

theorem BranchSite.isBranch_toJson {b : BranchSite} (h : b.kind.IsCanonical) :
    IsBranch b.toJson.canonical b where
  record := isRecord_written
  span := required_written b.span.isSpan_toJson ⟨rfl, by decide⟩ (by simp)
  kind := required_written (isKind_written h) ⟨rfl, by decide⟩ (by simp)
  arms := optional_written (isListOf_written fun s _ => s.isSpan_toJson) ⟨rfl, by decide⟩ (by simp)
  line := optional_written (isUInt32_written _) ⟨rfl, by decide⟩ (by simp)

theorem BranchSite.isPlainTo_toJson (b : BranchSite) : b.toJson.IsPlainTo 4 := by
  have hspan (s : Span) : s.toJson.IsPlainTo 2 := s.isPlainTo_toJson
  have harms : (array (b.arms.map Span.toJson)).IsPlainTo 3 := isPlainTo_list hspan
  simp [toJson, isPlainTo_object_iff, isPlainTo_string, isPlainTo_uint32, harms,
    (hspan b.span).mono (by decide : 2 ≤ 3)]

namespace FileCoverage
variable {f : FileCoverage} {path : String}

/-- Every branch has a kind that its tag stands for. -/
def KindsCanonical (f : FileCoverage) : Prop :=
  ∀ id b, f.branches.records.get? id = some b → b.kind.IsCanonical

theorem isFile_toJson (h : f.KindsCanonical) : IsFile f.toJson.canonical f := by
  have hhits (m : SortedMap Id Hits) : IsIdMapOf IsUInt64 (m.toJson hitsToJson).canonical m :=
    isIdMapOf_written fun _ n _ => isUInt64_written n
  have harms (m : SortedMap Id (List Hits)) :
      IsIdMapOf (IsListOf IsUInt64) (m.toJson armHitsToJson).canonical m :=
    isIdMapOf_written fun _ _ _ => isListOf_written fun n _ => isUInt64_written n
  have hspans (m : SortedMap Id Span) : IsIdMapOf IsSpan (m.toJson Span.toJson).canonical m :=
    isIdMapOf_written fun _ s _ => s.isSpan_toJson
  have hfunctions (m : SortedMap Id FunctionSite) :
      IsIdMapOf IsFunction (m.toJson FunctionSite.toJson).canonical m :=
    isIdMapOf_written fun _ g _ => g.isFunction_toJson
  have hbranches : IsIdMapOf IsBranch (f.branches.records.toJson BranchSite.toJson).canonical
      f.branches.records := isIdMapOf_written fun id b hb => BranchSite.isBranch_toJson (h id b hb)
  exact {
    record := isRecord_written
    path := optional_written (isString_written _) ⟨rfl, by decide⟩ (by simp)
    statements := optional_written (hspans _) ⟨rfl, by decide⟩ (by simp)
    functions := optional_written (hfunctions _) ⟨rfl, by decide⟩ (by simp)
    branches := optional_written hbranches ⟨rfl, by decide⟩ (by simp)
    statementHits := optional_written (hhits _) ⟨rfl, by decide⟩ (by simp)
    functionHits := optional_written (hhits _) ⟨rfl, by decide⟩ (by simp)
    branchHits := optional_written (harms _) ⟨rfl, by decide⟩ (by simp) }

theorem isPlainTo_toJson (f : FileCoverage) : f.toJson.IsPlainTo 6 := by
  have hspans : (f.statements.records.toJson Span.toJson).IsPlainTo 5 :=
    isPlainTo_idMap fun s => s.isPlainTo_toJson.mono (by decide)
  have hfunctions : (f.functions.records.toJson FunctionSite.toJson).IsPlainTo 5 :=
    isPlainTo_idMap fun g => g.isPlainTo_toJson.mono (by decide)
  have hbranches : (f.branches.records.toJson BranchSite.toJson).IsPlainTo 5 :=
    isPlainTo_idMap fun b => b.isPlainTo_toJson
  have hhits (m : SortedMap Id Hits) : (m.toJson hitsToJson).IsPlainTo 5 :=
    isPlainTo_idMap isPlainTo_uint64
  have harms : (f.branches.hits.toJson armHitsToJson).IsPlainTo 5 :=
    isPlainTo_idMap fun l => isPlainTo_list (n := 3) isPlainTo_uint64
  simp [toJson, isPlainTo_object_iff, isPlainTo_string, hspans, hfunctions, hbranches, hhits, harms]

theorem named_of_path (h : f.path ≠ "" ∨ f.path = path) : f.named path = f := by
  rw [named]
  split
  · next hempty =>
    rcases h with h | h
    · exact (h hempty).elim
    · rw [← h]
  · rfl

theorem path_named (f : FileCoverage) (path : String) :
    (f.named path).path ≠ "" ∨ (f.named path).path = path := by
  rw [named]
  split
  · exact .inr rfl
  · next h => exact .inl h

/-- A file that is kept under a path, and comes back from what is written for it. -/
structure Writable (path : String) (f : FileCoverage) : Prop where
  valid : f.Valid
  path : f.path ≠ "" ∨ f.path = path
  kinds : f.KindsCanonical

theorem Writable.entry_toJson (h : f.Writable path) :
    ofEntry? path f.toJson.canonical = some f := by
  have hvalue : f.toJson.canonical.IsValue := isValue_canonical (isSound_of_isPlain f.isPlainTo_toJson.1)
  exact (entry_eq_some_iff hvalue).2
    ⟨f, isFile_toJson h.kinds, valid_iff_complete.1 h.valid, (named_of_path h.path).symm⟩

theorem kindsCanonical_named : (f.named path).KindsCanonical ↔ f.KindsCanonical := by
  rw [named]
  split <;> rfl

theorem kindsCanonical_of_isFile {j : Json} (h : j.IsFile f) : f.KindsCanonical := by
  have hkind : ∀ j b, IsBranch j b → b.kind.IsCanonical := by
    intro j b hb
    obtain ⟨x, -, -, hcanonical⟩ := hb.kind
    exact hcanonical
  have hbranches := h.branches
  cases hfield : field? fileFields "branchMap" j with
  | none =>
    rw [hfield] at hbranches
    have hempty : f.branches.records = ∅ := hbranches
    intro id b hb
    rw [hempty] at hb
    exact (Option.some_ne_none b hb.symm).elim
  | some x =>
    rw [hfield] at hbranches
    exact IsIdMapOf.forall_of_get? hbranches hkind

end FileCoverage

namespace CoverageMap
variable {m : CoverageMap} {t : String}

/-- Every file of the map is one that can be read back. -/
def Writable (m : CoverageMap) : Prop := ∀ path f, m.get? path = some f → f.Writable path

theorem canonical_toJson (m : CoverageMap) :
    (toJson m).canonical = object (m.mapWithKey fun _ f => f.toJson.canonical).entries := by
  have hmembers : ((m.entries.map fun e => (e.1, e.2.toJson)).map fun e => (e.1, e.2.canonical)) =
      (m.mapWithKey fun _ f => f.toJson.canonical).entries := List.map_map
  rw [toJson, canonical_object, hmembers, collapse, SortedMap.ofList_entries]

theorem ofText_text (h : m.Writable) : ofText (text m) = .ok m := by
  have hplain : (toJson m).IsPlainTo 7 :=
    isPlainTo_object_iff.2 (List.forall_mem_map.2 fun e _ => e.2.isPlainTo_toJson)
  have hread : Json.ofText? (text m) = some (toJson m).canonical :=
    ofText?_text hplain.1 (Nat.le_trans hplain.2 (by decide))
  have hkept : (m.entries.filterMap fun e =>
      (FileCoverage.ofEntry? e.1 e.2.toJson.canonical).map (e.1, ·)) = m.entries := by
    rw [List.filterMap_congr fun e he => ?_, List.filterMap_some]
    rw [(h e.1 e.2 (SortedMap.get?_eq_some_iff.2 he)).entry_toJson]
    rfl
  rw [ofText, hread, canonical_toJson]
  simp only [ofJson, SortedMap.entries_mapWithKey, List.filterMap_map, Function.comp_def, hkept,
    SortedMap.ofList_entries]

/-- A text that is read holds an object, and its members are ingested. -/
theorem ingests_of_ofText (h : ofText t = .ok m) :
    ∃ o, Json.ofText? t = some (object o) ∧ Ingests o m := by
  rw [ofText] at h
  split at h
  · simp at h
  · next j hj =>
    cases j with
    | object o =>
      obtain ⟨n, hn, hingests⟩ := ingests_of_object (isValue_of_ofText? hj)
      obtain rfl := Except.ok.inj (h.symm.trans hn)
      exact ⟨o, hj, hingests⟩
    | null | bool | number | string | array | void => simp [ofJson] at h

theorem writable_of_ofText (h : ofText t = .ok m) : m.Writable := by
  intro path f hf
  obtain ⟨o, -, hingests⟩ := ingests_of_ofText h
  obtain ⟨x, g, -, hg, hcomplete, rfl⟩ := (hingests.files path f).1 hf
  exact {
    valid := FileCoverage.valid_named_iff.2 (FileCoverage.valid_iff_complete.2 hcomplete)
    path := g.path_named path
    kinds := FileCoverage.kindsCanonical_named.2 (FileCoverage.kindsCanonical_of_isFile hg) }

/-- A map whose files can be written is read back from its own text, and so is all that was read from
any text. -/
theorem roundTrip_of_text (m : CoverageMap) :
    (m.Writable → ofText (text m) = .ok m) ∧ ∀ t, ofText t = .ok m → ofText (text m) = .ok m :=
  ⟨ofText_text, fun _ ht => ofText_text (writable_of_ofText ht)⟩

/-- A file with a name of its own, a count that is as great as can be, and a branch of a foreign kind. -/
def sampleMap : CoverageMap := .ofList [("/a.ts", {
  path := "a.ts"
  statements := Table.empty.add (.ofNumbers 1 0 1 12) (-1)
  functions := ∅
  branches := Table.empty.add ⟨.ofNumbers 3 0 5 1, .other "loop", [.ofNumbers 3 8 5 1], 3⟩ [7] })]

theorem writable_sampleMap : sampleMap.Writable := by
  intro path f hf
  obtain ⟨rfl, rfl⟩ := Prod.mk.inj (List.mem_singleton.1 (SortedMap.get?_eq_some_iff.1 hf))
  refine ⟨by decide, .inl (by decide), fun id b hb => ?_⟩
  obtain ⟨rfl, rfl⟩ := Prod.mk.inj (List.mem_singleton.1 (SortedMap.get?_eq_some_iff.1 hb))
  exact BranchKind.isCanonical_iff.2 (by simp)

theorem roundTrip_of_text_sample : sampleMap.Writable ∧
    ∃ t, ofText t = .ok sampleMap ∧ ofText (text sampleMap) = .ok sampleMap := by
  have hread := (roundTrip_of_text sampleMap).1 writable_sampleMap
  exact ⟨writable_sampleMap, text sampleMap, hread, (roundTrip_of_text sampleMap).2 _ hread⟩

end CoverageMap
end Coverage

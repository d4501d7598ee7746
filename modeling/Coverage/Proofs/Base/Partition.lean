import Coverage.Files.Directory
import Coverage.Files.Documents
import Coverage.Proofs.Base.Files
import Coverage.Proofs.Merge.Incremental

/-! The files of a map merged onto a base, and the counts that say how many of them the base alone has,
both sides have and are new. A base that cannot be read is an empty one. -/
namespace Coverage

open Merge

theorem FileCoverage.sameShape_assemble {sources : List FileCoverage} (others : List FileCoverage)
    (path : String) (s : Strategy) (p : Split sources) :
    (countDirective others (assemble path s p p p)).SameShape p.source where
  statements := sameShape_countDirective.trans (sameShape_raised _ _)
  functions := by
    rw [countDirective_functions]
    exact sameShape_raised _ _
  branches := by
    rw [countDirective_branches]
    exact sameShape_raised _ _
  arms := by
    rw [countDirective_branches]
    exact length_hits_raised _ _

namespace Base
variable {base additional : CoverageMap} {path : String} {a b : FileCoverage}

theorem source_supplier (b a : FileCoverage) :
    (supplier b a).source = b ∨ (supplier b a).source = a := by
  rw [supplier]
  split
  · exact .inl rfl
  · exact .inr rfl

theorem sameShape_file (path : String) (hb : b.Valid) (ha : a.Valid) :
    (file path b a).SameShape b ∨ (file path b a).SameShape a := by
  have h := FileCoverage.sameShape_assemble (supplier b a).others path .max (supplier b a)
  rw [file_of_valid path hb ha]
  rcases source_supplier b a with hs | hs
  · rw [hs] at h
    exact .inl h
  · rw [hs] at h
    exact .inr h

theorem isSome_get?_merge (base additional : CoverageMap) (path : String) :
    ((merge base additional).get? path).isSome =
      ((additional.get? path).isSome || (base.get? path).isSome) := by
  rw [get?_merge, Option.isSome_or, Option.isSome_map]

theorem size_both (base additional : CoverageMap) :
    (additional.filter fun path _ => base.contains path).size =
      (base.filter fun path _ => additional.contains path).size := by
  refine SortedMap.size_eq_of_isSome_get? fun path => ?_
  rw [SortedMap.get?_filter, SortedMap.get?_filter]
  cases ha : additional.get? path <;> cases hb : base.get? path <;> simp [SortedMap.contains, ha, hb]

/-- Of the merged files the additional side has some, and the base alone has the others. -/
theorem size_merge (base additional : CoverageMap) : (merge base additional).size =
    additional.size + (base.filter fun path _ => !additional.contains path).size := by
  have hold : ((merge base additional).filter fun path _ => additional.contains path).size =
      additional.size := by
    refine SortedMap.size_eq_of_isSome_get? fun path => ?_
    have hsome := isSome_get?_merge base additional path
    rw [SortedMap.get?_filter]
    cases ha : additional.get? path <;> cases hm : (merge base additional).get? path <;>
      simp_all [SortedMap.contains]
  have hnew : ((merge base additional).filter fun path _ => !additional.contains path).size =
      (base.filter fun path _ => !additional.contains path).size := by
    refine SortedMap.size_eq_of_isSome_get? fun path => ?_
    rw [SortedMap.get?_filter, SortedMap.get?_filter]
    cases ha : additional.get? path with
    | none => rw [get?_merge_of_base_only ha]
    | some a =>
      cases (merge base additional).get? path <;> cases base.get? path <;>
        simp [SortedMap.contains, ha]
  rw [SortedMap.size_filter (fun path _ => additional.contains path), hold, hnew]

/-- The files of `c` are those of the base and of the additional side, and `n` counts them. A file of
one side is as it was there, and one of both has the structure of either. -/
structure Partitioned (base additional c : CoverageMap) (n : Counts) : Prop where
  paths : ∀ path, path ∈ c.paths ↔ path ∈ base.paths ∨ path ∈ additional.paths
  baseFiles : n.baseFiles = base.size
  additionalFiles : n.additionalFiles = additional.size
  mergedFiles : n.mergedFiles = (base.paths.filter (· ∈ additional.paths)).length
  ofBase : n.baseFiles = n.baseOnlyFiles + n.mergedFiles
  ofAdditional : n.additionalFiles = n.newFiles + n.mergedFiles
  size : c.size = n.baseOnlyFiles + n.mergedFiles + n.newFiles
  baseOnly : ∀ path f, base.get? path = some f → additional.get? path = none → c.get? path = some f
  new : ∀ path f, base.get? path = none → additional.get? path = some f → c.get? path = some f
  both : ∀ path b a, base.get? path = some b → additional.get? path = some a → b.Valid → a.Valid →
    ∃ f, c.get? path = some f ∧ (f.SameShape b ∨ f.SameShape a)

theorem partitioned_merge (base additional : CoverageMap) :
    Partitioned base additional (merge base additional) (counts base additional) where
  paths path := by
    simp only [CoverageMap.paths, SortedMap.mem_keys_iff, isSome_get?_merge, Bool.or_eq_true]
    exact or_comm
  baseFiles := rfl
  additionalFiles := rfl
  mergedFiles := by
    change (additional.filter fun path _ => base.contains path).size = _
    have hcontains : additional.contains = fun path => decide (path ∈ additional.paths) := by
      funext path
      rw [Bool.eq_iff_iff, decide_eq_true_iff]
      exact SortedMap.contains_eq_true_iff
    rw [size_both, SortedMap.size_filter_keys additional.contains, hcontains]
    rfl
  ofBase := by
    change base.size = _ + (additional.filter fun path _ => base.contains path).size
    rw [size_both, SortedMap.size_filter (fun path _ => additional.contains path), Nat.add_comm]
    rfl
  ofAdditional := by
    change additional.size = _
    rw [SortedMap.size_filter (fun path _ => base.contains path), Nat.add_comm]
    rfl
  size := by
    rw [size_merge, SortedMap.size_filter (fun path _ => base.contains path) additional]
    simp only [counts]
    omega
  baseOnly path f hb ha := (get?_merge_of_base_only ha).trans hb
  new path f hb ha := (get?_merge_of_new hb).trans ha
  both path b a hb ha hvb hva := ⟨_, get?_merge_of_both hb ha, sameShape_file path hvb hva⟩

theorem counts_of_no_base (additional : CoverageMap) :
    counts ∅ additional = ⟨0, additional.size, 0, 0, additional.size⟩ := by
  have h := partitioned_merge ∅ additional
  have hbase : (counts ∅ additional).baseFiles = 0 := h.baseFiles
  have hofBase := h.ofBase
  have hofAdditional := h.ofAdditional
  have hadditional := h.additionalFiles
  cases hc : counts ∅ additional
  simp only [hc] at hbase hofBase hofAdditional hadditional
  simp only [Counts.mk.injEq]
  omega

theorem merge_of_no_base (additional : CoverageMap) : merge ∅ additional = additional :=
  SortedMap.ext_get? fun _ => get?_merge_of_new rfl

/-- A base file that is missing or cannot be read, holds no JSON, or holds a value that is no object. -/
inductive NoBase : Option String → Prop
  | missing : NoBase none
  | notJson {t : String} (h : Json.ofText? t = none) : NoBase (some t)
  | notObject {t : String} {j : Json} (h : Json.ofText? t = some j) (hj : ∀ l, j ≠ .object l) :
    NoBase (some t)

/-- The map that is read from a base file. -/
def ofFile (t : Option String) : CoverageMap :=
  (t.elim (.error .storage) CoverageMap.ofText).toOption.getD ∅

theorem ofFile_of_noBase {t : Option String} (h : NoBase t) : ofFile t = ∅ := by
  cases h with
  | missing => rfl
  | notJson h => simp [ofFile, CoverageMap.ofText, h, Except.toOption]
  | @notObject t j h hj =>
    have hfailed : CoverageMap.ofJson j = .error .notAnObject := by
      cases j with
      | object l => exact (hj l rfl).elim
      | _ => rfl
    simp [ofFile, CoverageMap.ofText, h, hfailed, Except.toOption]

/-- Both maps with their keys normalised, merged and counted. -/
def onto (base additional : CoverageMap) : CoverageMap × Counts :=
  (merge (Keys.normalizeMap base) (Keys.normalizeMap additional),
    counts (Keys.normalizeMap base) (Keys.normalizeMap additional))

theorem mergeOnto_eq (m : Type → Type) [Monad m] [LawfulMonad m] [Storage m] (p : Path)
    (additional : CoverageMap) : Documents.mergeOnto p additional =
      (fun t => onto (ofFile t) additional) <$> (Storage.readText? p : m (Option String)) := by
  rw [map_eq_pure_bind, Documents.mergeOnto, Documents.loadBase, Documents.load]
  simp only [bind_assoc]
  congr 1
  funext t
  cases t <;> simp [onto, ofFile]

/-- A merge with a base partitions the files. With a base file it is the merge of the two maps with
normalised keys, and without a usable one the new coverage alone, in any storage. -/
theorem partition_of_base :
    (∀ base additional, Partitioned base additional (merge base additional) (counts base additional)) ∧
    ∀ (m : Type → Type) [Monad m] [LawfulMonad m] [Storage m] (p : Path) (additional : CoverageMap),
      ∃ result : Option String → CoverageMap × Counts,
        Documents.mergeOnto p additional = result <$> (Storage.readText? p : m (Option String)) ∧
        (∀ t base, CoverageMap.ofText t = .ok base → result (some t) =
          (merge (Keys.normalizeMap base) (Keys.normalizeMap additional),
            counts (Keys.normalizeMap base) (Keys.normalizeMap additional))) ∧
        ∀ t, NoBase t → result t = (Keys.normalizeMap additional,
          ⟨0, (Keys.normalizeMap additional).size, 0, 0, (Keys.normalizeMap additional).size⟩) := by
  refine ⟨partitioned_merge, fun m _ _ _ p additional =>
    ⟨fun t => onto (ofFile t) additional, mergeOnto_eq m p additional, ?_, ?_⟩⟩
  · intro t base h
    have hfile : ofFile (some t) = base := by simp [ofFile, h, Except.toOption]
    change onto (ofFile (some t)) additional = _
    rw [hfile, onto]
  · intro t h
    have hempty : Keys.normalizeMap ∅ = ∅ := rfl
    change onto (ofFile t) additional = _
    rw [ofFile_of_noBase h, onto, hempty, merge_of_no_base, counts_of_no_base]

/-- The file of `counted` with a second statement that ran. -/
def longer : FileCoverage :=
  { uncounted with statements.hits := .ofList [(0, 0), (1, 5)] }

/-- A base file that holds a list. -/
def listing : Directory := ⟨.ofList [("base.json", .file (.text "[]"))]⟩

theorem partition_of_base_sample :
    (single counted).get? "/a.ts" = some counted ∧ (single longer).get? "/a.ts" = some longer ∧
    counted.Valid ∧ longer.Valid ∧
    (∃ f, (merge (single counted) (single longer)).get? "/a.ts" = some f ∧
      (f.SameShape counted ∨ f.SameShape longer)) ∧
    NoBase (some "[]") ∧ LawfulMonad (StateM Directory) ∧
    (Documents.mergeOnto "base.json" (single longer) : StateM Directory _).run listing =
      ((Keys.normalizeMap (single longer), ⟨0, 1, 0, 0, 1⟩), listing) := by
  have hlist : NoBase (some "[]") := .notObject (j := .array []) rfl (by simp)
  refine ⟨by decide, by decide, by decide, by decide,
    (partition_of_base.1 (single counted) (single longer)).both "/a.ts" counted longer
      (by decide) (by decide) (by decide) (by decide), hlist, inferInstance, ?_⟩
  obtain ⟨result, hresult, _, hnone⟩ :=
    partition_of_base.2 (StateM Directory) "base.json" (single longer)
  have hread : (Storage.readText? "base.json" : StateM Directory _).run listing =
      (some "[]", listing) := by rfl
  have hsize : (Keys.normalizeMap (single longer)).size = 1 := by decide
  rw [hresult, StateT.run_map, hread]
  change (result (some "[]"), listing) = _
  rw [hnone _ hlist, hsize]

end Base
end Coverage

import Coverage.Proofs.Keys.Again
import Coverage.Proofs.Merge.UpperBound

/-! Entries whose names become equal. A file that shares its name with no other keeps all but its name, and
from several files one is made that is an upper bound of those that are valid. -/
namespace Coverage

theorem FileCoverage.valid_renamed {f : FileCoverage} {path : String} :
    ({ f with path } : FileCoverage).Valid ↔ f.Valid := Iff.rfl

namespace Keys
variable {m : CoverageMap} {key path : String} {f g : FileCoverage}

open Merge FileCoverage

/-- A valid file of the map under some spelling of a name. -/
def ValidUnder (m : CoverageMap) (key : String) (g : FileCoverage) : Prop :=
  ∃ path, m.get? path = some g ∧ normalize path = key ∧ g.Valid

/-- No other file of the map has this name once all are normalised. -/
def Alone (m : CoverageMap) (path : String) : Prop :=
  ∀ other ∈ m.paths, normalize other = normalize path → other = path

instance : Decidable (Alone m path) := inferInstanceAs (Decidable (∀ _ ∈ _, _))

theorem mem_valid_spelled : f ∈ (spelled key m.entries).filter (·.Valid) ↔
    ∃ g, ValidUnder m key g ∧ { g with path := key } = f := by
  rw [List.mem_filter, mem_spelled, decide_eq_true_iff]
  constructor
  · rintro ⟨⟨e, he, hkey, rfl⟩, hvalid⟩
    exact ⟨e.2, ⟨e.1, SortedMap.get?_eq_some_iff.2 he, hkey, valid_renamed.1 hvalid⟩, rfl⟩
  · rintro ⟨g, ⟨path, hget, hkey, hvalid⟩, rfl⟩
    exact ⟨⟨(path, g), SortedMap.get?_eq_some_iff.1 hget, hkey, rfl⟩, valid_renamed.2 hvalid⟩

/-- What is merged is renamed before, which none of the bounds is about. -/
theorem bounds_of_spelled (h : Bounds (· ∈ (spelled key m.entries).filter (·.Valid)) f) :
    Bounds (ValidUnder m key) f := by
  have hrich {ρ η : Type} {part : FileCoverage → Table ρ η}
      (hpart : ∀ g : FileCoverage, part { g with path := key } = part g)
      (hr : AsRich part (· ∈ (spelled key m.entries).filter (·.Valid)) f) :
      AsRich part (ValidUnder m key) f := by
    refine ⟨fun g hg => ?_, ?_⟩
    · rw [← hpart]
      exact hr.most _ (mem_valid_spelled.2 ⟨g, hg, rfl⟩)
    · obtain ⟨_, hmem, hsize⟩ := hr.attained
      obtain ⟨g, hg, rfl⟩ := mem_valid_spelled.1 hmem
      exact ⟨g, hg, by rw [← hsize, hpart]⟩
  refine ⟨h.valid, hrich (fun _ => rfl) h.statements, hrich (fun _ => rfl) h.functions,
    hrich (fun _ => rfl) h.branches, fun hseparated g hg => ?_⟩
  have hall : ∀ g ∈ (spelled key m.entries).filter (·.Valid), g.Separated := by
    intro g hg
    obtain ⟨g, hvalid, rfl⟩ := mem_valid_spelled.1 hg
    obtain ⟨hs, hf, hb⟩ := hseparated g hvalid
    exact ⟨hs, hf, hb⟩
  obtain ⟨hs, hf, hb⟩ := h.counts hall _ (mem_valid_spelled.2 ⟨g, hg, rfl⟩)
  exact ⟨hs, hf, hb⟩

theorem get?_normalizeMap_of_valid (h : ∃ g, ValidUnder m key g) :
    ∃ f, (normalizeMap m).get? key = some f ∧ Bounds (ValidUnder m key) f := by
  obtain ⟨g, hg⟩ := h
  have hne : (spelled key m.entries).filter (·.Valid) ≠ [] :=
    List.ne_nil_of_mem (mem_valid_spelled.2 ⟨g, hg, rfl⟩)
  obtain ⟨f, hf, hbounds⟩ := bounds_of_file? key hne
  exact ⟨f, get?_normalizeMap.trans hf, bounds_of_spelled hbounds⟩

theorem get?_normalizeMap_of_alone (hf : m.get? path = some f) (h : Alone m path) :
    (normalizeMap m).get? (normalize path) = some { f with path := normalize path } := by
  rw [get?_normalizeMap, spelled_of_alone hf h, file?_singleton]

/-- A map with normalised names loses no file and no count. Its names are those of the map, normalised; a
file that is alone under its name only bears the new one; and wherever some of the files that come under
one name are valid, the file is valid, as rich as the richest of them, and has no record with a lower
count than a record of theirs with the same start (for branches the same start, kind and number of arms),
provided that these tell the records of each of them apart. -/
theorem lossless_of_keys (m : CoverageMap) :
    (∀ key, key ∈ (normalizeMap m).paths ↔ ∃ path ∈ m.paths, normalize path = key) ∧
    (∀ key f, (normalizeMap m).get? key = some f → f.path = key) ∧
    (∀ path f, m.get? path = some f → Alone m path →
      (normalizeMap m).get? (normalize path) = some { f with path := normalize path }) ∧
    ∀ key, (∃ g, ValidUnder m key g) →
      ∃ f, (normalizeMap m).get? key = some f ∧ Bounds (ValidUnder m key) f := by
  refine ⟨fun key => mem_paths_normalizeMap, CoverageMap.named_normalizeMap m, ?_, ?_⟩
  · exact fun path f => get?_normalizeMap_of_alone
  · exact fun key => get?_normalizeMap_of_valid

/-- Two statements, of which only the second ran. -/
def secondRan : FileCoverage where
  path := "\\src\\a.ts"
  statements :=
    ⟨.ofList [(0, .ofNumbers 2 0 2 10), (1, .ofNumbers 3 0 3 10)], .ofList [(0, 0), (1, 6)]⟩
  functions := ∅
  branches := ∅

/-- Three spellings of one name, where what stands under the last is not valid, and another name. -/
def collided : CoverageMap :=
  .ofList [("/src/a.ts", Base.counted), ("\\src\\a.ts", secondRan),
    ("file:///src/a.ts", Base.uncounted), ("\\src\\b.ts", .empty "\\src\\b.ts")]

theorem separated_of_validUnder_collided (h : ValidUnder collided key g) : g.Separated := by
  obtain ⟨path, hget, -⟩ := h
  have hmem := SortedMap.mem_of_mem_ofList (SortedMap.get?_eq_some_iff.1 hget)
  simp only [List.mem_cons, Prod.mk.injEq, List.not_mem_nil, or_false] at hmem
  rcases hmem with ⟨-, rfl⟩ | ⟨-, rfl⟩ | ⟨-, rfl⟩ | ⟨-, rfl⟩ <;> decide

theorem lossless_of_keys_sample :
    (collided.get? "\\src\\b.ts" = some (.empty "\\src\\b.ts") ∧ Alone collided "\\src\\b.ts") ∧
    (ValidUnder collided "/src/a.ts" Base.counted ∧ ValidUnder collided "/src/a.ts" secondRan ∧
      ∀ g, ValidUnder collided "/src/a.ts" g → g.Separated) ∧
    (normalizeMap collided).get? "/src/b.ts" = some (.empty "/src/b.ts") ∧
    ∃ f, (normalizeMap collided).get? "/src/a.ts" = some f ∧ f.Valid ∧
      f.AtLeast Base.counted ∧ f.AtLeast secondRan ∧
      f.statements.count 0 = 1 ∧ f.statements.count 1 = 6 := by
  have hb : collided.get? "\\src\\b.ts" = some (.empty "\\src\\b.ts") := by decide
  have halone : Alone collided "\\src\\b.ts" := by decide
  have hname : normalize "\\src\\b.ts" = "/src/b.ts" := by decide
  have hcounted : ValidUnder collided "/src/a.ts" Base.counted :=
    ⟨"/src/a.ts", by decide, by decide, by decide⟩
  have hsecond : ValidUnder collided "/src/a.ts" secondRan :=
    ⟨"\\src\\a.ts", by decide, by decide, by decide⟩
  have hseparated (g : FileCoverage) (hg : ValidUnder collided "/src/a.ts" g) : g.Separated :=
    separated_of_validUnder_collided hg
  obtain ⟨-, -, hrenamed, hmerged⟩ := lossless_of_keys collided
  have halone' := hrenamed _ _ hb halone
  rw [hname] at halone'
  obtain ⟨f, hf, hbounds⟩ := hmerged "/src/a.ts" ⟨_, hcounted⟩
  have hcounts : ((normalizeMap collided).get? "/src/a.ts").map (fun f =>
      (f.statements.count 0, f.statements.count 1)) = some (1, 6) := by decide
  simp only [hf, Option.map_some, Option.some_inj, Prod.mk.injEq] at hcounts
  have hcounts' := hbounds.counts hseparated
  exact ⟨⟨hb, halone⟩, ⟨hcounted, hsecond, hseparated⟩, halone', f, hf, hbounds.valid,
    hcounts' _ hcounted, hcounts' _ hsecond, hcounts⟩

end Keys
end Coverage

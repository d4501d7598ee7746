import Coverage.Base
import Coverage.Proofs.Merge.Structure

/-! New coverage merged onto a base, path by path. A file that both sides have takes its structure from
one of them and is valid unless the new one is not. -/
namespace Coverage

namespace Merge.Split
variable (a b : FileCoverage)

/-- The first of two sources, and the second. -/
def first : Split [a, b] := ⟨[], a, [b], rfl⟩
def second : Split [a, b] := ⟨[a], b, [], rfl⟩

end Merge.Split

namespace Base
variable {base additional : CoverageMap} {path : String} {a b f : FileCoverage}

open Merge

theorem get?_merge (base additional : CoverageMap) (path : String) :
    (merge base additional).get? path =
      ((additional.get? path).map (fileOver base path)).or (base.get? path) := by
  rw [merge, SortedMap.get?_foldl_insert_entries, SortedMap.get?_mapWithKey, SortedMap.get?_filter]
  cases ha : additional.get? path with
  | none => cases base.get? path <;> simp [SortedMap.contains, ha]
  | some a => simp

theorem get?_merge_of_base_only (ha : additional.get? path = none) :
    (merge base additional).get? path = base.get? path := by
  simp [get?_merge, ha]

theorem get?_merge_of_new (hb : base.get? path = none) :
    (merge base additional).get? path = additional.get? path := by
  cases ha : additional.get? path <;> simp [get?_merge, fileOver, ha, hb]

theorem get?_merge_of_both (hb : base.get? path = some b) (ha : additional.get? path = some a) :
    (merge base additional).get? path = some (file path b a) := by
  simp [get?_merge, fileOver, ha, hb]

/-- The base has records and supplies the structure of a file: the other one is empty, or it alone begins
with a directive, or both do and it is larger. -/
def KeepsBase (b a : FileCoverage) : Prop :=
  b.size ≠ 0 ∧ (a.size = 0 ∨ a.hasStatementAt .origin = true ∧
    (b.hasStatementAt .origin = true → b.size < a.size))

instance : Decidable (KeepsBase b a) := by unfold KeepsBase; infer_instance

theorem skeleton_pair (b a : FileCoverage) : skeleton [b, a] = if KeepsBase b a then 0 else 1 := by
  by_cases hb : b.size = 0 <;> by_cases ha : a.size = 0 <;>
    by_cases hdb : b.hasStatementAt .origin <;> by_cases hda : a.hasStatementAt .origin <;>
    simp [skeleton, lastLeast, KeepsBase, hb, ha, hdb, hda]
  -- Both begin with a directive, so the sizes decide.
  by_cases hlt : b.size < a.size <;> simp [hlt]

/-- The side that supplies the structure of a file that both have. -/
def supplier (b a : FileCoverage) : Split [b, a] :=
  if KeepsBase b a then .first b a else .second b a

theorem length_before_supplier (b a : FileCoverage) :
    (supplier b a).before.length = skeleton [b, a] := by
  rw [skeleton_pair, supplier]
  split <;> rfl

theorem file_of_valid (path : String) (hb : b.Valid) (ha : a.Valid) :
    file path b a = countDirective (supplier b a).others
      (assemble path .max (supplier b a) (supplier b a) (supplier b a)) := by
  rw [← reconcile_eq, length_before_supplier, file, if_pos ⟨hb, ha⟩]
  rfl

theorem file_of_not_valid (h : ¬ (b.Valid ∧ a.Valid)) : file path b a = a := if_neg h

theorem valid_file_iff : (file path b a).Valid ↔ a.Valid := by
  by_cases h : b.Valid ∧ a.Valid
  · have hsources : ∀ f ∈ [b, a], f.Valid := by simpa using h
    rw [file_of_valid path h.1 h.2]
    exact iff_of_true (valid_countDirective (valid_assemble hsources _ _ _)) h.2
  · rw [file_of_not_valid h]

/-- The base has a valid file and the new coverage one that is not. -/
def Traded (base additional : CoverageMap) (path : String) : Prop :=
  ∃ b a, base.get? path = some b ∧ additional.get? path = some a ∧ b.Valid ∧ ¬ a.Valid

theorem traded_iff (hb : base.get? path = some b) (ha : additional.get? path = some a) :
    Traded base additional path ↔ b.Valid ∧ ¬ a.Valid := by
  simp [Traded, ha, hb]

theorem not_traded_of_one_side (h : base.get? path = none ∨ additional.get? path = none) :
    ¬ Traded base additional path := by
  rintro ⟨b, a, hb, ha, -, -⟩
  rcases h with h | h
  · simp [hb] at h
  · simp [ha] at h

/-- A path with a valid file on either side has a file. It is valid except where a valid file of the
base meets one that is not, which then replaces it. -/
theorem valid_of_base (base additional : CoverageMap) (path : String)
    (h : ∃ f, f.Valid ∧ (base.get? path = some f ∨ additional.get? path = some f)) :
    ∃ f, (merge base additional).get? path = some f ∧
      (f.Valid ↔ ¬ Traded base additional path) ∧
      (Traded base additional path → additional.get? path = some f) := by
  obtain ⟨g, hg, hside⟩ := h
  cases ha : additional.get? path with
  | none =>
    have hb : base.get? path = some g := by simpa [ha] using hside
    have hno : ¬ Traded base additional path := not_traded_of_one_side (.inr ha)
    exact ⟨g, (get?_merge_of_base_only ha).trans hb, iff_of_true hg hno, fun ht => (hno ht).elim⟩
  | some a =>
    cases hb : base.get? path with
    | none =>
      obtain rfl : a = g := by simpa [ha, hb] using hside
      have hno : ¬ Traded base additional path := not_traded_of_one_side (.inl hb)
      exact ⟨a, (get?_merge_of_new hb).trans ha, iff_of_true hg hno, fun ht => (hno ht).elim⟩
    | some b =>
      have htraded := traded_iff hb ha
      have hone : b.Valid ∨ a.Valid := by
        rw [hb, ha, Option.some_inj, Option.some_inj] at hside
        rcases hside with rfl | rfl
        · exact .inl hg
        · exact .inr hg
      refine ⟨file path b a, get?_merge_of_both hb ha, ?_, fun ht => ?_⟩
      · rw [valid_file_iff, htraded]
        constructor
        · exact fun hva ht => ht.2 hva
        · intro hno
          rcases hone with hvb | hva
          · simpa [hvb] using hno
          · exact hva
      · have hnot : ¬ (b.Valid ∧ a.Valid) := fun hv => (htraded.1 ht).2 hv.2
        rw [file_of_not_valid hnot]

/-- One statement with its count. -/
def counted : FileCoverage where
  path := "/a.ts"
  statements := ⟨.ofList [(0, .ofNumbers 2 0 2 10)], .ofList [(0, 1)]⟩
  functions := ∅
  branches := ∅

/-- The same file with a second statement, which has no count. -/
def uncounted : FileCoverage :=
  { counted with
    statements.records := .ofList [(0, .ofNumbers 2 0 2 10), (1, .ofNumbers 3 0 3 10)] }

def single (f : FileCoverage) : CoverageMap := .ofList [(f.path, f)]

theorem valid_of_base_sample :
    (∃ f, f.Valid ∧ ((single uncounted).get? "/a.ts" = some f ∨
      (single counted).get? "/a.ts" = some f)) ∧
    ∃ f, (merge (single uncounted) (single counted)).get? "/a.ts" = some f ∧
      (f.Valid ↔ ¬ Traded (single uncounted) (single counted) "/a.ts") ∧
      (Traded (single uncounted) (single counted) "/a.ts" →
        (single counted).get? "/a.ts" = some f) := by
  have h : ∃ f, f.Valid ∧ ((single uncounted).get? "/a.ts" = some f ∨
      (single counted).get? "/a.ts" = some f) := ⟨counted, by decide, by decide⟩
  exact ⟨h, valid_of_base (single uncounted) (single counted) "/a.ts" h⟩

/-- The file of the base is valid, and what replaces it is not. -/
theorem not_valid_of_traded : counted.Valid ∧ (single counted).get? "/a.ts" = some counted ∧
    ∃ f, (merge (single counted) (single uncounted)).get? "/a.ts" = some f ∧ ¬ f.Valid :=
  ⟨by decide, by decide, uncounted, by decide, by decide⟩

end Base
end Coverage

import Coverage.Proofs.Base.Files
import Coverage.Proofs.Merge.Absorption

/-! Merging the same coverage onto a base again changes nothing. Which side supplies the structure hangs
on what a merge leaves as it is, so the merged file stands where the supplier stood. -/
namespace Coverage.Base
variable {path : String} {a b m : FileCoverage}

open Merge

section Assembled
variable {sources : List FileCoverage} {p : Split sources}

theorem size_of_assembled (h : Assembled path m p p p) : m.size = p.source.size := by
  simp only [FileCoverage.size, Table.size, h.records_statements, h.records_functions,
    h.records_branches]

theorem hasStatementAt_of_assembled (h : Assembled path m p p p) (l : Location) :
    m.hasStatementAt l = p.source.hasStatementAt l := by
  rw [FileCoverage.hasStatementAt, h.records_statements, FileCoverage.hasStatementAt]

end Assembled

/-- The base is read for its size and for a directive only. -/
theorem keepsBase_congr (hsize : m.size = b.size)
    (hstart : m.hasStatementAt .origin = b.hasStatementAt .origin) :
    KeepsBase m a ↔ KeepsBase b a := by
  rw [KeepsBase, KeepsBase, hsize, hstart]

theorem not_keepsBase_self : ¬ KeepsBase a a := by
  rintro ⟨hfilled, hempty | ⟨hstart, hsmaller⟩⟩
  · exact hfilled hempty
  · exact Nat.lt_irrefl _ (hsmaller hstart)

/-- A file merged onto a base takes the place of the base if this was its supplier. Otherwise the new
file supplies once more. -/
theorem again_supplier (h : Assembled path m (supplier b a) (supplier b a) (supplier b a)) :
    Again m (supplier b a) (supplier m a) := by
  have hsize := size_of_assembled h
  have hstart := hasStatementAt_of_assembled h .origin
  by_cases hk : KeepsBase b a
  · have hs : supplier b a = .first b a := if_pos hk
    rw [hs] at hsize hstart
    have hm : supplier m a = .first m a := if_pos ((keepsBase_congr hsize hstart).2 hk)
    rw [hs, hm]
    exact .replaced rfl rfl rfl
  · have hs : supplier b a = .second b a := if_neg hk
    rw [hs] at hsize hstart
    have hm : supplier m a = .second m a :=
      if_neg fun hkm => not_keepsBase_self ((keepsBase_congr hsize hstart).1 hkm)
    rw [hs, hm]
    exact .after rfl rfl

theorem assembled_file (path : String) (hb : b.Valid) (ha : a.Valid) :
    Assembled path (file path b a) (supplier b a) (supplier b a) (supplier b a) :=
  ⟨file_of_valid path hb ha⟩

theorem file_self (hpath : a.path = path) (hseparated : a.Valid → a.Separated) :
    file path a a = a := by
  by_cases hvalid : a.Valid
  · have hs : supplier a a = .second a a := if_neg not_keepsBase_self
    have hagain : Again a (.single a) (supplier a a) := by
      rw [hs]
      exact .after rfl rfl
    have hsources : ∀ f ∈ [a], f.Valid ∧ f.Separated := by simpa using ⟨hvalid, hseparated hvalid⟩
    exact (assembled_single hpath).eq_of_again hsources hagain hagain hagain
      (assembled_file path hvalid hvalid)
  · exact file_of_not_valid fun h => hvalid h.1

theorem file_again (hb : b.Valid → b.Separated) (hpath : a.path = path)
    (ha : a.Valid → a.Separated) : file path (file path b a) a = file path b a := by
  by_cases hvalid : b.Valid ∧ a.Valid
  · have hm := assembled_file path hvalid.1 hvalid.2
    have hmerged : (file path b a).Valid := valid_file_iff.2 hvalid.2
    have hagain := again_supplier hm
    have hsources : ∀ f ∈ [b, a], f.Valid ∧ f.Separated := by
      simpa using ⟨⟨hvalid.1, hb hvalid.1⟩, hvalid.2, ha hvalid.2⟩
    exact hm.eq_of_again hsources hagain hagain hagain (assembled_file path hmerged hvalid.2)
  · rw [file_of_not_valid hvalid]
    exact file_self hpath ha

/-- Merging onto the result what was merged onto the base changes nothing. Files that are not valid need
not be separated, and the names that the files of the base give themselves do not matter. -/
theorem again_of_base (base additional : CoverageMap)
    (hbase : ∀ e ∈ base.entries, e.2.Valid → e.2.Separated)
    (hadditional : ∀ e ∈ additional.entries, e.2.path = e.1 ∧ (e.2.Valid → e.2.Separated)) :
    merge (merge base additional) additional = merge base additional := by
  refine SortedMap.ext_get? fun path => ?_
  cases ha : additional.get? path with
  | none => exact get?_merge_of_base_only ha
  | some a =>
    obtain ⟨hpath, hsa⟩ := hadditional (path, a) (SortedMap.get?_eq_some_iff.1 ha)
    cases hb : base.get? path with
    | none =>
      have hm : (merge base additional).get? path = some a := (get?_merge_of_new hb).trans ha
      rw [get?_merge_of_both hm ha, hm, file_self hpath hsa]
    | some b =>
      have hsb := hbase (path, b) (SortedMap.get?_eq_some_iff.1 hb)
      have hm := get?_merge_of_both hb ha
      rw [get?_merge_of_both hm ha, hm, file_again hsb hpath hsa]

theorem again_of_base_sample : ∃ additional base, sample.take 2 = [additional, base] ∧
    (∀ e ∈ base.entries, e.2.Valid → e.2.Separated) ∧
    (∀ e ∈ additional.entries, e.2.path = e.1 ∧ (e.2.Valid → e.2.Separated)) ∧
    merge (merge base additional) additional = merge base additional :=
  ⟨_, _, rfl, by decide, by decide, again_of_base _ _ (by decide) (by decide)⟩

end Coverage.Base

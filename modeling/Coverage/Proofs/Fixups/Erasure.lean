import Coverage.Proofs.Validity
import Mathlib.Data.List.Basic

/-! Tables from which records are erased by their ids. What is erased goes with its count, and what stays
keeps its record and its count. -/
namespace Coverage

namespace SortedMap
variable {κ α : Type} [Ord κ] [Std.LawfulEqOrd κ] [DecidableEq κ]

theorem foldl_erase (ks : List κ) (m : SortedMap κ α) :
    ks.foldl erase m = m.filter fun k _ => decide (k ∉ ks) := by
  induction ks generalizing m with
  | nil => exact ext_entries (by simp [filter])
  | cons k ks ih =>
    rw [List.foldl_cons, ih]
    refine ext_entries ?_
    simp only [filter, erase, List.filter_filter]
    refine List.filter_congr fun e _ => ?_
    by_cases he : e.1 = k
    · simp [he]
    · simp [he]

end SortedMap

namespace Table
variable {ρ η : Type} {t u v : Table ρ η} {ids : List Id} {id : Id} {r : ρ} {p : ρ → Bool}

theorem eraseAll_eq (t : Table ρ η) (ids : List Id) : t.eraseAll ids =
    ⟨t.records.filter fun id _ => decide (id ∉ ids), t.hits.filter fun id _ => decide (id ∉ ids)⟩ := by
  have hsplit : t.eraseAll ids =
      ⟨ids.foldl SortedMap.erase t.records, ids.foldl SortedMap.erase t.hits⟩ := by
    rw [eraseAll]
    induction ids generalizing t with
    | nil => rfl
    | cons id ids ih =>
      rw [List.foldl_cons, ih]
      rfl
  rw [hsplit, SortedMap.foldl_erase, SortedMap.foldl_erase]

theorem get?_records_eraseAll : (t.eraseAll ids).records.get? id =
    if id ∈ ids then none else t.records.get? id := by
  rw [eraseAll_eq, SortedMap.get?_filter]
  cases t.records.get? id <;> by_cases h : id ∈ ids <;> simp [h]

theorem get?_records_eraseAll_eq_none_iff :
    (t.eraseAll ids).records.get? id = none ↔ id ∈ ids ∨ t.records.get? id = none := by
  rw [get?_records_eraseAll, ite_eq_left_iff, or_iff_not_imp_left]

theorem get?_hits_eraseAll : (t.eraseAll ids).hits.get? id =
    if id ∈ ids then none else t.hits.get? id := by
  rw [eraseAll_eq, SortedMap.get?_filter]
  cases t.hits.get? id <;> by_cases h : id ∈ ids <;> simp [h]

theorem mem_idsWhere : id ∈ t.idsWhere p ↔ ∃ r, t.records.get? id = some r ∧ p r = true := by
  simp [idsWhere, SortedMap.get?_eq_some_iff]

theorem idsWhere_sublist : (t.idsWhere p).Sublist t.ids := List.filter_sublist.map _

theorem idsWhere_eraseAll :
    (t.eraseAll ids).idsWhere p = (t.idsWhere p).filter fun id => decide (id ∉ ids) := by
  simp only [idsWhere, eraseAll_eq, SortedMap.filter, List.filter_map, List.filter_filter]
  congr 1
  exact List.filter_congr fun e _ => Bool.and_comm _ _

/-- The records that a test picks are gone once they are erased, and none comes back. -/
theorem idsWhere_eraseAll_self : (t.eraseAll (t.idsWhere p)).idsWhere p = [] := by
  rw [idsWhere_eraseAll, List.filter_eq_nil_iff]
  simp

theorem idsWhere_eraseAll_eq_nil (h : t.idsWhere p = []) : (t.eraseAll ids).idsWhere p = [] := by
  rw [idsWhere_eraseAll, h, List.filter_nil]

/-- Every id that is erased is that of a record, so as many records go as ids are given. -/
theorem size_eraseAll (h : ids.Sublist t.ids) : t.size = (t.eraseAll ids).size + ids.length := by
  have hperm : (t.ids.filter fun id => !decide (id ∉ ids)).Perm ids := by
    refine (List.perm_ext_iff_of_nodup (t.nodup_ids.filter _) (t.nodup_ids.sublist h)).2 fun id => ?_
    simpa using fun hid => h.subset hid
  rw [size, size, eraseAll_eq, SortedMap.size_filter_keys,
    SortedMap.size_filter (fun id _ => decide (id ∉ ids)), SortedMap.size_filter_keys,
    SortedMap.size_filter_keys]
  exact congrArg _ hperm.length_eq

/-- Each record stays with its count or goes with its count. -/
def Kept (t u : Table ρ η) : Prop := ∀ id,
  (u.records.get? id = t.records.get? id ∧ u.hits.get? id = t.hits.get? id) ∨
  (id ∈ t.ids ∧ u.records.get? id = none ∧ u.hits.get? id = none)

theorem Kept.trans (h : Kept t u) (h' : Kept u v) : Kept t v := by
  intro id
  rcases h id with ⟨hr, hh⟩ | ⟨hid, hr, hh⟩
  · rcases h' id with ⟨hr', hh'⟩ | ⟨hid', hgone⟩
    · exact .inl ⟨hr'.trans hr, hh'.trans hh⟩
    · rw [ids, SortedMap.mem_keys_iff, hr] at hid'
      exact .inr ⟨SortedMap.mem_keys_iff.2 hid', hgone⟩
  · rcases h' id with ⟨hr', hh'⟩ | ⟨-, hgone⟩
    · exact .inr ⟨hid, hr'.trans hr, hh'.trans hh⟩
    · exact .inr ⟨hid, hgone⟩

theorem kept_eraseAll (h : ids.Sublist t.ids) : Kept t (t.eraseAll ids) := by
  intro id
  rw [get?_records_eraseAll, get?_hits_eraseAll]
  by_cases hid : id ∈ ids
  · exact .inr ⟨h.subset hid, if_pos hid, if_pos hid⟩
  · exact .inl ⟨if_neg hid, if_neg hid⟩

theorem counted_eraseAll (h : t.Counted) : (t.eraseAll ids).Counted := by
  intro id hid
  rw [Table.ids, SortedMap.mem_keys_iff, get?_records_eraseAll] at hid
  rw [get?_hits_eraseAll]
  by_cases he : id ∈ ids
  · simp [he] at hid
  · rw [if_neg he] at hid ⊢
    exact h id (SortedMap.mem_keys_iff.2 hid)

section Rows
variable [Inhabited η]

theorem mem_rows {row : Id × ρ × η} :
    row ∈ t.rows ↔ t.records.get? row.1 = some row.2.1 ∧ row.2.2 = t.count row.1 := by
  obtain ⟨id, r, h⟩ := row
  simp only [rows, List.mem_map, SortedMap.get?_eq_some_iff, Prod.mk.injEq]
  constructor
  · rintro ⟨e, he, rfl, rfl, rfl⟩
    exact ⟨he, rfl⟩
  · rintro ⟨he, rfl⟩
    exact ⟨(id, r), he, rfl, rfl, rfl⟩

theorem map_fst_rows : t.rows.map (·.1) = t.ids := by
  simp [rows, Table.ids, SortedMap.keys, Function.comp_def]

theorem mem_rows_eraseAll {row : Id × ρ × η} :
    row ∈ (t.eraseAll ids).rows ↔ row ∈ t.rows ∧ row.1 ∉ ids := by
  rw [mem_rows, mem_rows, count, count, get?_records_eraseAll, get?_hits_eraseAll]
  by_cases h : row.1 ∈ ids <;> simp [h]

end Rows
end Table

namespace FileCoverage
variable {f : FileCoverage} {ids : List Id}

theorem armsCounted_eraseAll {t : Table BranchSite (List Hits)} (h : ArmsCounted t) :
    ArmsCounted (t.eraseAll ids) := by
  intro id b hb
  rw [Table.get?_records_eraseAll] at hb
  rw [Table.get?_hits_eraseAll]
  by_cases he : id ∈ ids
  · simp [he] at hb
  · rw [if_neg he] at hb ⊢
    exact h id b hb

theorem valid_eraseFunctions (h : f.Valid) : (f.eraseFunctions ids).Valid := by
  obtain ⟨hs, hf, hb⟩ := valid_iff.1 h
  exact valid_iff.2 ⟨hs, Table.counted_eraseAll hf, hb⟩

theorem valid_eraseBranches (h : f.Valid) : (f.eraseBranches ids).Valid := by
  obtain ⟨hs, hf, hb⟩ := valid_iff.1 h
  exact valid_iff.2 ⟨hs, hf, armsCounted_eraseAll hb⟩

@[simp] theorem eraseFunctions_nil : f.eraseFunctions [] = f := rfl
@[simp] theorem eraseBranches_nil : f.eraseBranches [] = f := rfl

end FileCoverage
end Coverage

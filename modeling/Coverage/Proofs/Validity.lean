import Coverage.FileCoverage
import Coverage.Proofs.SortedMap

/-! Tables by their look-ups, and validity as a property of the three tables of a file. -/
namespace Coverage

theorem SortedMap.pairwise_entries {α : Type} (m : SortedMap Id α) :
    m.entries.Pairwise fun a b => a.1 < b.1 :=
  m.sorted.imp fun h => Std.compare_eq_lt.1 h

/-- Of rows in the order of their ids the first that passes a test has the lowest id. -/
theorem lowest_of_find? {α : Type} {l : List (Id × α)} {p : Id × α → Bool} {a : Id × α}
    (hl : l.Pairwise fun a b => a.1 < b.1) (h : l.find? p = some a) :
    ∀ b ∈ l, p b = true → a.1 ≤ b.1 := by
  induction l with
  | nil => simp at h
  | cons e l ih =>
    obtain ⟨he, hl⟩ := List.pairwise_cons.1 hl
    intro b hb hpb
    by_cases hpe : p e = true
    · obtain rfl : e = a := by simpa [hpe] using h
      rcases List.mem_cons.1 hb with rfl | hb
      · exact UInt32.le_refl _
      · exact UInt32.le_of_lt (he b hb)
    · rcases List.mem_cons.1 hb with rfl | hb
      · exact (hpe hpb).elim
      · exact ih hl (by simpa [hpe] using h) b hb hpb

namespace Table
variable {ρ η : Type} {t : Table ρ η} {id : Id} {r : ρ}

/-- Every record has a count. There may be counts without a record. -/
def Counted (t : Table ρ η) : Prop := ∀ id ∈ t.ids, (t.hits.get? id).isSome

theorem nodup_ids (t : Table ρ η) : t.ids.Nodup := t.records.nodup_keys

/-- Tables with the same records and the same look-ups of counts are equal. -/
theorem ext_get? {u : Table ρ η} (hr : t.records = u.records)
    (hh : ∀ id, t.hits.get? id = u.hits.get? id) : t = u := by
  cases t
  cases u
  cases hr
  cases SortedMap.ext_get? hh
  rfl

theorem mem_ids_of_get? (h : t.records.get? id = some r) : id ∈ t.ids :=
  SortedMap.mem_keys_iff.2 (by simp [h])

theorem uncounted?_eq_none_iff : t.uncounted? = none ↔ t.Counted := by
  simp [uncounted?, Counted, SortedMap.contains, Option.isSome_iff_ne_none]

variable [Inhabited η]

theorem Counted.get? (h : t.Counted) (hr : t.records.get? id = some r) :
    t.hits.get? id = some (t.count id) := by
  obtain ⟨c, hc⟩ := Option.isSome_iff_exists.1 (h id (mem_ids_of_get? hr))
  simp [count, hc]

end Table

namespace FileCoverage
variable {f : FileCoverage} {id : Id} {b : BranchSite}

/-- The counts of every branch are as many as its arms. -/
def ArmsCounted (t : Table BranchSite (List Hits)) : Prop :=
  ∀ id b, t.records.get? id = some b → ∃ c, t.hits.get? id = some c ∧ c.length = b.arms.length

theorem branchDefect?_eq_none_iff :
    f.branchDefect? id b = none ↔
      ∃ c, f.branches.hits.get? id = some c ∧ c.length = b.arms.length := by
  rw [branchDefect?]
  cases f.branches.hits.get? id with
  | none => simp
  | some c => simp

theorem valid_iff :
    f.Valid ↔ f.statements.Counted ∧ f.functions.Counted ∧ ArmsCounted f.branches := by
  have harms : (f.branches.records.entries.findSome? fun e => f.branchDefect? e.1 e.2) = none ↔
      ArmsCounted f.branches := by
    simp only [List.findSome?_eq_none_iff, branchDefect?_eq_none_iff, ArmsCounted,
      SortedMap.get?_eq_some_iff, Prod.forall]
  simp [Valid, defect?, Table.uncounted?_eq_none_iff, harms]

theorem ArmsCounted.counted {t : Table BranchSite (List Hits)} (h : ArmsCounted t) :
    t.Counted := by
  intro id hid
  obtain ⟨b, hb⟩ := Option.isSome_iff_exists.1 (SortedMap.mem_keys_iff.1 hid)
  obtain ⟨c, hc, _⟩ := h id b hb
  simp [hc]

theorem ArmsCounted.length_count {t : Table BranchSite (List Hits)} (h : ArmsCounted t)
    (hb : t.records.get? id = some b) : (t.count id).length = b.arms.length := by
  obtain ⟨c, hc, hlen⟩ := h id b hb
  simpa [Table.count, hc] using hlen

end FileCoverage
end Coverage

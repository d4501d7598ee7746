import Coverage.Proofs.Invariants.Writable

/-! Tables whose records and counts stand under the same ids. A record is added under an id past all
others, so nothing that is there changes, and a file stays aligned when records are added, erased,
taken from other files or rebuilt. -/
namespace Coverage

namespace Table
variable {ρ η : Type} {t u : Table ρ η} {ids : List Id} {id : Id}

theorem aligned_iff : t.Aligned ↔ ∀ id, (t.records.get? id).isSome = (t.hits.get? id).isSome := by
  refine ⟨fun h id => ?_, SortedMap.keys_eq_of_isSome_get?⟩
  have hid : id ∈ t.records.keys ↔ id ∈ t.hits.keys := by rw [h]
  rw [SortedMap.mem_keys_iff, SortedMap.mem_keys_iff] at hid
  exact Bool.eq_iff_iff.2 hid

theorem Aligned.counted (h : t.Aligned) : t.Counted := by
  intro id hid
  rw [← aligned_iff.1 h]
  exact SortedMap.mem_keys_iff.1 hid

theorem Aligned.of_sameShape (hu : u.Aligned) (h : t.SameShape u) : t.Aligned :=
  (congrArg SortedMap.keys h.records).trans (hu.trans h.ids.symm)

theorem aligned_add (h : t.Aligned) (r : ρ) (n : η) : (t.add r n).Aligned := by
  refine aligned_iff.2 fun id => ?_
  rw [add, SortedMap.get?_insert, SortedMap.get?_insert]
  split
  · rfl
  · exact aligned_iff.1 h id

theorem aligned_addAll (h : t.Aligned) (l : List (ρ × η)) : (t.addAll l).Aligned := by
  rw [addAll]
  induction l generalizing t with
  | nil => exact h
  | cons e l ih => exact ih (aligned_add h e.1 e.2)

theorem aligned_eraseAll (h : t.Aligned) (ids : List Id) : (t.eraseAll ids).Aligned := by
  refine aligned_iff.2 fun id => ?_
  rw [get?_records_eraseAll, get?_hits_eraseAll]
  split
  · rfl
  · exact aligned_iff.1 h id

/-- The greatest id is not in use. -/
def Roomy (t : Table ρ η) : Prop := ∀ id ∈ t.ids, id < 0xffffffff

theorem mem_of_lastKey {m : SortedMap Id ρ} {k : Id} (h : m.lastKey? = some k) : k ∈ m.keys := by
  obtain ⟨e, he, rfl⟩ := Option.map_eq_some_iff.1 h
  exact List.mem_map_of_mem (List.mem_of_getLast? he)

theorem le_lastKey {m : SortedMap Id ρ} {k : Id} (h : m.lastKey? = some k) : ∀ id ∈ m.keys, id ≤ k := by
  obtain ⟨e, he, rfl⟩ := Option.map_eq_some_iff.1 h
  obtain ⟨l, hl⟩ := List.getLast?_eq_some_iff.1 he
  have hsorted := m.sorted
  rw [hl] at hsorted
  intro id hid
  rw [SortedMap.keys, hl, List.map_append, List.mem_append] at hid
  rcases hid with hid | hid
  · obtain ⟨d, hd, rfl⟩ := List.mem_map.1 hid
    have hlt := (List.pairwise_append.1 hsorted).2.2 d hd e (by simp)
    exact UInt32.le_of_lt (Std.compare_eq_lt.1 hlt)
  · obtain rfl : id = e.1 := by simpa using hid
    exact UInt32.le_refl _

theorem lt_nextId (h : t.Roomy) : ∀ id ∈ t.ids, id < t.nextId := by
  intro id hid
  rw [nextId]
  cases hlast : t.records.lastKey? with
  | none =>
    have hnil : t.records.entries = [] := by simpa [SortedMap.lastKey?] using hlast
    simp [Table.ids, SortedMap.keys, hnil] at hid
  | some k =>
    have hle := le_lastKey hlast id hid
    have hk : k < 0xffffffff := h k (mem_of_lastKey hlast)
    rw [UInt32.le_iff_toNat_le] at hle
    rw [UInt32.lt_iff_toNat_lt] at hk
    have hmax : (0xffffffff : UInt32).toNat = 4294967295 := rfl
    rw [Option.map_some, Option.getD_some, UInt32.lt_iff_toNat_lt, UInt32.toNat_add]
    have hone : (1 : UInt32).toNat = 1 := rfl
    omega

/-- A record and its count stand under an id that was not in use, and under other ids nothing changed. -/
structure Added (t u : Table ρ η) (id : Id) (r : ρ) (n : η) : Prop where
  fresh : t.records.get? id = none ∧ t.hits.get? id = none
  added : u.records.get? id = some r ∧ u.hits.get? id = some n
  others : ∀ i, i ≠ id → u.records.get? i = t.records.get? i ∧ u.hits.get? i = t.hits.get? i

theorem added_add (h : t.Aligned) (hroom : t.Roomy) (r : ρ) (n : η) :
    Added t (t.add r n) t.nextId r n where
  fresh := by
    have hid : t.nextId ∉ t.ids := fun hid => absurd (lt_nextId hroom _ hid) (UInt32.lt_irrefl _)
    have hkeys : t.records.keys = t.hits.keys := h
    have hhits : t.nextId ∉ t.hits.keys := by
      rw [← hkeys]
      exact hid
    exact ⟨SortedMap.get?_eq_none_iff.2 hid, SortedMap.get?_eq_none_iff.2 hhits⟩
  added := ⟨SortedMap.get?_insert_self, SortedMap.get?_insert_self⟩
  others _ hi := ⟨SortedMap.get?_insert_of_ne hi.symm, SortedMap.get?_insert_of_ne hi.symm⟩

end Table

namespace FileCoverage
variable {f : FileCoverage}

/-- The counts of aligned branches fit their arms exactly if every arm has a count. -/
theorem aligned_iff : f.Aligned ↔ f.statements.Aligned ∧ f.functions.Aligned ∧ f.branches.Aligned ∧
    ArmsCounted f.branches := by
  constructor
  · rintro ⟨hs, hf, hb, harity⟩
    refine ⟨hs, hf, hb, fun id b hget => ?_⟩
    exact ⟨f.branches.count id, hb.counted.get? hget, harity id b hget⟩
  · rintro ⟨hs, hf, hb, harms⟩
    exact ⟨hs, hf, hb, fun id b hget => harms.length_count hget⟩

theorem Aligned.valid (h : f.Aligned) : f.Valid := by
  obtain ⟨hs, hf, -, harms⟩ := aligned_iff.1 h
  exact valid_iff.2 ⟨hs.counted, hf.counted, harms⟩

theorem aligned_empty (path : String) : (empty path).Aligned := by
  refine aligned_iff.2 ⟨rfl, rfl, rfl, fun id b hb => ?_⟩
  exact (Option.some_ne_none b hb.symm).elim

theorem stable_aligned : Stable Aligned where
  composed := by
    rintro sources f hsources ⟨⟨a, ha, hsa⟩, ⟨b, hb, hsb⟩, ⟨c, hc, hsc, hlen⟩⟩
    obtain ⟨hs, -, -, -⟩ := aligned_iff.1 (hsources a ha)
    obtain ⟨-, hf, -, -⟩ := aligned_iff.1 (hsources b hb)
    obtain ⟨-, -, hb, harms⟩ := aligned_iff.1 (hsources c hc)
    exact aligned_iff.2
      ⟨hs.of_sameShape hsa, hf.of_sameShape hsb, hb.of_sameShape hsc, harms.of_sameShape hsc hlen⟩
  eraseFunctions f ids h := by
    obtain ⟨hs, hf, hb, harms⟩ := aligned_iff.1 h
    exact aligned_iff.2 ⟨hs, Table.aligned_eraseAll hf ids, hb, harms⟩
  eraseBranches f ids h := by
    obtain ⟨hs, hf, hb, harms⟩ := aligned_iff.1 h
    exact aligned_iff.2 ⟨hs, hf, Table.aligned_eraseAll hb ids, armsCounted_eraseAll harms⟩
  fill f t marks h := by
    obtain ⟨hs, hf, hb, -⟩ := aligned_iff.1 h
    obtain ⟨-, -, harms⟩ := valid_iff.1 (valid_fill h.valid t marks)
    exact aligned_iff.2 ⟨Table.aligned_addAll hs _, hf, Table.aligned_addAll hb _, harms⟩

end FileCoverage
end Coverage

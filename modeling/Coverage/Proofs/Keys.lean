import Coverage.Keys
import Coverage.Proofs.Merge.Structure

/-! Maps with their keys normalised, key by key: each has the file that is merged from what stood under
any of its spellings. -/
namespace Coverage.Keys

variable {m : CoverageMap} {key : String} {l : List (String × FileCoverage)} {f : FileCoverage}

/-- What stands under the spellings of a key, in their order, each by its new name. -/
def spelled (key : String) (l : List (String × FileCoverage)) : List FileCoverage :=
  (l.filter fun e => normalize e.1 == key).map fun e => { e.2 with path := key }

theorem spelled_cons (e : String × FileCoverage) (l : List (String × FileCoverage)) :
    spelled key (e :: l) =
      if normalize e.1 = key then { e.2 with path := key } :: spelled key l else spelled key l := by
  rw [spelled, List.filter_cons]
  by_cases he : normalize e.1 = key
  · rw [if_pos (by simpa using he), if_pos he]
    rfl
  · rw [if_neg (by simpa using he), if_neg he]
    rfl

theorem mem_spelled :
    f ∈ spelled key l ↔ ∃ e ∈ l, normalize e.1 = key ∧ { e.2 with path := key } = f := by
  rw [spelled, List.mem_map]
  exact exists_congr fun e => by rw [List.mem_filter, beq_iff_eq, and_assoc]

/-- A file that shares its new name with no other is all that stands under it. -/
theorem spelled_of_alone {path : String} (hf : m.get? path = some f)
    (halone : ∀ other ∈ m.paths, normalize other = normalize path → other = path) :
    spelled (normalize path) m.entries = [{ f with path := normalize path }] := by
  have hself : (m.entries.filter fun e => normalize e.1 == normalize path) =
      m.entries.filter fun e => e.1 == path := by
    refine List.filter_congr fun e he => ?_
    rw [Bool.eq_iff_iff, beq_iff_eq, beq_iff_eq]
    exact ⟨halone e.1 (List.mem_map.2 ⟨e, he, rfl⟩), fun h => h ▸ rfl⟩
  rw [spelled, hself, Matching.filter_eq_singleton m.nodup_keys (SortedMap.get?_eq_some_iff.1 hf)]
  rfl

theorem get?_foldl_groups (g : SortedMap String (List FileCoverage)) :
    (l.foldl (fun g e =>
      let key := normalize e.1
      g.insert key ((g.get? key).getD [] ++ [{ e.2 with path := key }])) g).get? key =
      if spelled key l = [] then g.get? key else some ((g.get? key).getD [] ++ spelled key l) := by
  induction l generalizing g with
  | nil => rfl
  | cons e l ih =>
    rw [List.foldl_cons, ih, SortedMap.get?_insert, spelled_cons]
    by_cases he : normalize e.1 = key
    · subst he
      cases spelled (normalize e.1) l <;> simp
    · simp [he]

theorem get?_groups : (groups m).get? key =
    if spelled key m.entries = [] then none else some (spelled key m.entries) := by
  rw [groups, get?_foldl_groups]
  rfl

theorem get?_normalizeMap :
    (normalizeMap m).get? key = Merge.file? key (spelled key m.entries) .max := by
  rw [normalizeMap, SortedMap.get?_ofList_filterMap (groups m).nodup_keys fun key l =>
    Merge.file? key l .max]
  change ((groups m).get? key).bind _ = _
  rw [get?_groups]
  split
  · next h => rw [h, Merge.file?_nil, Option.bind_none]
  · rfl

theorem mem_paths_normalizeMap :
    key ∈ (normalizeMap m).paths ↔ ∃ path ∈ m.paths, normalize path = key := by
  rw [CoverageMap.paths, SortedMap.mem_keys_iff, ← Option.ne_none_iff_isSome, get?_normalizeMap, Ne,
    Merge.file?_eq_none_iff, List.eq_nil_iff_forall_not_mem]
  simp only [mem_spelled, not_forall, Classical.not_not, CoverageMap.paths, SortedMap.keys, List.mem_map]
  constructor
  · rintro ⟨_, e, he, hkey, -⟩
    exact ⟨e.1, ⟨e, he, rfl⟩, hkey⟩
  · rintro ⟨_, ⟨e, he, rfl⟩, hkey⟩
    exact ⟨_, e, he, hkey, rfl⟩

end Coverage.Keys

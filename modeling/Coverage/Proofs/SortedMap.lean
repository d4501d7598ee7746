import Coverage.SortedMap
import Mathlib.Data.List.Nodup

/-! Look-ups in maps built from lists of entries, and sizes of maps with given keys. -/
namespace Coverage.SortedMap

variable {κ α : Type} [Ord κ] {m : SortedMap κ α} {k : κ} {x : α} {l : List (κ × α)}

theorem lookup_append (l r : List (κ × α)) :
    lookup k (l ++ r) = (lookup k l).or (lookup k r) := by
  induction l with
  | nil => rfl
  | cons e l ih =>
    simp only [List.cons_append, lookup, ih]
    split <;> simp

section Lawful
variable [Std.LawfulEqOrd κ]

theorem contains_eq_true_iff : m.contains k = true ↔ k ∈ m.keys := mem_keys_iff.symm

theorem nodup_keys (m : SortedMap κ α) : m.keys.Nodup := by
  rw [keys, List.Nodup, List.pairwise_map]
  refine m.sorted.imp fun hlt he => ?_
  simp [he] at hlt

theorem nodup_entries (m : SortedMap κ α) : m.entries.Nodup := List.Nodup.of_map _ m.nodup_keys

/-- Keys that are given by one function of themselves may come in any order and repeatedly. -/
theorem lookup_filterMap_self [DecidableEq κ] (g : κ → Option α) (l : List κ) :
    lookup k (l.filterMap fun k => (g k).map (k, ·)) = if k ∈ l then g k else none := by
  induction l with
  | nil => rfl
  | cons a l ih =>
    by_cases ha : a = k
    · subst ha
      cases hg : g a with
      | none => simpa [hg] using ih
      | some x => simp [hg, lookup]
    · have hk : k ≠ a := fun he => ha he.symm
      cases hg : g a <;> simp [hg, lookup, ih, ha, hk]

variable [Std.TransOrd κ] [DecidableEq κ]

theorem get?_foldl_insert (l : List (κ × α)) (m : SortedMap κ α) :
    (l.foldl (fun m e => m.insert e.1 e.2) m).get? k = (lookup k l.reverse).or (m.get? k) := by
  induction l generalizing m with
  | nil => rfl
  | cons e l ih =>
    rw [List.foldl_cons, ih, List.reverse_cons, lookup_append, get?_insert]
    by_cases he : e.1 = k
    · simp [lookup, he]
    · simp [lookup, he]

theorem get?_ofList (l : List (κ × α)) : (ofList l).get? k = lookup k l.reverse := by
  rw [ofList, get?_foldl_insert, get?_empty, Option.or_none]

theorem mem_keys_ofList : k ∈ (ofList l).keys ↔ ∃ x, (k, x) ∈ l := by
  rw [mem_keys_iff, get?_ofList, ← Option.ne_none_iff_isSome, Ne, lookup_eq_none_iff]
  simp

omit [Std.TransOrd κ] [DecidableEq κ] in
/-- Under distinct keys the order of the entries does not matter. -/
theorem lookup_reverse (h : l.Pairwise fun a b => compare a.1 b.1 = .lt) :
    lookup k l.reverse = lookup k l := by
  induction l with
  | nil => rfl
  | cons e l ih =>
    obtain ⟨hhead, hrest⟩ := List.pairwise_cons.1 h
    rw [List.reverse_cons, lookup_append, ih hrest]
    by_cases hk : compare e.1 k = .eq
    · have hnone : lookup k l = none := by
        rw [lookup_eq_none_iff]
        intro a ha hak
        have hlt := hhead a ha
        rw [hak, hk] at hlt
        simp at hlt
      simp [lookup, hk, hnone]
    · simp [lookup, hk]

/-- Entries put into a map hide what it has under their keys. -/
theorem get?_foldl_insert_entries (n m : SortedMap κ α) :
    (n.entries.foldl (fun m e => m.insert e.1 e.2) m).get? k = (n.get? k).or (m.get? k) := by
  rw [get?_foldl_insert, lookup_reverse n.sorted]
  rfl

omit [DecidableEq κ] in
/-- Maps with entries under the same keys have the same keys in the same order. -/
theorem keys_eq_of_isSome_get? {β : Type} {m : SortedMap κ α} {n : SortedMap κ β}
    (h : ∀ k, (m.get? k).isSome = (n.get? k).isSome) : m.keys = n.keys := by
  have hunit : (m.mapWithKey fun _ _ => ()) = n.mapWithKey fun _ _ => () := by
    refine ext_get? fun k => ?_
    have hk := h k
    rw [get?_mapWithKey, get?_mapWithKey]
    cases hm : m.get? k <;> cases hn : n.get? k <;> simp_all
  rw [← keys_mapWithKey (m := m) fun _ _ => (), hunit, keys_mapWithKey]

omit [DecidableEq κ] in
theorem size_eq_of_isSome_get? {β : Type} {m : SortedMap κ α} {n : SortedMap κ β}
    (h : ∀ k, (m.get? k).isSome = (n.get? k).isSome) : m.size = n.size := by
  simpa [keys, size] using congrArg List.length (keys_eq_of_isSome_get? h)

omit [Std.TransOrd κ] [DecidableEq κ] in
theorem mem_of_lookup (h : lookup k l = some x) : (k, x) ∈ l := by
  induction l with
  | nil => simp [lookup] at h
  | cons e l ih =>
    rw [lookup] at h
    split at h
    · next hk =>
      obtain rfl := Option.some.inj h
      rw [← compare_eq_iff.1 hk]
      exact List.mem_cons_self
    · exact List.mem_cons_of_mem _ (ih h)

omit [Std.TransOrd κ] [DecidableEq κ] in
theorem lookup_eq_some_iff_of_nodup (h : (l.map (·.1)).Nodup) :
    lookup k l = some x ↔ (k, x) ∈ l := by
  refine ⟨mem_of_lookup, fun hmem => ?_⟩
  cases hl : lookup k l with
  | none => exact (lookup_eq_none_iff.1 hl _ hmem rfl).elim
  | some y => rw [(Prod.mk.inj (List.inj_on_of_nodup_map h (mem_of_lookup hl) hmem rfl)).2]

theorem get?_ofList_eq_some_iff (h : (l.map (·.1)).Nodup) :
    (ofList l).get? k = some x ↔ (k, x) ∈ l := by
  have hreverse : (l.reverse.map (·.1)).Nodup := by
    rw [List.map_reverse]
    exact List.nodup_reverse.2 h
  rw [get?_ofList, lookup_eq_some_iff_of_nodup hreverse, List.mem_reverse]

theorem mem_of_mem_ofList {e : κ × α} (h : e ∈ (ofList l).entries) : e ∈ l := by
  have hget := get?_eq_some_iff.2 h
  rw [get?_ofList] at hget
  exact List.mem_reverse.1 (mem_of_lookup hget)

/-- A list with distinct keys holds the entries of the map that is built from it, in some order. -/
theorem perm_entries_iff (h : (l.map (·.1)).Nodup) : l.Perm m.entries ↔ m = ofList l := by
  constructor
  · intro hperm
    refine ext_get? fun k => Option.ext fun x => ?_
    rw [get?_ofList_eq_some_iff h, get?_eq_some_iff, hperm.mem_iff]
  · rintro rfl
    refine (List.perm_ext_iff_of_nodup (h.of_map _) (nodup_entries _)).2 fun ⟨k, x⟩ => ?_
    rw [← get?_eq_some_iff, get?_ofList_eq_some_iff h]

/-- Entries that are turned into others or dropped one by one, each under its own key. -/
theorem get?_ofList_filterMap {β : Type} (h : (l.map (·.1)).Nodup) (g : κ → α → Option β) :
    (ofList (l.filterMap fun e => (g e.1 e.2).map (e.1, ·))).get? k = (lookup k l).bind (g k) := by
  have hkeys : ((l.filterMap fun e => (g e.1 e.2).map (e.1, ·)).map (·.1)).Sublist (l.map (·.1)) := by
    clear h
    induction l with
    | nil => simp
    | cons e l ih =>
      cases he : g e.1 e.2 with
      | none => simpa [he] using ih.cons e.1
      | some y => simpa [he] using ih
  refine Option.ext fun y => ?_
  rw [get?_ofList_eq_some_iff (h.sublist hkeys), Option.bind_eq_some_iff]
  simp only [List.mem_filterMap, Option.map_eq_some_iff, Prod.exists, Prod.mk.injEq,
    lookup_eq_some_iff_of_nodup h]
  constructor
  · rintro ⟨_, x, hx, _, hy, rfl, rfl⟩
    exact ⟨x, hx, hy⟩
  · rintro ⟨x, hx, hy⟩
    exact ⟨k, x, hx, y, hy, rfl, rfl⟩

theorem ofList_entries (m : SortedMap κ α) : ofList m.entries = m :=
  ext_get? fun k => by rw [get?_ofList, lookup_reverse m.sorted, get?]

end Lawful

theorem size_filter (p : κ → α → Bool) (m : SortedMap κ α) :
    m.size = (m.filter p).size + (m.filter fun k x => !p k x).size := by
  have h := List.length_eq_countP_add_countP (fun e : κ × α => p e.1 e.2) (l := m.entries)
  simpa [size, filter, List.countP_eq_length_filter] using h

theorem size_filter_keys (p : κ → Bool) (m : SortedMap κ α) :
    (m.filter fun k _ => p k).size = (m.keys.filter p).length := by
  simp [size, filter, keys, List.filter_map, Function.comp_def]

end Coverage.SortedMap

import Coverage.Proofs.SortedMap
import Coverage.Proofs.Selection.Patterns

/-!
Which files are selected. Ranking loses no pattern, so the selected files are those some pattern
names, ascending; and in an ascending list the search by halving finds every name it has. Hence what
stays of a map is decided by the patterns alone.
-/
namespace Coverage.Selection

open Pattern (Names)

variable {files patterns l : List String} {a : Array String} {name : String}

section Search

/-- Names in increasing order, each once. -/
def Ascending (l : List String) : Prop := l.Pairwise (· < ·)

theorem lt_of_compare {x y : String} (h : compare x y = .lt) : x < y := compareOfLessAndEq_eq_lt.1 h

theorem ascending_keys {α : Type} (m : SortedMap String α) : Ascending m.keys :=
  List.pairwise_map.2 (m.sorted.imp lt_of_compare)

theorem ascending_paths (m : CoverageMap) : Ascending m.paths := ascending_keys m

theorem Ascending.getElem_lt (h : Ascending a.toList) {i j : Nat} (hij : i < j) (hj : j < a.size) :
    a[i] < a[j] :=
  List.pairwise_iff_getElem.1 h i j (Nat.lt_trans hij hj) hj hij

theorem Ascending.lt_of_getElem_lt (h : Ascending a.toList) {i j : Nat} (hi : i < a.size)
    (hj : j < a.size) (hlt : a[i] < a[j]) : i < j := by
  rcases Nat.lt_trichotomy i j with hij | rfl | hji
  · exact hij
  · exact absurd hlt (String.lt_irrefl _)
  · exact absurd (String.lt_trans hlt (h.getElem_lt hji hi)) (String.lt_irrefl _)

/-- Names before the middle one are smaller and names behind it greater, so one half is enough. -/
theorem within_iff (ha : Ascending a.toList) {rounds low high : Nat} {h : high ≤ a.size}
    (hrounds : high - low ≤ rounds) :
    within a name rounds low high h = true ↔ ∃ i, low ≤ i ∧ ∃ hi : i < high, a[i] = name := by
  induction rounds generalizing low high with
  | zero =>
    rw [within]
    grind
  | succ rounds ih =>
    rw [within]
    split
    · next hlt =>
      have hmiddle : (low + high) / 2 < a.size := by omega
      dsimp only
      split
      · next heq =>
        exact iff_of_true rfl ⟨_, by omega, by omega, SortedMap.compare_eq_iff.1 heq⟩
      · next hless =>
        rw [ih (by omega)]
        constructor
        · rintro ⟨i, hlow, hhigh, hi⟩
          exact ⟨i, by omega, hhigh, hi⟩
        · rintro ⟨i, -, hhigh, rfl⟩
          exact ⟨i, ha.lt_of_getElem_lt hmiddle (by omega) (lt_of_compare hless), hhigh, rfl⟩
      · next hgreater =>
        rw [ih (by omega)]
        constructor
        · rintro ⟨i, hlow, hhigh, hi⟩
          exact ⟨i, hlow, by omega, hi⟩
        · rintro ⟨i, hlow, hhigh, rfl⟩
          have hless := lt_of_compare (Std.OrientedCmp.lt_of_gt hgreater)
          exact ⟨i, hlow, ha.lt_of_getElem_lt (by omega) hmiddle hless, rfl⟩
    · grind

theorem has_iff (hl : Ascending l) : has l.toArray name = true ↔ name ∈ l := by
  rw [has, within_iff hl (Nat.le_of_eq (Nat.sub_zero _)), List.mem_iff_getElem]
  simp

end Search

section Selected

/-- Ranking only reorders patterns: each is of one of the four kinds. -/
theorem perm_ranked (patterns : List String) : (ranked patterns).Perm patterns := by
  rw [List.perm_iff_count]
  intro p
  have hcount (q : String → Bool) : (patterns.filter q).count p = if q p then patterns.count p else 0 := by
    split
    · next hq => exact List.count_filter hq
    · next hq => exact List.count_eq_zero.2 fun hp => hq (List.mem_filter.1 hp).2
  simp only [ranked, List.count_append, hcount]
  cases Pattern.isPath p <;> cases Pattern.isWild p <;> simp

theorem mem_matched {p : String} : name ∈ matched files p ↔ name ∈ files ∧ Names p name := by
  rw [matched, List.mem_filter, Pattern.matchesName_iff]

theorem matched_isEmpty_iff {p : String} :
    (matched files p).isEmpty = true ↔ ∀ name ∈ files, ¬ Names p name := by
  rw [List.isEmpty_iff, List.eq_nil_iff_forall_not_mem]
  simp only [mem_matched, not_and]

theorem perm_unmatched (files patterns : List String) :
    (unmatched files patterns).Perm (patterns.filter fun p => ∀ name ∈ files, ¬ Names p name) := by
  have hmissed : (fun p => (matched files p).isEmpty) =
      fun p => decide (∀ name ∈ files, ¬ Names p name) := by
    funext p
    rw [Bool.eq_iff_iff, matched_isEmpty_iff, decide_eq_true_iff]
  rw [unmatched, hmissed]
  exact (perm_ranked patterns).filter _

theorem ascending_selected (files patterns : List String) : Ascending (selected files patterns) :=
  ascending_keys _

theorem mem_selected :
    name ∈ selected files patterns ↔ name ∈ files ∧ ∃ p ∈ patterns, Names p name := by
  rw [selected, SortedMap.mem_keys_ofList]
  simp only [List.mem_map, List.mem_flatMap, (perm_ranked patterns).mem_iff, mem_matched]
  grind

theorem mem_wanted :
    name ∈ wanted files patterns ↔ name ∈ files ∧ (patterns = [] ∨ ∃ p ∈ patterns, Names p name) := by
  cases patterns with
  | nil => simp [wanted]
  | cons p ps => simp [wanted, mem_selected]

theorem Ascending.wanted (h : Ascending files) (patterns : List String) :
    Ascending (wanted files patterns) := by
  rw [Selection.wanted]
  split
  · exact h
  · exact ascending_selected files patterns

end Selected

section Filter
variable {m : CoverageMap} {included excluded : List String} {f : FileCoverage}

theorem keeps_iff (h : name ∈ m.paths) :
    keeps (wanted m.paths included).toArray (selected m.paths excluded).toArray name f = true ↔
      (included = [] ∨ ∃ p ∈ included, Names p name) ∧ ∀ p ∈ excluded, ¬ Names p name := by
  rw [keeps, Bool.and_eq_true, Bool.not_eq_true', ← Bool.not_eq_true,
    has_iff ((ascending_paths m).wanted included), has_iff (ascending_selected m.paths excluded),
    mem_wanted, mem_selected]
  simp [h]

theorem get?_filter_eq_some_iff :
    (filter m included excluded).get? name = some f ↔ m.get? name = some f ∧
      (included = [] ∨ ∃ p ∈ included, Names p name) ∧ ∀ p ∈ excluded, ¬ Names p name := by
  rw [filter, SortedMap.get?_filter, Option.filter_eq_some_iff]
  refine and_congr_right fun hget => ?_
  exact keeps_iff (SortedMap.mem_keys_iff.2 (by simp [hget]))

theorem filter_of_no_patterns (m : CoverageMap) : filter m [] [] = m := by
  refine SortedMap.ext_get? fun name => Option.ext fun f => ?_
  simp [get?_filter_eq_some_iff]

/-- An entry is kept, as it is, exactly if some included pattern names it, or there is none, and no
excluded one does; the patterns of both lists that name no entry are told; and the files selected are
those some pattern names, in increasing order. -/
theorem chosen_of_patterns (m : CoverageMap) (included excluded files patterns : List String) :
    (∀ name f, (filter m included excluded).get? name = some f ↔ m.get? name = some f ∧
      (included = [] ∨ ∃ p ∈ included, Names p name) ∧ ∀ p ∈ excluded, ¬ Names p name) ∧
    (unmatchedIn m included excluded).Perm
      ((included ++ excluded).filter fun p => ∀ name ∈ m.paths, ¬ Names p name) ∧
    (selected files patterns).Pairwise (· < ·) ∧
    ∀ name, name ∈ selected files patterns ↔ name ∈ files ∧ ∃ p ∈ patterns, Names p name := by
  refine ⟨fun _ _ => get?_filter_eq_some_iff, ?_, ascending_selected files patterns,
    fun _ => mem_selected⟩
  rw [List.filter_append]
  exact (perm_unmatched _ _).append (perm_unmatched _ _)

end Filter
end Coverage.Selection

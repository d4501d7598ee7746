import Coverage.Merge
import Coverage.Proofs.Validity

/-! The rule for a statement at the very start of a file, said by look-ups, and what it changes. -/
namespace Coverage.Merge

variable {f : FileCoverage} {others : List FileCoverage} {id i : Id}

/-- Of the statements at the very start of the file this id is the lowest. -/
structure IsDirective (f : FileCoverage) (id : Id) : Prop where
  starts : ∃ s, f.statements.records.get? id = some s ∧ s.start = .origin
  first : ∀ i s, f.statements.records.get? i = some s → s.start = .origin → id ≤ i

def StatementRan (f : FileCoverage) (id : Id) : Prop :=
  ∃ i h, f.statements.hits.get? i = some h ∧ i ≠ id ∧ 0 < h

def FunctionRan (f : FileCoverage) : Prop := ∃ i h, f.functions.hits.get? i = some h ∧ 0 < h

/-- Another statement ran, or a function did. Arms of branches are not asked. -/
def RanBesides (f : FileCoverage) (id : Id) : Prop := StatementRan f id ∨ FunctionRan f

/-- All that makes a directive count as run. -/
structure DirectiveRuns (others : List FileCoverage) (f : FileCoverage) (id : Id) : Prop where
  directive : IsDirective f id
  absent : ∃ o ∈ others, o.hasStatementOnLine 1 = false
  ran : RanBesides f id

theorem isDirective_of_directive? (h : directive? f = some id) : IsDirective f id := by
  obtain ⟨⟨_, s⟩, he, rfl⟩ := Option.map_eq_some_iff.1 h
  have hstart := List.find?_some he
  refine ⟨⟨s, SortedMap.get?_eq_some_iff.2 (List.mem_of_find?_eq_some he), by simpa using hstart⟩, ?_⟩
  intro i r hi hr
  exact lowest_of_find? f.statements.records.pairwise_entries he _ (SortedMap.get?_eq_some_iff.1 hi)
    (by simpa using hr)

theorem IsDirective.unique (h : IsDirective f id) (hi : IsDirective f i) : id = i := by
  obtain ⟨s, hs, hstart⟩ := h.starts
  obtain ⟨r, hr, hrstart⟩ := hi.starts
  exact UInt32.le_antisymm (h.first i r hr hrstart) (hi.first id s hs hstart)

theorem directive?_eq_some_iff : directive? f = some id ↔ IsDirective f id := by
  refine ⟨isDirective_of_directive?, fun h => ?_⟩
  cases hd : directive? f with
  | some i => rw [(isDirective_of_directive? hd).unique h]
  | none =>
    obtain ⟨s, hs, hstart⟩ := h.starts
    have hnone := List.find?_eq_none.1 (Option.map_eq_none_iff.1 hd) (id, s)
      (SortedMap.get?_eq_some_iff.1 hs)
    simp [hstart] at hnone

theorem ranBesides_iff : ranBesides f id ↔ RanBesides f id := by
  simp [ranBesides, RanBesides, StatementRan, FunctionRan, SortedMap.values,
    ← SortedMap.get?_eq_some_iff]

theorem directiveRuns_iff :
    DirectiveRuns others f id ↔
      directive? f = some id ∧ others.any (!·.hasStatementOnLine 1) ∧ ranBesides f id := by
  rw [directive?_eq_some_iff, ranBesides_iff]
  constructor
  · rintro ⟨hd, ha, hr⟩
    exact ⟨hd, by simpa using ha, hr⟩
  · rintro ⟨hd, ha, hr⟩
    exact ⟨hd, by simpa using ha, hr⟩

instance : Decidable (DirectiveRuns others f id) := decidable_of_iff _ directiveRuns_iff.symm

/-- A count as the rule leaves it. -/
def ruled (others : List FileCoverage) (f : FileCoverage) (id : Id) (h : Hits) : Hits :=
  if h = 0 ∧ DirectiveRuns others f id then 1 else h

theorem countDirective_functions : (countDirective others f).functions = f.functions := by
  unfold countDirective
  repeat' split
  all_goals rfl

theorem countDirective_branches : (countDirective others f).branches = f.branches := by
  unfold countDirective
  repeat' split
  all_goals rfl

theorem countDirective_path : (countDirective others f).path = f.path := by
  unfold countDirective
  repeat' split
  all_goals rfl

theorem records_countDirective :
    (countDirective others f).statements.records = f.statements.records := by
  unfold countDirective
  repeat' split
  all_goals rfl

/-- The rule changes the count of the directive from zero to one and nothing else. -/
theorem get?_hits_countDirective :
    (countDirective others f).statements.hits.get? id =
      (f.statements.hits.get? id).map (ruled others f id) := by
  have hsame (hno : ¬ DirectiveRuns others f id) :
      f.statements.hits.get? id = (f.statements.hits.get? id).map (ruled others f id) := by
    have hid : ruled others f id = fun h => h := funext fun h => by simp [ruled, hno]
    rw [hid, Option.map_id']
  unfold countDirective
  split
  · next hd =>
    apply hsame
    intro h
    simpa [hd] using (directiveRuns_iff.1 h).1
  · next i hd =>
    split
    · next hrule =>
      rw [Bool.and_eq_true] at hrule
      have hruns : DirectiveRuns others f i := directiveRuns_iff.2 ⟨hd, hrule⟩
      change (f.statements.hits.modify i _).get? id = _
      rw [SortedMap.get?_modify]
      by_cases he : i = id
      · subst he
        rw [if_pos rfl]
        congr 1
        funext h
        simp [ruled, hruns]
      · rw [if_neg he]
        exact hsame fun h => he (hruns.directive.unique h.directive)
    · next hrule =>
      apply hsame
      intro h
      obtain ⟨hdir, hrest⟩ := directiveRuns_iff.1 h
      rw [hd, Option.some.injEq] at hdir
      subst hdir
      simp [hrest] at hrule

/-- What the directive is depends on the statements alone, not on their counts. -/
theorem isDirective_congr {g : FileCoverage} (h : f.statements.records = g.statements.records) :
    IsDirective f id ↔ IsDirective g id := by
  constructor
  · rintro ⟨hs, hf⟩
    rw [h] at hs hf
    exact ⟨hs, hf⟩
  · rintro ⟨hs, hf⟩
    rw [← h] at hs hf
    exact ⟨hs, hf⟩

theorem isDirective_countDirective :
    IsDirective (countDirective others f) id ↔ IsDirective f id :=
  isDirective_congr records_countDirective

theorem get?_hits_countDirective_of_ne (hd : IsDirective f id) (hi : i ≠ id) :
    (countDirective others f).statements.hits.get? i = f.statements.hits.get? i := by
  have hid : ruled others f i = fun h => h := funext fun h => by
    simp only [ruled, ite_eq_right_iff, and_imp]
    intro _ hr
    exact (hi (hr.directive.unique hd)).elim
  rw [get?_hits_countDirective, hid, Option.map_id']

theorem statementRan_countDirective (hd : IsDirective f id) :
    StatementRan (countDirective others f) id ↔ StatementRan f id := by
  refine exists_congr fun i => exists_congr fun h => ?_
  by_cases hi : i = id
  · simp [hi]
  · rw [get?_hits_countDirective_of_ne hd hi]

theorem functionRan_countDirective : FunctionRan (countDirective others f) ↔ FunctionRan f := by
  rw [FunctionRan, countDirective_functions, FunctionRan]

/-- The rule is read off the result as well as off what it was applied to. -/
theorem directiveRuns_countDirective {o : List FileCoverage} :
    DirectiveRuns others (countDirective o f) id ↔ DirectiveRuns others f id := by
  have hran (hd : IsDirective f id) : RanBesides (countDirective o f) id ↔ RanBesides f id := by
    rw [RanBesides, RanBesides, statementRan_countDirective hd, functionRan_countDirective]
  constructor
  · rintro ⟨hd, ha, hr⟩
    have hd := isDirective_countDirective.1 hd
    exact ⟨hd, ha, (hran hd).1 hr⟩
  · rintro ⟨hd, ha, hr⟩
    exact ⟨isDirective_countDirective.2 hd, ha, (hran hd).2 hr⟩

theorem ruled_countDirective {o : List FileCoverage} (h : Hits) :
    ruled others (countDirective o f) id h = ruled others f id h := by
  simp only [ruled, directiveRuns_countDirective]

theorem le_ruled (h : Hits) : h ≤ ruled others f i h := by
  rw [ruled]
  split
  · next hc =>
    rw [hc.1]
    decide
  · exact UInt64.le_refl h

theorem ruled_ruled (h : Hits) : ruled others f i (ruled others f i h) = ruled others f i h := by
  unfold ruled
  by_cases hc : h = 0 ∧ DirectiveRuns others f i
  · simp [hc]
  · rw [if_neg hc, if_neg hc]

theorem countDirective_eq_self
    (h : ∀ i c, f.statements.hits.get? i = some c → ruled others f i c = c) :
    countDirective others f = f := by
  have hstatements : (countDirective others f).statements = f.statements := by
    refine Table.ext_get? records_countDirective fun i => ?_
    rw [get?_hits_countDirective]
    cases hi : f.statements.hits.get? i with
    | none => rfl
    | some c => rw [Option.map_some, h i c hi]
  calc countDirective others f
      = ⟨(countDirective others f).path, (countDirective others f).statements,
          (countDirective others f).functions, (countDirective others f).branches⟩ := rfl
    _ = ⟨f.path, f.statements, f.functions, f.branches⟩ := by
        rw [countDirective_path, hstatements, countDirective_functions, countDirective_branches]

theorem countDirective_of_not_runs (h : ∀ i, ¬ DirectiveRuns others f i) :
    countDirective others f = f :=
  countDirective_eq_self fun i _ _ => if_neg fun hc => h i hc.2

/-- The rule has nothing to change in its own result. -/
theorem countDirective_again (others : List FileCoverage) (f : FileCoverage) :
    countDirective others (countDirective others f) = countDirective others f := by
  refine countDirective_eq_self fun i c hi => ?_
  rw [get?_hits_countDirective, Option.map_eq_some_iff] at hi
  obtain ⟨h, _, rfl⟩ := hi
  rw [ruled_countDirective, ruled_ruled]

end Coverage.Merge

import Coverage.Proofs.Base.Files

/-! Zeros that the rule for directives leaves. A statement at the very start of a file is left without a
count, though something else in the file ran, only if a lower id starts there as well or if nothing but
arms of branches ran. -/
namespace Coverage.Merge

variable {f g : FileCoverage} {others : List FileCoverage} {id : Id}

def ArmRan (f : FileCoverage) : Prop :=
  ∃ i l h, f.branches.hits.get? i = some l ∧ h ∈ l ∧ 0 < h

/-- All that speaks for a statement at the very start of the file to have run once. -/
structure Evident (others : List FileCoverage) (f : FileCoverage) (id : Id) : Prop where
  starts : ∃ s, f.statements.records.get? id = some s ∧ s.start = .origin
  absent : ∃ o ∈ others, o.hasStatementOnLine 1 = false
  ran : RanBesides f id ∨ ArmRan f

/-- The file `f` is what the rule makes of the merged file `g`, if `others` do not supply the statements.
Of all counts only that of the directive may change, from zero to one. -/
structure AfterRule (others : List FileCoverage) (g f : FileCoverage) : Prop where
  path : f.path = g.path
  statements : f.statements.records = g.statements.records
  functions : f.functions = g.functions
  branches : f.branches = g.branches
  changed : ∀ id, f.statements.hits.get? id ≠ g.statements.hits.get? id →
    DirectiveRuns others f id ∧ g.statements.hits.get? id = some 0 ∧
      f.statements.hits.get? id = some 1
  /-- A zero stays unless the statement is the directive and a statement or a function ran. -/
  evident : ∀ id, Evident others f id → ∃ h, f.statements.hits.get? id = some h ∧
    (h = 0 ↔ g.statements.hits.get? id = some 0 ∧ (¬ IsDirective f id ∨ ¬ RanBesides f id))

theorem directiveRuns_iff_of_absent (h : ∃ o ∈ others, o.hasStatementOnLine 1 = false) :
    DirectiveRuns others f id ↔ IsDirective f id ∧ RanBesides f id :=
  ⟨fun hr => ⟨hr.directive, hr.ran⟩, fun hr => ⟨hr.1, h, hr.2⟩⟩

theorem ruled_eq_zero_iff {h : Hits} : ruled others f id h = 0 ↔ h = 0 ∧ ¬ DirectiveRuns others f id := by
  rw [ruled]
  split
  · next hr => simp [hr.2]
  · next hr =>
    constructor
    · exact fun h0 => ⟨h0, fun hd => hr ⟨h0, hd⟩⟩
    · exact And.left

theorem afterRule_countDirective (others : List FileCoverage) (hg : g.Valid) :
    AfterRule others g (countDirective others g) where
  path := countDirective_path
  statements := records_countDirective
  functions := countDirective_functions
  branches := countDirective_branches
  changed id hne := by
    rw [get?_hits_countDirective] at hne ⊢
    cases hc : g.statements.hits.get? id with
    | none => simp [hc] at hne
    | some c =>
      have hruled : ruled others g id c ≠ c := by simpa [hc] using hne
      have hruns : c = 0 ∧ DirectiveRuns others g id := by
        by_contra hno
        exact hruled (if_neg hno)
      refine ⟨directiveRuns_countDirective.2 hruns.2, ?_, ?_⟩
      · rw [hruns.1]
      · rw [Option.map_some, ruled, if_pos hruns]
  evident id he := by
    obtain ⟨s, hs, _⟩ := he.starts
    rw [records_countDirective] at hs
    have hc := (FileCoverage.valid_iff.1 hg).1.get? hs
    refine ⟨ruled others g id (g.statements.count id), ?_, ?_⟩
    · rw [get?_hits_countDirective, hc, Option.map_some]
    · rw [ruled_eq_zero_iff, ← directiveRuns_countDirective (o := others),
        directiveRuns_iff_of_absent he.absent, hc, Option.some_inj, not_and_or]

/-- A path with two valid sources has a file that the rule has been applied to, whether maps are merged
or new coverage is merged onto a base. -/
theorem directive_of_merges (path : String) :
    (∀ (l : List CoverageMap) (s : Strategy), 2 ≤ (validAt l path).length →
      ∃ p q r : Split (validAt l path),
        p.Supplies s (·.statements) ∧ q.Supplies s (·.functions) ∧ r.Supplies s (·.branches) ∧
        ∃ f, (maps l s).get? path = some f ∧ AfterRule p.others (assemble path s p q r) f) ∧
    ∀ (base additional : CoverageMap) (b a : FileCoverage), base.get? path = some b →
      additional.get? path = some a → b.Valid → a.Valid →
      ∃ p : Split [b, a], p.before.length = Base.skeleton [b, a] ∧
        ∃ f, (Base.merge base additional).get? path = some f ∧
          AfterRule p.others (assemble path .max p p p) f := by
  constructor
  · intro l s h
    obtain ⟨p, q, r, hp, hq, hr, hget⟩ := get?_maps_of_two_valid s h
    have hvalid : (assemble path s p q r).Valid :=
      valid_assemble (fun f hf => valid_of_mem_validAt hf) p q r
    exact ⟨p, q, r, hp, hq, hr, _, hget, afterRule_countDirective p.others hvalid⟩
  · intro base additional b a hb ha hvb hva
    have hsources : ∀ f ∈ [b, a], f.Valid := by simpa using ⟨hvb, hva⟩
    refine ⟨Base.supplier b a, Base.length_before_supplier b a, _, Base.get?_merge_of_both hb ha, ?_⟩
    rw [Base.file_of_valid path hvb hva]
    exact afterRule_countDirective _ (valid_assemble hsources _ _ _)

/-- A directive that did not run. -/
def directiveOnly : FileCoverage where
  path := "/a.ts"
  statements := ⟨.ofList [(0, .ofNumbers 1 0 1 12)], .ofList [(0, 0)]⟩
  functions := ∅
  branches := ∅

/-- A choice of which one arm ran. -/
def choiceOnly : FileCoverage where
  path := "/a.ts"
  statements := ∅
  functions := ∅
  branches := ⟨.ofList [(0, ⟨.ofNumbers 3 4 3 18, .conditional,
    [.ofNumbers 3 8 3 11, .ofNumbers 3 14 3 18], 3⟩)], .ofList [(0, [1, 0])]⟩

/-- Two statements at the very start that did not run, and one below that did. -/
def sharedStart : FileCoverage where
  path := "/a.ts"
  statements := ⟨.ofList [(0, .ofNumbers 1 0 1 12), (1, .ofNumbers 1 0 1 30), (2, .ofNumbers 2 0 2 8)],
    .ofList [(0, 0), (1, 0), (2, 3)]⟩
  functions := ∅
  branches := ∅

theorem directive_of_merges_sample :
    2 ≤ (validAt sample "/a.ts").length ∧
    (∃ p q r : Split (validAt sample "/a.ts"),
      p.Supplies .add (·.statements) ∧ q.Supplies .add (·.functions) ∧ r.Supplies .add (·.branches) ∧
      ∃ f, (maps sample .add).get? "/a.ts" = some f ∧
        AfterRule p.others (assemble "/a.ts" .add p q r) f) ∧
    sharedStart.Valid ∧ (FileCoverage.empty "/a.ts").Valid ∧
    ∃ p : Split [sharedStart, .empty "/a.ts"],
      p.before.length = Base.skeleton [sharedStart, .empty "/a.ts"] ∧
      ∃ f, (Base.merge (Base.single sharedStart) (Base.single (.empty "/a.ts"))).get? "/a.ts" = some f ∧
        AfterRule p.others (assemble "/a.ts" .max p p p) f :=
  ⟨by decide, (directive_of_merges "/a.ts").1 sample .add (by decide), by decide, by decide,
    (directive_of_merges "/a.ts").2 (Base.single sharedStart) (Base.single (.empty "/a.ts"))
      sharedStart (.empty "/a.ts") (by decide) (by decide) (by decide) (by decide)⟩

/-- At this path all speaks for the statement to have run, and yet it is left without a count. -/
def FalseZero (l : List CoverageMap) (path : String) (id : Id) : Prop :=
  ∃ p : Split (validAt l path), p.Supplies .max (·.statements) ∧
    ∃ f, (maps l .max).get? path = some f ∧ Evident p.others f id ∧
      f.statements.hits.get? id = some 0

/-- An arm that ran is not asked for, nor is a second statement with the same start counted. -/
theorem falseZero_of_arm_and_of_shared_start :
    FalseZero [Base.single directiveOnly, Base.single choiceOnly] "/a.ts" 0 ∧
    FalseZero [Base.single sharedStart, Base.single (.empty "/a.ts")] "/a.ts" 1 := by
  constructor
  · have hv : validAt [Base.single directiveOnly, Base.single choiceOnly] "/a.ts" =
        [] ++ directiveOnly :: [choiceOnly] := by decide
    have hfewer : ∀ o ∈ [choiceOnly], o.statements.size < directiveOnly.statements.size := by decide
    refine ⟨⟨[], directiveOnly, [choiceOnly], hv⟩, ⟨by simp, hfewer⟩,
      { directiveOnly with branches := choiceOnly.branches }, by decide, ⟨?_, ?_, ?_⟩, by decide⟩
    · exact ⟨.ofNumbers 1 0 1 12, by decide, by decide⟩
    · exact ⟨choiceOnly, by simp [Split.others], by decide⟩
    · exact .inr ⟨0, [1, 0], 1, by decide, by decide, by decide⟩
  · have hv : validAt [Base.single sharedStart, Base.single (.empty "/a.ts")] "/a.ts" =
        [] ++ sharedStart :: [.empty "/a.ts"] := by decide
    have hfewer : ∀ o ∈ [FileCoverage.empty "/a.ts"],
        o.statements.size < sharedStart.statements.size := by decide
    refine ⟨⟨[], sharedStart, [.empty "/a.ts"], hv⟩, ⟨by simp, hfewer⟩,
      { sharedStart with statements.hits := .ofList [(0, 1), (1, 0), (2, 3)] }, by decide,
      ⟨?_, ?_, ?_⟩, by decide⟩
    · exact ⟨.ofNumbers 1 0 1 30, by decide, by decide⟩
    · exact ⟨.empty "/a.ts", by simp [Split.others], by decide⟩
    · exact .inl (.inl ⟨2, 3, by decide, by decide, by decide⟩)

end Coverage.Merge

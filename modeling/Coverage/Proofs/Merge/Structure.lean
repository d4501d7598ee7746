import Coverage.Proofs.Merge.Sources

/-! The structure of a merged file. Each kind of record is that of one valid source, and validity is
kept, because raising counts and the rule for directives change neither records nor ids. -/
namespace Coverage

/-- The same records, and counts under the same ids. -/
structure Table.SameShape {ρ η : Type} (t u : Table ρ η) : Prop where
  records : t.records = u.records
  ids : t.hits.keys = u.hits.keys

theorem Table.SameShape.rfl {ρ η : Type} {t : Table ρ η} : t.SameShape t := ⟨Eq.refl _, Eq.refl _⟩

namespace Merge
variable {ρ η ω : Type} [Inhabited η] {kind : RecordKind ρ η ω} {s : Strategy} {path : String}
  {sources others : List FileCoverage} {part : FileCoverage → Table ρ η} {f : FileCoverage} {id : Id}

open FileCoverage Table

theorem sameShape_raised (skeleton : Table ρ η) (others : List (Table ρ η)) :
    (raised kind s skeleton others).SameShape skeleton :=
  ⟨records_raised, keys_raised⟩

theorem sameShape_countDirective : (countDirective others f).statements.SameShape f.statements := by
  refine ⟨records_countDirective, ?_⟩
  unfold countDirective
  repeat' split
  all_goals first | rfl | exact SortedMap.keys_modify _

theorem length_raiseBy (h : List Hits) (x : Option (Candidate (BranchSite × List Hits))) :
    (raiseBy .branches s h x).length = h.length := by
  cases x with
  | none => rfl
  | some c => exact Matching.length_combineArms _ _ _

theorem length_foldl_raiseBy (skeleton : Table BranchSite (List Hits))
    (others : List (Table BranchSite (List Hits))) (h : List Hits) :
    (others.foldl (fun h o => raiseBy .branches s h (taken? .branches s skeleton o id)) h).length =
      h.length := by
  induction others generalizing h with
  | nil => rfl
  | cons o others ih => rw [List.foldl_cons, ih, length_raiseBy]

theorem length_hits_raised (skeleton : Table BranchSite (List Hits))
    (others : List (Table BranchSite (List Hits))) (id : Id) :
    ((raised .branches s skeleton others).hits.get? id).map List.length =
      (skeleton.hits.get? id).map List.length := by
  rw [get?_hits_raised, Option.map_map]
  congr 1
  funext h
  exact length_foldl_raiseBy skeleton others h

theorem armsCounted_raised {skeleton : Table BranchSite (List Hits)}
    {others : List (Table BranchSite (List Hits))} (h : ArmsCounted skeleton) :
    ArmsCounted (raised .branches s skeleton others) := by
  intro id b hb
  rw [records_raised] at hb
  obtain ⟨c, hc, hlen⟩ := h id b hb
  rw [get?_hits_raised, hc]
  exact ⟨_, rfl, (length_foldl_raiseBy skeleton others c).trans hlen⟩

theorem counted_countDirective (h : f.statements.Counted) :
    (countDirective others f).statements.Counted := by
  intro id hid
  rw [get?_hits_countDirective, Option.isSome_map]
  exact h id (by simpa [Table.ids, records_countDirective] using hid)

theorem valid_countDirective (h : f.Valid) : (countDirective others f).Valid := by
  obtain ⟨hs, hf, hb⟩ := valid_iff.1 h
  refine valid_iff.2 ⟨counted_countDirective hs, ?_, ?_⟩
  · rwa [countDirective_functions]
  · rwa [countDirective_branches]

/-- Each table may come from another source, so it is the tables that must be sound. -/
theorem valid_assemble (h : ∀ f ∈ sources, f.Valid) (p q r : Split sources) :
    (assemble path s p q r).Valid := by
  refine valid_iff.2 ⟨counted_raised ?_, counted_raised ?_, armsCounted_raised ?_⟩
  · exact (valid_iff.1 (h _ p.source_mem)).1
  · exact (valid_iff.1 (h _ q.source_mem)).2.1
  · exact (valid_iff.1 (h _ r.source_mem)).2.2

/-- The split of a single source, which supplies everything under every strategy. -/
def Split.single (f : FileCoverage) : Split [f] := ⟨[], f, [], rfl⟩

omit [Inhabited η] in
theorem single_supplies (s : Strategy) (part : FileCoverage → Table ρ η) (f : FileCoverage) :
    (Split.single f).Supplies s part := by
  cases s <;> simp [Split.Supplies, Split.single]

/-- Each kind of record has the structure of the source that supplies it. -/
structure Structured (s : Strategy) (sources : List FileCoverage) (f : FileCoverage) : Prop where
  statements : ∃ p : Split sources, p.Supplies s (·.statements) ∧
    f.statements.SameShape p.source.statements
  functions : ∃ p : Split sources, p.Supplies s (·.functions) ∧
    f.functions.SameShape p.source.functions
  branches : ∃ p : Split sources, p.Supplies s (·.branches) ∧
    f.branches.SameShape p.source.branches ∧
    ∀ id, (f.branches.hits.get? id).map List.length =
      (p.source.branches.hits.get? id).map List.length

theorem structured_single (s : Strategy) (f : FileCoverage) : Structured s [f] f :=
  ⟨⟨.single f, single_supplies s _ f, .rfl⟩, ⟨.single f, single_supplies s _ f, .rfl⟩,
    ⟨.single f, single_supplies s _ f, .rfl, fun _ => rfl⟩⟩

theorem structured_assemble {p q r : Split sources} (hp : p.Supplies s (·.statements))
    (hq : q.Supplies s (·.functions)) (hr : r.Supplies s (·.branches)) :
    Structured s sources (countDirective others (assemble path s p q r)) where
  statements := by
    refine ⟨p, hp, ?_⟩
    have h : (countDirective others (assemble path s p q r)).statements.SameShape
        (assemble path s p q r).statements := sameShape_countDirective
    exact ⟨h.records.trans records_raised, h.ids.trans keys_raised⟩
  functions := by
    refine ⟨q, hq, ?_⟩
    rw [countDirective_functions]
    exact sameShape_raised _ _
  branches := by
    refine ⟨r, hr, ?_⟩
    rw [countDirective_branches]
    exact ⟨sameShape_raised _ _, length_hits_raised _ _⟩

theorem file?_of_valid (s : Strategy) (path : String) (h : sources.filter (·.Valid) ≠ []) :
    ∃ f, file? path sources s = some f ∧ f.Valid ∧ Structured s (sources.filter (·.Valid)) f := by
  have hvalid : ∀ f ∈ sources.filter (·.Valid), f.Valid := fun f hf => valid_of_mem_filter hf
  rcases file?_cases s path sources with ⟨hnone, -⟩ | ⟨f, hone, hfile⟩ |
    ⟨p, q, r, hp, hq, hr, hfile⟩
  · exact (h hnone).elim
  · refine ⟨f, hfile, hvalid f (by simp [hone]), ?_⟩
    rw [hone]
    exact structured_single s f
  · exact ⟨_, hfile, valid_countDirective (valid_assemble hvalid p q r), structured_assemble hp hq hr⟩

theorem get?_maps_of_valid (s : Strategy) {l : List CoverageMap} (h : validAt l path ≠ []) :
    ∃ f, (maps l s).get? path = some f ∧ f.Valid ∧ Structured s (validAt l path) f := by
  rw [get?_maps]
  exact file?_of_valid s path h

theorem file?_eq_none_iff : file? path sources s = none ↔ sources = [] := by
  constructor
  · intro hnone
    rcases file?_cases s path sources with ⟨-, hfile⟩ | ⟨f, -, hfile⟩ | ⟨p, q, r, -, -, -, hfile⟩
    · exact List.head?_eq_none_iff.1 (hfile.symm.trans hnone)
    · simp [hfile] at hnone
    · simp [hfile] at hnone
  · rintro rfl
    exact file?_nil

theorem get?_maps_eq_none_iff {l : List CoverageMap} :
    (maps l s).get? path = none ↔ sourcesAt l path = [] := by
  rw [get?_maps, file?_eq_none_iff]

theorem isSome_get?_maps {l : List CoverageMap} :
    ((maps l s).get? path).isSome ↔ ∃ m ∈ l, path ∈ m.paths := by
  rw [← Option.ne_none_iff_isSome, Ne, get?_maps_eq_none_iff, sourcesAt_eq_nil_iff,
    Classical.not_not, mem_pathsOf]

/-- A merged map has the paths of its inputs. A path with a valid entry has a valid file structured
like its suppliers, any other keeps the entry that was seen first, and a single map stays as it is. -/
theorem structure_of_maps (l : List CoverageMap) (s : Strategy) (path : String) :
    (((maps l s).get? path).isSome ↔ ∃ m ∈ l, path ∈ m.paths) ∧
    (validAt l path ≠ [] →
      ∃ f, (maps l s).get? path = some f ∧ f.Valid ∧ Structured s (validAt l path) f) ∧
    (validAt l path = [] → (maps l s).get? path = (sourcesAt l path).head?) ∧
    ∀ m, l = [m] → maps l s = m := by
  refine ⟨isSome_get?_maps, get?_maps_of_valid s, ?_, ?_⟩
  · intro h
    rw [get?_maps, file?_of_none_valid h]
  · rintro m rfl
    rfl

theorem structure_of_maps_sample : validAt sample "/a.ts" ≠ [] ∧ validAt sample "/b.ts" = [] ∧
    (∃ f, (maps sample .add).get? "/a.ts" = some f ∧ f.Valid ∧
      Structured .add (validAt sample "/a.ts") f) ∧
    (maps sample .add).get? "/b.ts" = none :=
  ⟨by decide, by decide, (structure_of_maps sample .add "/a.ts").2.1 (by decide),
    (structure_of_maps sample .add "/b.ts").2.2.1 (by decide)⟩

end Merge
end Coverage

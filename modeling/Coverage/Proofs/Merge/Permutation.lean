import Coverage.Proofs.Merge.Arms
import Mathlib.Data.List.Perm.Basic

/-! The order of the sources decides who supplies the structure and nothing else. Counts are combined
by operations that may be applied in any order, and the rule for directives asks whether there is a
source. -/
namespace Coverage

namespace Merge
variable {ρ η ω : Type} {s s' : Strategy} {path : String} {sources sources' : List FileCoverage}
  {part : FileCoverage → Table ρ η} {f : FileCoverage}

section Raised
variable {kind : RecordKind ρ η ω} {arms : η → List Hits} {skeleton : Table ρ η}
  {others others' : List (Table ρ η)}

theorem raiseBy_right_comm (hk : kind.Armed arms) (h : η) (x y : Option (Candidate (ρ × η))) :
    raiseBy kind s (raiseBy kind s h x) y = raiseBy kind s (raiseBy kind s h y) x := by
  cases x with
  | none => rfl
  | some c =>
    cases y with
    | none => rfl
    | some d => exact hk.combine_right_comm s h c.value.2 d.value.2

variable [Inhabited η]

theorem raised_perm (hk : kind.Armed arms) (h : others.Perm others') :
    raised kind s skeleton others = raised kind s skeleton others' := by
  refine Table.ext_get? (by rw [records_raised, records_raised]) fun id => ?_
  rw [get?_hits_raised, get?_hits_raised]
  congr 1
  funext c
  exact h.foldl_eq' (fun x _ y _ c => raiseBy_right_comm hk c _ _) c

theorem raised_empty : raised kind s ∅ others = ∅ := by
  refine Table.ext_get? records_raised fun id => ?_
  rw [get?_hits_raised]
  rfl

/-- Of a strategy only matter how it combines counts and whether it takes a record once. -/
theorem raised_congr (hc : s.combine = s'.combine) (hx : s.exclusive = s'.exclusive) :
    raised kind s skeleton others = raised kind s' skeleton others := by
  have hraise : raise kind s skeleton = raise kind s' skeleton := by
    funext t o
    rw [raise, raise, hc, hx]
  rw [raised, raised, hraise]

end Raised

/-- One source supplies in both lists and the others are the same, or no source has anything of the
kind. -/
def Alike (part : FileCoverage → Table ρ η) (p : Split sources) (p' : Split sources') : Prop :=
  (p.source = p'.source ∧ p.others.Perm p'.others) ∨
    (∀ o ∈ sources, part o = ∅) ∧ ∀ o ∈ sources', part o = ∅

section Alike
variable {p : Split sources} {p' : Split sources'}

theorem alike_of_source_eq (hperm : sources.Perm sources') (h : p.source = p'.source) :
    Alike part p p' := by
  refine .inl ⟨h, ?_⟩
  have hcons := (p.perm.trans hperm).trans p'.perm.symm
  rw [h] at hcons
  exact hcons.cons_inv

theorem table_of_alike [Inhabited η] {kind : RecordKind ρ η ω} {arms : η → List Hits}
    (hk : kind.Armed arms) (hc : s.combine = s'.combine) (hx : s.exclusive = s'.exclusive)
    (h : Alike part p p') : p.table kind s part = p'.table kind s' part := by
  rw [Split.table, Split.table, raised_congr hc hx]
  rcases h with ⟨hsource, hothers⟩ | ⟨hnone, hnone'⟩
  · rw [hsource]
    exact raised_perm hk (hothers.map part)
  · rw [hnone _ p.source_mem, hnone' _ p'.source_mem, raised_empty, raised_empty]

theorem countDirective_perm {others others' : List FileCoverage} (h : others.Perm others')
    (f : FileCoverage) : countDirective others f = countDirective others' f := by
  rw [countDirective, countDirective, h.any_eq]

theorem countDirective_of_no_statements {others : List FileCoverage}
    (h : f.statements.records = ∅) : countDirective others f = f := by
  have hnone : directive? f = none := by
    rw [directive?, h]
    rfl
  rw [countDirective, hnone]

theorem countDirective_of_alike (h : Alike (·.statements) p p')
    (hf : f.statements.records = p.source.statements.records) :
    countDirective p.others f = countDirective p'.others f := by
  rcases h with ⟨_, hothers⟩ | ⟨hnone, _⟩
  · exact countDirective_perm hothers f
  · have hempty : f.statements.records = ∅ :=
      hf.trans (congrArg Table.records (hnone _ p.source_mem))
    rw [countDirective_of_no_statements hempty, countDirective_of_no_statements hempty]

theorem file_of_alike {q r : Split sources} {q' r' : Split sources'}
    (hc : s.combine = s'.combine) (hx : s.exclusive = s'.exclusive) (hp : Alike (·.statements) p p')
    (hq : Alike (·.functions) q q') (hr : Alike (·.branches) r r') :
    countDirective p.others (assemble path s p q r) =
      countDirective p'.others (assemble path s' p' q' r') := by
  have hassemble : assemble path s p q r = assemble path s' p' q' r' := by
    rw [assemble, assemble, table_of_alike RecordKind.plain_statements.armed hc hx hp,
      table_of_alike RecordKind.plain_functions.armed hc hx hq,
      table_of_alike RecordKind.armed_branches hc hx hr]
  rw [countDirective_of_alike hp (by simp), hassemble]

end Alike

/-- Just one source has the most records of a kind, or none has a record or a count of it. -/
def Settled (part : FileCoverage → Table ρ η) (sources : List FileCoverage) : Prop :=
  (∃ p : Split sources, ∀ o ∈ p.others, (part o).size < (part p.source).size) ∨
    ∀ o ∈ sources, part o = ∅

/-- The order of the sources does not decide who supplies the records of a kind. -/
def SameSupplier (s : Strategy) (part : FileCoverage → Table ρ η)
    (sources sources' : List FileCoverage) : Prop :=
  match s with
  | .max | .add => Settled part sources
  | .preferFirst => sources.head? = sources'.head?
  | .preferLast => sources.getLast? = sources'.getLast?

theorem source_eq_of_richest {p : Split sources} {p₀ : Split sources'} (hperm : sources.Perm sources')
    (h₀ : ∀ o ∈ p₀.others, (part o).size < (part p₀.source).size)
    (hmax : ∀ o ∈ sources, (part o).size ≤ (part p.source).size) : p.source = p₀.source := by
  have hmem : p.source ∈ p₀.source :: p₀.others :=
    (hperm.trans p₀.perm.symm).mem_iff.1 p.source_mem
  rcases List.mem_cons.1 hmem with he | ho
  · exact he
  · have hle := hmax p₀.source (hperm.mem_iff.2 p₀.source_mem)
    exact (Nat.not_lt.2 hle (h₀ _ ho)).elim

theorem alike_of_settled {p : Split sources} {p' : Split sources'} (hperm : sources.Perm sources')
    (h : Settled part sources) (hmax : ∀ o ∈ sources, (part o).size ≤ (part p.source).size)
    (hmax' : ∀ o ∈ sources', (part o).size ≤ (part p'.source).size) : Alike part p p' := by
  rcases h with ⟨p₀, h₀⟩ | hnone
  · apply alike_of_source_eq hperm
    rw [source_eq_of_richest (.refl _) h₀ hmax, source_eq_of_richest hperm.symm h₀ hmax']
  · exact .inr ⟨hnone, fun o ho => hnone o (hperm.mem_iff.2 ho)⟩

theorem Split.head?_eq {p : Split sources} (h : p.before = []) : sources.head? = some p.source := by
  obtain ⟨before, source, after, rfl⟩ := p
  cases h
  rfl

theorem Split.getLast?_eq {p : Split sources} (h : p.after = []) :
    sources.getLast? = some p.source := by
  obtain ⟨before, source, after, rfl⟩ := p
  cases h
  exact List.getLast?_concat

theorem alike_of_sameSupplier {p : Split sources} {p' : Split sources'}
    (hperm : sources.Perm sources') (h : SameSupplier s part sources sources')
    (hp : p.Supplies s part) (hp' : p'.Supplies s part) : Alike part p p' := by
  cases s with
  | max => exact alike_of_settled hperm h (Split.size_le_source hp) (Split.size_le_source hp')
  | add => exact alike_of_settled hperm h (Split.size_le_source hp) (Split.size_le_source hp')
  | preferFirst =>
    apply alike_of_source_eq hperm
    exact Option.some.inj ((Split.head?_eq hp).symm.trans (h.trans (Split.head?_eq hp')))
  | preferLast =>
    apply alike_of_source_eq hperm
    exact Option.some.inj ((Split.getLast?_eq hp).symm.trans (h.trans (Split.getLast?_eq hp')))

/-- The first of a list is the last of the reversed list. -/
theorem alike_of_reverse {p : Split sources} {p' : Split sources.reverse} (hp : p.before = [])
    (hp' : p'.after = []) : Alike part p p' := by
  apply alike_of_source_eq (List.reverse_perm sources).symm
  have hlast := Split.getLast?_eq hp'
  rw [List.getLast?_reverse] at hlast
  exact Option.some.inj ((Split.head?_eq hp).symm.trans hlast)

variable {l l' : List CoverageMap}

/-- Lists with the same valid sources for a path, in any order, have one file there if the suppliers are
alike. -/
theorem get?_maps_of_alike (hc : s.combine = s'.combine) (hx : s.exclusive = s'.exclusive)
    (hperm : (validAt l path).Perm (validAt l' path)) (hne : validAt l path ≠ [])
    (hstatements : ∀ (p : Split (validAt l path)) (p' : Split (validAt l' path)),
      p.Supplies s (·.statements) → p'.Supplies s' (·.statements) → Alike (·.statements) p p')
    (hfunctions : ∀ (p : Split (validAt l path)) (p' : Split (validAt l' path)),
      p.Supplies s (·.functions) → p'.Supplies s' (·.functions) → Alike (·.functions) p p')
    (hbranches : ∀ (p : Split (validAt l path)) (p' : Split (validAt l' path)),
      p.Supplies s (·.branches) → p'.Supplies s' (·.branches) → Alike (·.branches) p p') :
    (maps l s).get? path = (maps l' s').get? path := by
  by_cases hone : ∃ f, validAt l path = [f]
  · obtain ⟨f, hf⟩ := hone
    have hf' : validAt l' path = [f] := by
      rw [hf] at hperm
      exact List.perm_singleton.1 hperm.symm
    rw [get?_maps, get?_maps, file?_of_one_valid hf, file?_of_one_valid hf']
  · have htwo : 2 ≤ (validAt l path).length := by
      match hv : validAt l path with
      | [] => exact (hne hv).elim
      | [f] => exact (hone ⟨f, hv⟩).elim
      | _ :: _ :: _ => simp
    obtain ⟨p, q, r, hp, hq, hr, hget⟩ := get?_maps_of_two_valid s htwo
    have htwo' : 2 ≤ (validAt l' path).length := hperm.length_eq ▸ htwo
    obtain ⟨p', q', r', hp', hq', hr', hget'⟩ := get?_maps_of_two_valid s' htwo'
    rw [hget, hget', file_of_alike hc hx (hstatements p p' hp hp') (hfunctions q q' hq hq')
      (hbranches r r' hr hr')]

theorem validAt_perm (h : l.Perm l') (path : String) : (validAt l path).Perm (validAt l' path) :=
  (h.filterMap _).filter _

theorem validAt_reverse (l : List CoverageMap) (path : String) :
    validAt l.reverse path = (validAt l path).reverse := by
  simp [validAt, sourcesAt, List.filterMap_reverse, List.filter_reverse]

/-- The order does not decide who supplies the records of any kind. -/
structure SameSuppliers (s : Strategy) (sources sources' : List FileCoverage) : Prop where
  statements : SameSupplier s (·.statements) sources sources'
  functions : SameSupplier s (·.functions) sources sources'
  branches : SameSupplier s (·.branches) sources sources'

/-- A path with a valid source has one file in every order of the maps that leaves its suppliers the
same, and preferring the first is preferring the last of the reversed list. -/
theorem file_of_perm (l : List CoverageMap) (s : Strategy) (path : String)
    (hne : validAt l path ≠ []) :
    (∀ l', l.Perm l' → SameSuppliers s (validAt l path) (validAt l' path) →
      (maps l s).get? path = (maps l' s).get? path) ∧
    (maps l .preferFirst).get? path = (maps l.reverse .preferLast).get? path := by
  constructor
  · intro l' h hsame
    have hperm := validAt_perm h path
    exact get?_maps_of_alike rfl rfl hperm hne
      (fun _ _ => alike_of_sameSupplier hperm hsame.statements)
      (fun _ _ => alike_of_sameSupplier hperm hsame.functions)
      (fun _ _ => alike_of_sameSupplier hperm hsame.branches)
  · have hreverse := validAt_reverse l path
    refine get?_maps_of_alike rfl rfl (validAt_perm (List.reverse_perm l).symm path) hne ?_ ?_ ?_
    all_goals
      rw [hreverse]
      exact fun _ _ => alike_of_reverse

def longRun : FileCoverage where
  path := "/a.ts"
  statements := ⟨.ofList [(0, .ofNumbers 1 0 1 12), (1, .ofNumbers 2 4 2 20)], .ofList [(0, 0), (1, 3)]⟩
  functions := ∅
  branches := ∅

def branchingRun : FileCoverage where
  path := "/a.ts"
  statements := ⟨.ofList [(0, .ofNumbers 2 4 2 20)], .ofList [(0, 5)]⟩
  functions := ∅
  branches := ⟨.ofList [(0, ⟨.ofNumbers 3 2 3 18, .ifElse,
    [.ofNumbers 3 2 3 9, .ofNumbers 3 9 3 18], 3⟩)], .ofList [(0, [1, 0])]⟩

def shortRun : FileCoverage where
  path := "/a.ts"
  statements := ⟨.ofList [(0, .ofNumbers 2 0 2 20)], .ofList [(0, 1)]⟩
  functions := ∅
  branches := ∅

/-- The first has the most statements, the second the only branch, and none has functions. -/
def runs : List CoverageMap :=
  [.ofList [("/a.ts", longRun)], .ofList [("/a.ts", branchingRun)], .ofList [("/a.ts", shortRun)]]

theorem sameSuppliers_runs :
    SameSuppliers .add (validAt runs "/a.ts") (validAt runs.reverse "/a.ts") where
  statements := .inl ⟨⟨[], longRun, [branchingRun, shortRun], by decide⟩, by decide⟩
  functions := .inr (by decide)
  branches := .inl ⟨⟨[longRun], branchingRun, [shortRun], by decide⟩, by decide⟩

theorem file_of_perm_sample : validAt runs "/a.ts" ≠ [] ∧ runs.Perm runs.reverse ∧
    SameSuppliers .add (validAt runs "/a.ts") (validAt runs.reverse "/a.ts") ∧
    (maps runs .add).get? "/a.ts" = (maps runs.reverse .add).get? "/a.ts" ∧
    (maps runs .preferFirst).get? "/a.ts" = (maps runs.reverse .preferLast).get? "/a.ts" := by
  have hperm : runs.Perm runs.reverse := (List.reverse_perm runs).symm
  have h := file_of_perm runs .add "/a.ts" (by decide)
  exact ⟨by decide, hperm, sameSuppliers_runs, h.1 _ hperm sameSuppliers_runs, h.2⟩

end Merge
end Coverage

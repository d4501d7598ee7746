import Coverage.Proofs.Base.Files
import Coverage.Proofs.Fixups.Separate
import Coverage.Proofs.Keys
import Coverage.Selection

/-! Properties of files that no operation on a map breaks. It is enough that they carry over to what is
composed of the records of several files, to what is left when records are erased, and to what structure
is rebuilt for. -/
namespace Coverage

/-- Every kind of record has the shape it has in one of some files. -/
structure FileCoverage.ComposedOf (sources : List FileCoverage) (f : FileCoverage) : Prop where
  statements : ∃ g ∈ sources, f.statements.SameShape g.statements
  functions : ∃ g ∈ sources, f.functions.SameShape g.functions
  branches : ∃ g ∈ sources, f.branches.SameShape g.branches ∧
    ∀ id, (f.branches.hits.get? id).map List.length = (g.branches.hits.get? id).map List.length

namespace FileCoverage
variable {sources sources' : List FileCoverage} {f g : FileCoverage} {path : String}

theorem composedOf_of_mem (h : f ∈ sources) : ComposedOf sources f :=
  ⟨⟨f, h, .rfl⟩, ⟨f, h, .rfl⟩, ⟨f, h, .rfl, fun _ => rfl⟩⟩

theorem ComposedOf.mono (h : ComposedOf sources f) (hsub : ∀ g ∈ sources, g ∈ sources') :
    ComposedOf sources' f := by
  obtain ⟨⟨a, ha, hsa⟩, ⟨b, hb, hsb⟩, ⟨c, hc, hsc⟩⟩ := h
  exact ⟨⟨a, hsub a ha, hsa⟩, ⟨b, hsub b hb, hsb⟩, ⟨c, hsub c hc, hsc⟩⟩

theorem composedOf_renamed : ComposedOf [f] { f with path } :=
  ⟨⟨f, List.mem_singleton_self f, .rfl⟩, ⟨f, List.mem_singleton_self f, .rfl⟩,
    ⟨f, List.mem_singleton_self f, .rfl, fun _ => rfl⟩⟩

theorem composedOf_reconcileStatements : ComposedOf [f] (Passes.reconcileStatements f) :=
  ⟨⟨f, List.mem_singleton_self f, rfl, SortedMap.keys_mapWithKey _⟩,
    ⟨f, List.mem_singleton_self f, .rfl⟩, ⟨f, List.mem_singleton_self f, .rfl, fun _ => rfl⟩⟩

end FileCoverage

namespace Merge
variable {s : Strategy} {path : String} {sources others : List FileCoverage} {f : FileCoverage}

open FileCoverage

theorem composedOf_assemble (p q r : Split sources) :
    ComposedOf sources (countDirective others (assemble path s p q r)) where
  statements := by
    have h : (countDirective others (assemble path s p q r)).statements.SameShape
        (assemble path s p q r).statements := sameShape_countDirective
    exact ⟨p.source, p.source_mem, h.records.trans records_raised, h.ids.trans keys_raised⟩
  functions := by
    rw [countDirective_functions]
    exact ⟨q.source, q.source_mem, sameShape_raised _ _⟩
  branches := by
    rw [countDirective_branches]
    exact ⟨r.source, r.source_mem, sameShape_raised _ _, length_hits_raised _ _⟩

theorem composedOf_file? (h : file? path sources s = some f) : ComposedOf sources f := by
  rcases file?_cases s path sources with ⟨-, hfile⟩ | ⟨g, hone, hfile⟩ | ⟨p, q, r, -, -, -, hfile⟩
  · exact composedOf_of_mem (List.mem_of_mem_head? (hfile.symm.trans h))
  · obtain rfl := Option.some.inj (hfile.symm.trans h)
    have hmem : g ∈ sources.filter (·.Valid) := by simp [hone]
    exact composedOf_of_mem (List.mem_filter.1 hmem).1
  · obtain rfl := Option.some.inj (hfile.symm.trans h)
    exact (composedOf_assemble p q r).mono fun g hg => (List.mem_filter.1 hg).1

theorem path_of_file? (hpath : ∀ g ∈ sources, g.path = path) (h : file? path sources s = some f) :
    f.path = path := by
  rcases file?_cases s path sources with ⟨-, hfile⟩ | ⟨g, hone, hfile⟩ | ⟨p, q, r, -, -, -, hfile⟩
  · exact hpath f (List.mem_of_mem_head? (hfile.symm.trans h))
  · obtain rfl := Option.some.inj (hfile.symm.trans h)
    have hmem : g ∈ sources.filter (·.Valid) := by simp [hone]
    exact hpath g (List.mem_filter.1 hmem).1
  · obtain rfl := Option.some.inj (hfile.symm.trans h)
    exact countDirective_path

end Merge

namespace Base
variable {path : String} {a b : FileCoverage}

open FileCoverage Merge

theorem composedOf_file (path : String) (b a : FileCoverage) : ComposedOf [b, a] (file path b a) := by
  by_cases h : b.Valid ∧ a.Valid
  · rw [file_of_valid path h.1 h.2]
    exact composedOf_assemble _ _ _
  · rw [file_of_not_valid h]
    exact composedOf_of_mem (by simp)

theorem get?_merge_cases {base additional : CoverageMap} {f : FileCoverage}
    (h : (merge base additional).get? path = some f) :
    base.get? path = some f ∨ additional.get? path = some f ∨
      ∃ b a, base.get? path = some b ∧ additional.get? path = some a ∧ f = file path b a := by
  cases ha : additional.get? path with
  | none => exact .inl ((get?_merge_of_base_only ha).symm.trans h)
  | some a =>
    cases hb : base.get? path with
    | none => exact .inr (.inl (ha.symm.trans ((get?_merge_of_new hb).symm.trans h)))
    | some b =>
      exact .inr (.inr ⟨b, a, rfl, rfl, Option.some.inj (h.symm.trans (get?_merge_of_both hb ha))⟩)

theorem path_file (h : a.path = path) : (file path b a).path = path := by
  by_cases hv : b.Valid ∧ a.Valid
  · rw [file_of_valid path hv.1 hv.2]
    exact countDirective_path
  · rw [file_of_not_valid hv, h]

end Base

/-- What composing, erasing and rebuilding carry over. -/
structure FileCoverage.Stable (I : FileCoverage → Prop) : Prop where
  composed : ∀ sources f, (∀ g ∈ sources, I g) → ComposedOf sources f → I f
  eraseFunctions : ∀ f ids, I f → I (f.eraseFunctions ids)
  eraseBranches : ∀ f ids, I f → I (f.eraseBranches ids)
  fill : ∀ f t marks, I f → I (Backfill.fill f t marks).1

/-- Every file of a map has a property. -/
def CoverageMap.Every (I : FileCoverage → Prop) (m : CoverageMap) : Prop :=
  ∀ path f, m.get? path = some f → I f

/-- Every file of a map bears the name it stands under. -/
def CoverageMap.Named (m : CoverageMap) : Prop := ∀ path f, m.get? path = some f → f.path = path

namespace FileCoverage.Stable
variable {I : FileCoverage → Prop} {f g : FileCoverage} {m base additional : CoverageMap}
  {l : List CoverageMap} {source : Option String} {backfill : Bool}

open Fixups

theorem renamed (h : Stable I) (hf : I f) (path : String) : I { f with path } :=
  h.composed [f] _ (by simpa using hf) composedOf_renamed

theorem reconcileStatements (h : Stable I) (hf : I f) : I (Passes.reconcileStatements f) :=
  h.composed [f] _ (by simpa using hf) composedOf_reconcileStatements

theorem cleaned (h : Stable I) (hf : I f) : I (Fixups.cleaned source f).1 := by
  have hstructural : I (structural f).1 :=
    h.eraseFunctions _ _ (h.reconcileStatements (h.eraseBranches _ _ hf))
  cases source with
  | none => exact hstructural
  | some s => exact h.eraseBranches _ _ (h.eraseFunctions _ _ hstructural)

theorem rebuilt [Syntax.Parser] (h : Stable I) {x y : Fixed} (hx : I x.1)
    (hy : Fixups.rebuilt backfill source x = .ok y) : I y.1 := by
  cases source with
  | none =>
    obtain rfl := Except.ok.inj hy
    exact hx
  | some s =>
    cases backfill with
    | false =>
      obtain rfl := Except.ok.inj hy
      exact hx
    | true =>
      have hy : backfilled s.toList x = .ok y := hy
      rcases backfilled_cases s.toList x with ⟨-, he⟩ | ⟨-, -, he⟩ | ⟨o, -, -, he⟩
      · obtain rfl := Except.ok.inj (he.symm.trans hy)
        exact hx
      · simp [he] at hy
      · obtain rfl := Except.ok.inj (he.symm.trans hy)
        exact h.fill _ _ _ hx

theorem fileOrSame [Syntax.Parser] (h : Stable I) (hf : I f) : I (Fixups.fileOrSame backfill source f).1 := by
  rcases fileOrSame_cases backfill source f with ⟨x, hx, -, -, he⟩ | ⟨-, he⟩
  · rw [he]
    exact h.rebuilt (h.cleaned hf) hx
  · rw [he]
    exact hf

section Maps

theorem maps (h : Stable I) {s : Strategy} (hl : ∀ m ∈ l, m.Every I) : (Merge.maps l s).Every I := by
  intro path f hf
  rw [Merge.get?_maps] at hf
  refine h.composed _ f (fun g hg => ?_) (Merge.composedOf_file? hf)
  obtain ⟨m, hm, hget⟩ := List.mem_filterMap.1 hg
  exact hl m hm path g hget

theorem normalizeMap (h : Stable I) (hm : m.Every I) : (Keys.normalizeMap m).Every I := by
  intro key f hf
  rw [Keys.get?_normalizeMap] at hf
  refine h.composed _ f (fun g hg => ?_) (Merge.composedOf_file? hf)
  obtain ⟨e, he, -, rfl⟩ := Keys.mem_spelled.1 hg
  exact h.renamed (hm e.1 e.2 (SortedMap.get?_eq_some_iff.2 he)) key

theorem merge (h : Stable I) (hb : base.Every I) (ha : additional.Every I) :
    (Base.merge base additional).Every I := by
  intro path f hf
  rcases Base.get?_merge_cases hf with hf | hf | ⟨b, a, hbase, hadditional, rfl⟩
  · exact hb path f hf
  · exact ha path f hf
  · refine h.composed [b, a] _ ?_ (Base.composedOf_file path b a)
    simpa using ⟨hb path b hbase, ha path a hadditional⟩

theorem apply [Syntax.Parser] (h : Stable I) {sources : Sources} (hm : m.Every I) :
    (Fixups.apply m sources backfill).1.Every I := by
  intro path f hf
  rw [get?_apply] at hf
  obtain ⟨g, hg, rfl⟩ := Option.map_eq_some_iff.1 hf
  exact h.fileOrSame (hm path g hg)

end Maps
end FileCoverage.Stable

namespace CoverageMap
variable {I : FileCoverage → Prop} {m base additional : CoverageMap} {l : List CoverageMap}

theorem get?_of_filter {included excluded : List String} {path : String} {f : FileCoverage}
    (h : (Selection.filter m included excluded).get? path = some f) : m.get? path = some f := by
  rw [Selection.filter, SortedMap.get?_filter, Option.filter_eq_some_iff] at h
  exact h.1

theorem Every.filter (hm : m.Every I) (included excluded : List String) :
    (Selection.filter m included excluded).Every I :=
  fun path f hf => hm path f (get?_of_filter hf)

section Names

theorem named_normalizeMap (m : CoverageMap) : (Keys.normalizeMap m).Named := by
  intro key f hf
  rw [Keys.get?_normalizeMap] at hf
  refine Merge.path_of_file? (fun g hg => ?_) hf
  obtain ⟨e, -, -, rfl⟩ := Keys.mem_spelled.1 hg
  rfl

theorem named_maps {s : Strategy} (hl : ∀ m ∈ l, m.Named) : (Merge.maps l s).Named := by
  intro path f hf
  rw [Merge.get?_maps] at hf
  refine Merge.path_of_file? (fun g hg => ?_) hf
  obtain ⟨m, hm, hget⟩ := List.mem_filterMap.1 hg
  exact hl m hm path g hget

theorem Named.filter (hm : m.Named) (included excluded : List String) :
    (Selection.filter m included excluded).Named :=
  fun path f hf => hm path f (get?_of_filter hf)

theorem Named.merge (hb : base.Named) (ha : additional.Named) : (Base.merge base additional).Named := by
  intro path f hf
  rcases Base.get?_merge_cases hf with hf | hf | ⟨b, a, -, hadditional, rfl⟩
  · exact hb path f hf
  · exact ha path f hf
  · exact Base.path_file (ha path a hadditional)

end Names
end CoverageMap

end Coverage

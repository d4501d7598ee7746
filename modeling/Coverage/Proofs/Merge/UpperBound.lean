import Coverage.Proofs.Merge.Absorption
import Coverage.Proofs.Merge.Incremental

/-! Under `max` a merged file is an upper bound of its sources. It has as many records of each kind as the
richest of them, and no record has a lower count than a record that it is known by in any source. -/
namespace Coverage

namespace Matching
variable {a b : List Hits}

theorem atMost_singleton {a b : Hits} : AtMost [a] [b] ↔ a ≤ b := by
  constructor
  · intro h
    exact h.getD 0 (by simp)
  · intro h
    refine ⟨rfl, fun i hi => ?_⟩
    obtain rfl : i = 0 := by simpa using hi
    exact h

theorem atMost_combineArms_right (hlen : b.length = a.length) : AtMost b (combineArms max a b) where
  length := by rw [length_combineArms, hlen]
  getD i hi := by
    rw [getD_combineArms max (hlen ▸ hi)]
    exact Hits.le_max_right _ _

end Matching

/-- The counts of a file are at least as high as those of another: of statements and functions with the
same start, and arm by arm of branches with the same start, kind and number of arms. -/
structure FileCoverage.AtLeast (f g : FileCoverage) : Prop where
  statements : ∀ i s j u, f.statements.records.get? i = some s → g.statements.records.get? j = some u →
    u.start = s.start → g.statements.count j ≤ f.statements.count i
  functions : ∀ i s j u, f.functions.records.get? i = some s → g.functions.records.get? j = some u →
    u.declaration.start = s.declaration.start → g.functions.count j ≤ f.functions.count i
  branches : ∀ i b j u, f.branches.records.get? i = some b → g.branches.records.get? j = some u →
    u.signature = b.signature → Matching.AtMost (g.branches.count j) (f.branches.count i)

/-- The file has as many records of one kind as the richest of some files. -/
structure FileCoverage.AsRich {ρ η : Type} (part : FileCoverage → Table ρ η) (P : FileCoverage → Prop)
    (f : FileCoverage) : Prop where
  most : ∀ g, P g → (part g).size ≤ (part f).size
  attained : ∃ g, P g ∧ (part g).size = (part f).size

namespace Merge
variable {ρ η ω : Type} {kind : RecordKind ρ η ω} {arms : η → List Hits} {t u o : Table ρ η}
  {others : List (Table ρ η)} {i j : Id} {r v : ρ} {x : η} {path : String}
  {sources : List FileCoverage} {f g : FileCoverage} {part : FileCoverage → Table ρ η}

open Matching Table FileCoverage

section Raising

/-- However many tables raise a count, it is at least as high as what it takes in any of them. -/
theorem atMost_foldl_of_taken (hk : kind.Armed arms) {y : Table ρ η → Option (Candidate (ρ × η))}
    {h : η} (ho : o ∈ others) (hy : (y o).map (·.value.2) = some x)
    (hlen : (arms x).length = (arms h).length) :
    AtMost (arms x) (arms (others.foldl (fun h o => raiseBy kind .max h (y o)) h)) := by
  obtain ⟨pre, post, rfl⟩ := List.append_of_mem ho
  obtain ⟨c, hc, rfl⟩ := Option.map_eq_some_iff.1 hy
  rw [List.foldl_append, List.foldl_cons]
  have hbefore := atMost_foldl_raiseBy hk y pre h
  generalize pre.foldl (fun h o => raiseBy kind .max h (y o)) h = before at hbefore ⊢
  have hhere : AtMost (arms c.value.2) (arms (raiseBy kind .max before (y o))) := by
    rw [hc]
    change AtMost _ (arms (kind.combine Strategy.max.combine before c.value.2))
    rw [hk.combine, combine_eq_max (by simp)]
    exact atMost_combineArms_right (hlen.trans hbefore.length)
  exact hhere.trans (atMost_foldl_raiseBy hk y post _)

variable [Inhabited η]

theorem LiftedBy.atMost_count {k : Id → η → η} (h : LiftedBy arms k u t) (i : Id) :
    AtMost (arms (u.count i)) (arms (t.count i)) := by
  rw [count, count, h.hits]
  cases u.hits.get? i with
  | none => exact AtMost.rfl
  | some x => exact h.atMost i x

theorem count_raised (hc : t.Counted) (hr : t.records.get? i = some r) (others : List (Table ρ η)) :
    (raised kind .max t others).count i =
      others.foldl (fun h o => raiseBy kind .max h (taken? kind .max t o i)) (t.count i) := by
  rw [count, get?_hits_raised, hc.get? hr, Option.map_some, Option.getD_some]

end Raising

section Tables
variable [Inhabited η] {p : Split sources}

/-- A source other than the supplier, of which the record takes a count. -/
theorem atMost_table_of_taken (hk : kind.Armed arms) (hc : (part p.source).Counted)
    (hr : (part p.source).records.get? i = some r) (hg : g ∈ p.others)
    (htaken : (taken? kind .max (part p.source) (part g) i).map (·.value.2) = some x)
    (hlen : (arms x).length = (arms ((part p.source).count i)).length) :
    AtMost (arms x) (arms ((p.table kind .max part).count i)) := by
  rw [Split.table, count_raised hc hr]
  exact atMost_foldl_of_taken hk (List.mem_map_of_mem hg) htaken hlen

variable (part) in
theorem atMost_table_of_source (hk : kind.Armed arms) (i : Id) :
    AtMost (arms ((part p.source).count i)) (arms ((p.table kind .max part).count i)) := by
  obtain ⟨_, h⟩ := lifted_raised (u := part p.source) hk (p.others.map part)
  exact h.atMost_count i

end Tables

/-- A supplier's record and one of any source that has its start. -/
theorem count_le_table_plain {kind : RecordKind ρ Hits Unit} {part : FileCoverage → Table ρ Hits}
    (hk : kind.Plain) (p : Split sources) (hc : (part p.source).Counted)
    (hd : ∀ g ∈ sources, (part g).Distinct kind) (hr : (part p.source).records.get? i = some r)
    (hg : g ∈ sources) (hv : (part g).records.get? j = some v) (hstart : kind.start v = kind.start r) :
    (part g).count j ≤ (p.table kind .max part).count i := by
  rw [← atMost_singleton]
  rcases List.mem_cons.1 (p.perm.mem_iff.2 hg) with rfl | hother
  · obtain rfl := (hd _ p.source_mem).id_eq hv hr hstart
    exact atMost_table_of_source part hk.armed j
  · exact atMost_table_of_taken hk.armed hc hr hother
      (map_taken?_of_distinct hk.chooses hr (hd g hg) hv hstart) rfl

theorem atMost_table_branches {b w : BranchSite} (p : Split sources)
    (ha : ∀ g ∈ sources, ArmsCounted g.branches)
    (hd : ∀ g ∈ sources, (g.branches.records.entries.map fun e => e.2.signature).Nodup)
    (hb : p.source.branches.records.get? i = some b) (hg : g ∈ sources)
    (hw : g.branches.records.get? j = some w) (hsig : w.signature = b.signature) :
    AtMost (g.branches.count j) ((p.table .branches .max (·.branches)).count i) := by
  have hsole : g.branches.Sole j w := filter_eq_singleton (hd g hg) (SortedMap.get?_eq_some_iff.1 hw)
  rcases List.mem_cons.1 (p.perm.mem_iff.2 hg) with rfl | hother
  · obtain rfl := hsole.id_eq hb hsig.symm
    exact atMost_table_of_source (·.branches) RecordKind.armed_branches i
  · have has := ha _ p.source_mem
    have hlen : (g.branches.count j).length = (p.source.branches.count i).length := by
      rw [(ha g hg).length_count hw, has.length_count hb]
      exact congrArg (·.2.2) hsig
    exact atMost_table_of_taken RecordKind.armed_branches has.counted hb hother
      (map_taken?_branches has (ha g hg) hb hsole hsig) hlen

section Files

theorem atLeast_self (h : f.Separated) : f.AtLeast f where
  statements i s j u hs hu hstart := by
    rw [h.statements.id_eq hu hs hstart]
    exact UInt64.le_refl _
  functions i s j u hs hu hstart := by
    rw [h.functions.id_eq hu hs hstart]
    exact UInt64.le_refl _
  branches i b j u hb hu hsig := by
    have hsole : f.branches.Sole i b := filter_eq_singleton h.branches (SortedMap.get?_eq_some_iff.1 hb)
    rw [hsole.id_eq hu hsig]
    exact AtMost.rfl

theorem atLeast_assemble {p q r : Split sources} {others : List FileCoverage}
    (hvalid : ∀ g ∈ sources, g.Valid) (hseparated : ∀ g ∈ sources, g.Separated) (hg : g ∈ sources) :
    (countDirective others (assemble path .max p q r)).AtLeast g where
  statements i s j u hs hu hstart := by
    rw [records_countDirective, assemble_statements, Split.records_table] at hs
    have hc := (valid_iff.1 (hvalid _ p.source_mem)).1
    have hle := count_le_table_plain RecordKind.plain_statements p hc
      (fun g hg => (hseparated g hg).statements) hs hg hu hstart
    have hruled := (lifted_countDirective others (assemble path .max p q r)).atMost_count i
    exact UInt64.le_trans hle (atMost_singleton.1 hruled)
  functions i s j u hs hu hstart := by
    rw [countDirective_functions, assemble_functions] at hs ⊢
    rw [Split.records_table] at hs
    have hc := (valid_iff.1 (hvalid _ q.source_mem)).2.1
    exact count_le_table_plain RecordKind.plain_functions q hc
      (fun g hg => (hseparated g hg).functions) hs hg hu hstart
  branches i b j u hb hu hsig := by
    rw [countDirective_branches, assemble_branches] at hb ⊢
    rw [Split.records_table] at hb
    exact atMost_table_branches r (fun g hg => (valid_iff.1 (hvalid g hg)).2.2)
      (fun g hg => (hseparated g hg).branches) hb hg hu hsig

theorem asRich_of_supplies {p : Split sources} (hp : p.Supplies .max part)
    (hshape : (part f).SameShape (part p.source)) : AsRich part (· ∈ sources) f where
  most g hg := by
    rw [hshape.size_eq]
    exact Split.size_le_source hp g hg
  attained := ⟨p.source, p.source_mem, hshape.size_eq.symm⟩

/-- What a file has that is merged from some files, of which those with a property count. -/
structure Bounds (P : FileCoverage → Prop) (f : FileCoverage) : Prop where
  valid : f.Valid
  statements : AsRich (·.statements) P f
  functions : AsRich (·.functions) P f
  branches : AsRich (·.branches) P f
  counts : (∀ g, P g → g.Separated) → ∀ g, P g → f.AtLeast g

theorem bounds_of_file? (path : String) (h : sources.filter (·.Valid) ≠ []) :
    ∃ f, file? path sources .max = some f ∧ Bounds (· ∈ sources.filter (·.Valid)) f := by
  obtain ⟨f, hf, hvalid, hstructured⟩ := file?_of_valid .max path h
  obtain ⟨p, hp, hps⟩ := hstructured.statements
  obtain ⟨q, hq, hqs⟩ := hstructured.functions
  obtain ⟨r, hr, hrs, -⟩ := hstructured.branches
  refine ⟨f, hf, hvalid, asRich_of_supplies hp hps, asRich_of_supplies hq hqs,
    asRich_of_supplies hr hrs, fun hseparated g hg => ?_⟩
  rcases file?_cases .max path sources with ⟨hnone, -⟩ | ⟨a, hone, hfile⟩ |
    ⟨p, q, r, -, -, -, hfile⟩
  · exact (h hnone).elim
  · obtain rfl := Option.some.inj (hfile.symm.trans hf)
    obtain rfl : g = a := by simpa [hone] using hg
    exact atLeast_self (hseparated g hg)
  · obtain rfl := Option.some.inj (hfile.symm.trans hf)
    exact atLeast_assemble (fun g hg => valid_of_mem_filter hg) hseparated hg

end Files
end Merge
end Coverage

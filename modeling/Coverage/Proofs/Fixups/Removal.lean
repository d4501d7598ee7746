import Coverage.Proofs.Fixups.Separate
import Coverage.Proofs.Text.Lines
import Coverage.Proofs.Text.Words
import Coverage.Syntax.Program

/-! What the passes take away. Of a file that comes through, all that is gone is reported, and what is left
is as it was but for counts of zero that were reconciled. -/
namespace Coverage

theorem Span.isOrigin_iff {s : Span} : s.isOrigin = true ↔ s = .ofNumbers 1 0 1 0 := by
  obtain ⟨start, stop⟩ := s
  simp only [isOrigin, Bool.and_eq_true, beq_iff_eq, ofNumbers, Location.origin, Span.mk.injEq]
  exact and_congr_right fun h => by rw [h]

namespace Passes
variable {f : FileCoverage} {t : Text} {id : Id} {b : BranchSite}

/-- A choice of no width at the very start of the file. -/
def Phantom (b : BranchSite) : Prop := b.kind = .ifElse ∧ b.span = .ofNumbers 1 0 1 0

/-- The line is one of the span's, from its first to its last. -/
def OnSpan (s : Span) (n : UInt32) : Prop := s.start.line ≤ n ∧ (n ≤ s.start.line ∨ n ≤ s.stop.line)

/-- A logical expression on lines of the text none of which has a logical operator. -/
structure Spurious (t : Text) (b : BranchSite) : Prop where
  kind : b.kind = .logical
  present : ∃ n l, OnSpan b.span n ∧ t.line? n = some l
  bare : ∀ n l, OnSpan b.span n → t.line? n = some l →
    ∀ w ∈ ["&&", "||", "??"], ¬ w.toList <:+: l

theorem mem_phantomBranches :
    id ∈ phantomBranches f ↔ ∃ b, f.branches.records.get? id = some b ∧ Phantom b := by
  simp only [phantomBranches, Table.mem_idsWhere, Bool.and_eq_true, beq_iff_eq, Span.isOrigin_iff,
    Phantom]

theorem hasLogicalOperator_eq_false_iff {l : Text} : hasLogicalOperator l = false ↔
    ∀ w ∈ ["&&", "||", "??"], ¬ w.toList <:+: l := by
  have hwords : logicalOperators = ["&&", "||", "??"].map String.toList := by decide
  rw [hasLogicalOperator, hwords, List.any_map, List.any_eq_false]
  exact forall₂_congr fun w _ => not_congr Text.hasWord_iff

theorem mem_spuriousBranches :
    id ∈ spuriousBranches f t ↔ ∃ b, f.branches.records.get? id = some b ∧ Spurious t b := by
  rw [spuriousBranches, Table.mem_idsWhere]
  refine exists_congr fun b => and_congr_right fun _ => ?_
  have hpresent : (t.linesBetween b.span.start.line b.span.stop.line).isEmpty = false ↔
      ∃ n l, OnSpan b.span n ∧ t.line? n = some l := by
    rw [List.isEmpty_eq_false_iff_exists_mem, exists_comm]
    simp only [Text.mem_linesBetween, OnSpan, and_assoc]
  have hbare : (t.linesBetween b.span.start.line b.span.stop.line).any hasLogicalOperator = false ↔
      ∀ n l, OnSpan b.span n → t.line? n = some l →
        ∀ w ∈ ["&&", "||", "??"], ¬ w.toList <:+: l := by
    rw [List.any_eq_false]
    simp only [Text.mem_linesBetween, OnSpan, Bool.not_eq_true, hasLogicalOperator_eq_false_iff]
    constructor
    · intro h n l hn hl
      exact h l ⟨n, hn.1, hn.2, hl⟩
    · rintro h l ⟨n, hge, hle, hl⟩
      exact h n l ⟨hge, hle⟩ hl
  simp only [Bool.and_eq_true, beq_iff_eq, Bool.not_eq_true', hpresent, hbare]
  exact ⟨fun ⟨⟨hk, hp⟩, hb⟩ => ⟨hk, hp, hb⟩, fun ⟨hk, hp, hb⟩ => ⟨⟨hk, hp⟩, hb⟩⟩

/-- A count is changed exactly where it is reconciled, and then from zero to more. -/
theorem changed_iff : (reconcileStatements f).statements.hits.get? id ≠ f.statements.hits.get? id ↔
    (reconciledHits? f id).isSome = true := by
  rw [get?_hits_reconcileStatements]
  cases hr : reconciledHits? f id with
  | none => simp
  | some h =>
    obtain ⟨hzero, -, hne⟩ := of_reconciledHits? hr
    simp [hzero, hne]

theorem reconciled_cases (f : FileCoverage) (id : Id) :
    (reconcileStatements f).statements.hits.get? id = f.statements.hits.get? id ∨
    f.statements.hits.get? id = some 0 ∧
      ∃ h, 0 < h ∧ (reconcileStatements f).statements.hits.get? id = some h := by
  rw [get?_hits_reconcileStatements]
  cases hr : reconciledHits? f id with
  | none => simp
  | some h =>
    obtain ⟨hzero, -, hne⟩ := of_reconciledHits? hr
    exact .inr ⟨hzero, h, UInt64.pos_iff_ne_zero.2 hne, by simp [hzero]⟩

theorem length_changed (f : FileCoverage) :
    (f.statements.hits.keys.filter fun id =>
      decide ((reconcileStatements f).statements.hits.get? id ≠ f.statements.hits.get? id)).length =
    (unreconciledStatements f).length := by
  refine List.Perm.length_eq ((List.perm_ext_iff_of_nodup ?_ ?_).2 fun id => ?_)
  · exact f.statements.hits.nodup_keys.filter _
  · exact f.statements.nodup_ids.filter _
  · rw [List.mem_filter, decide_eq_true_iff, changed_iff, mem_unreconciledStatements]
    refine ⟨And.right, fun hsome => ⟨?_, hsome⟩⟩
    obtain ⟨h, hh⟩ := Option.isSome_iff_exists.1 hsome
    rw [SortedMap.mem_keys_iff, (of_reconciledHits? hh).1]
    rfl

end Passes

namespace Fixups
variable {f : FileCoverage} {source : Option String}

open Passes

/-- What is left of a file `f` that came through the passes, and what was reported of it. -/
structure Tidied (source : Option String) (f g : FileCoverage) (r : FixupReport) : Prop where
  path : g.path = f.path
  statements : g.statements.records = f.statements.records
  counts : ∀ id, g.statements.hits.get? id = f.statements.hits.get? id ∨
    f.statements.hits.get? id = some 0 ∧ ∃ h, 0 < h ∧ g.statements.hits.get? id = some h
  changed : (f.statements.hits.keys.filter fun id =>
    decide (g.statements.hits.get? id ≠ f.statements.hits.get? id)).length = r.reconciledStatements
  functions : f.functions.Kept g.functions
  branches : f.branches.Kept g.branches
  erased : ∀ id b, f.branches.records.get? id = some b →
    (g.branches.records.get? id = none ↔ Phantom b ∨ ∃ s, source = some s ∧ Spurious s.toList b)
  functionsErased : f.functions.size = g.functions.size + (r.duplicateFunctions + r.markupCallbacks)
  branchesErased : f.branches.size = g.branches.size + (r.phantomBranches + r.spuriousBranches)
  backfilled : r.backfilledRecords = 0

theorem tidied_structural (f : FileCoverage) : Tidied none f (structural f).1 (structural f).2 where
  path := rfl
  statements := rfl
  counts := reconciled_cases f
  changed := length_changed f
  functions := Table.kept_eraseAll duplicateFunctions_sublist
  branches := Table.kept_eraseAll Table.idsWhere_sublist
  erased id b hb := by
    have herased : (structural f).1.branches = f.branches.eraseAll (phantomBranches f) := rfl
    have hphantom : id ∈ phantomBranches f ↔ Phantom b := by
      rw [mem_phantomBranches, hb]
      simp
    rw [herased, Table.get?_records_eraseAll_eq_none_iff, hphantom, hb]
    simp
  functionsErased := Table.size_eraseAll duplicateFunctions_sublist
  branchesErased := Table.size_eraseAll Table.idsWhere_sublist
  backfilled := rfl

/-- The passes that read the text go on from a file that was tidied without it. -/
theorem Tidied.textual {s : String} {x : Fixed} (h : Tidied none f x.1 x.2) :
    Tidied (some s) f (textual s.toList x).1 (textual s.toList x).2 where
  path := h.path
  statements := h.statements
  counts := h.counts
  changed := h.changed
  functions := h.functions.trans (Table.kept_eraseAll Table.idsWhere_sublist)
  branches := h.branches.trans (Table.kept_eraseAll Table.idsWhere_sublist)
  erased id b hb := by
    have herased : (Fixups.textual s.toList x).1.branches =
        x.1.branches.eraseAll (spuriousBranches x.1 s.toList) := rfl
    have hbefore : x.1.branches.records.get? id = none ↔ Phantom b := by
      simpa using h.erased id b hb
    rw [herased, Table.get?_records_eraseAll_eq_none_iff, hbefore, or_comm]
    -- what is left of the branches has the records it had
    rcases h.branches id with ⟨hkept, _⟩ | ⟨_, hgone, _⟩
    · have hspurious : id ∈ spuriousBranches x.1 s.toList ↔ Spurious s.toList b := by
        rw [mem_spuriousBranches, hkept, hb]
        simp
      rw [hspurious]
      simp
    · simp [hbefore.1 hgone]
  functionsErased := by
    have hsize : x.1.functions.size = (Fixups.textual s.toList x).1.functions.size +
        (markupCallbacks x.1 s.toList).length :=
      Table.size_eraseAll Table.idsWhere_sublist
    have hduplicates : (Fixups.textual s.toList x).2.duplicateFunctions =
        x.2.duplicateFunctions + 0 := rfl
    have hmarkup : (Fixups.textual s.toList x).2.markupCallbacks =
        x.2.markupCallbacks + (markupCallbacks x.1 s.toList).length := rfl
    rw [h.functionsErased, hsize, hduplicates, hmarkup]
    omega
  branchesErased := by
    have hsize : x.1.branches.size = (Fixups.textual s.toList x).1.branches.size +
        (spuriousBranches x.1 s.toList).length :=
      Table.size_eraseAll Table.idsWhere_sublist
    have hphantom : (Fixups.textual s.toList x).2.phantomBranches = x.2.phantomBranches + 0 := rfl
    have hspurious : (Fixups.textual s.toList x).2.spuriousBranches =
        x.2.spuriousBranches + (spuriousBranches x.1 s.toList).length := rfl
    rw [h.branchesErased, hsize, hphantom, hspurious]
    omega
  backfilled := h.backfilled

theorem tidied_cleaned (source : Option String) (f : FileCoverage) :
    Tidied source f (cleaned source f).1 (cleaned source f).2 := by
  cases source with
  | none => exact tidied_structural f
  | some s => exact (tidied_structural f).textual

/-- All that is gone of a file that does not fail is in its report, and what is left is as it was but for
the counts that were reconciled. The report of a map is the sum of what is reported of its files. -/
theorem tidied_of_fixups [Syntax.Parser] (m : CoverageMap) (sources : Sources) :
    (apply m sources false).2 =
      .sum (m.entries.map fun e => (apply (.single e.1 e.2) sources false).2) ∧
    ∀ path f, m.get? path = some f → (apply (.single path f) sources false).2.failedFiles = 0 →
      ∃ g r, (apply m sources false).1.get? path = some g ∧
        apply (.single path f) sources false = (.single path g, r) ∧
        Tidied (sources path) f g r := by
  refine ⟨report_apply_single, fun path f hf hpass => ?_⟩
  refine ⟨_, _, by rw [get?_apply, hf]; rfl, apply_single, ?_⟩
  rw [apply_single, fileOrSame_without_backfill] at hpass
  rw [fileOrSame_without_backfill]
  split at hpass
  · next hv =>
    rw [if_pos hv]
    exact tidied_cleaned (sources path) f
  · simp at hpass

/-- A file with something for every pass. -/
def bundled : FileCoverage where
  path := "/a.js"
  statements := ⟨.ofList [(0, .ofNumbers 1 0 1 5), (1, .ofNumbers 2 0 2 4)], .ofList [(0, 0), (1, 3)]⟩
  functions :=
    ⟨.ofList [(0, ⟨"load", .ofNumbers 1 0 1 5, .ofNumbers 1 0 1 9, 1⟩),
      (1, ⟨"load", .ofNumbers 1 0 1 5, .ofNumbers 1 6 1 9, 1⟩),
      (2, ⟨"", .ofNumbers 2 6 2 14, .ofNumbers 2 6 2 14, 2⟩)], .ofList [(0, 0), (1, 4), (2, 7)]⟩
  branches :=
    ⟨.ofList [(0, ⟨.ofNumbers 1 0 1 0, .ifElse, [.ofNumbers 1 0 1 0], 1⟩),
      (1, ⟨.ofNumbers 1 0 1 6, .logical, [.ofNumbers 1 0 1 1, .ofNumbers 1 5 1 6], 1⟩),
      (2, ⟨.ofNumbers 2 0 2 14, .logical, [.ofNumbers 2 0 2 1, .ofNumbers 2 6 2 14], 2⟩)],
      .ofList [(0, [0]), (1, [1, 0]), (2, [1, 1])]⟩

def bundledText : Sources := fun _ => some "a && b;\nl.map(x => <p/>);"

theorem tidied_of_fixups_sample :
    (SortedMap.get? (.single "/a.js" bundled) "/a.js" = some bundled ∧
    (apply (.single "/a.js" bundled) bundledText false).2.failedFiles = 0) ∧
    (∃ g r, (apply (.single "/a.js" bundled) bundledText false).1.get? "/a.js" = some g ∧
      apply (.single "/a.js" bundled) bundledText false = (.single "/a.js" g, r) ∧
      Tidied (bundledText "/a.js") bundled g r) ∧
    (apply (.single "/a.js" bundled) bundledText false).2 =
      { phantomBranches := 1, reconciledStatements := 1, duplicateFunctions := 1,
        markupCallbacks := 1, spuriousBranches := 1 } := by
  have hf : SortedMap.get? (.single "/a.js" bundled) "/a.js" = some bundled := by decide
  have hpass : (apply (.single "/a.js" bundled) bundledText false).2.failedFiles = 0 := by
    decide +kernel
  exact ⟨⟨hf, hpass⟩, (tidied_of_fixups (.single "/a.js" bundled) bundledText).2 _ _ hf hpass,
    by decide +kernel⟩

end Fixups
end Coverage

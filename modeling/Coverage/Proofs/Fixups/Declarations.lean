import Coverage.Proofs.Fixups.Again
import Coverage.Proofs.Fixups.Keepers
import Coverage.Proofs.Fixups.Removal
import Coverage.Syntax.Program

/-! Statements that stand on the declaration of a function. One that did not run takes over the count of the
first function that is declared exactly there and ran. The pass behind it keeps the function with the most
hits, which need not be the same one. -/
namespace Coverage

namespace Passes
variable {f : FileCoverage} {d : Span} {id i k : Id} {r : FunctionSite} {c n : Hits}

/-- The function is declared exactly there, and it ran. -/
structure RanAt (f : FileCoverage) (d : Span) (id : Id) (n : Hits) : Prop where
  declared : ∃ r, f.functions.records.get? id = some r ∧ r.declaration = d
  counted : f.functions.hits.get? id = some n
  pos : 0 < n

/-- Of the functions that are declared exactly there and ran it has the lowest id. -/
structure FirstAt (f : FileCoverage) (d : Span) (id : Id) (n : Hits) : Prop where
  ran : RanAt f d id n
  first : ∀ i c, RanAt f d i c → id ≤ i

/-- The first function that is declared exactly there and ran did so less often. -/
def Forestalled (f : FileCoverage) (d : Span) (n : Hits) : Prop := ∃ i c, FirstAt f d i c ∧ c < n

theorem FirstAt.unique (h : FirstAt f d id n) (h' : FirstAt f d i c) : id = i ∧ n = c := by
  obtain rfl : id = i := UInt32.le_antisymm (h.first i c h'.ran) (h'.first id n h.ran)
  refine ⟨rfl, ?_⟩
  have hcount := h.ran.counted.symm.trans h'.ran.counted
  exact Option.some.inj hcount

theorem forestalled_iff (h : FirstAt f d i c) : Forestalled f d n ↔ c < n := by
  constructor
  · rintro ⟨j, e, hj, hlt⟩
    obtain ⟨_, rfl⟩ := h.unique hj
    exact hlt
  · intro hlt
    exact ⟨i, c, h, hlt⟩

theorem ranAt_iff_mem_rows : RanAt f d id n ↔
    ∃ r, (id, r, n) ∈ f.functions.rows ∧ (n != 0 && r.declaration == d) = true := by
  simp only [Table.mem_rows, Bool.and_eq_true, bne_iff_ne, beq_iff_eq]
  constructor
  · rintro ⟨⟨r, hr, hd⟩, hn, hpos⟩
    have hcount : n = f.functions.count id := by simp [Table.count, hn]
    exact ⟨r, ⟨hr, hcount⟩, UInt64.pos_iff_ne_zero.1 hpos, hd⟩
  · rintro ⟨r, ⟨hr, hcount⟩, hne, hd⟩
    refine ⟨⟨r, hr, hd⟩, ?_, UInt64.pos_iff_ne_zero.2 hne⟩
    -- a function without a count would have the count zero
    cases hget : f.functions.hits.get? id with
    | none =>
      have hzero : n = default := by simpa [Table.count, hget] using hcount
      exact (hne hzero).elim
    | some h => simp [hcount, Table.count, hget]

theorem firstAt_of_declarationHits? (h : declarationHits? f d = some c) : ∃ i, FirstAt f d i c := by
  obtain ⟨⟨i, r, n⟩, hfind, hn⟩ := Option.map_eq_some_iff.1 h
  obtain rfl : n = c := hn
  have hpass := List.find?_some hfind
  refine ⟨i, ranAt_iff_mem_rows.2 ⟨r, List.mem_of_find?_eq_some hfind, hpass⟩, ?_⟩
  intro j e hj
  obtain ⟨s, hmem, hp⟩ := ranAt_iff_mem_rows.1 hj
  exact lowest_of_find? (pairwise_rows f.functions) hfind _ hmem hp

theorem exists_firstAt (h : RanAt f d id n) : ∃ i c, FirstAt f d i c ∧ declarationHits? f d = some c := by
  obtain ⟨r, hmem, hp⟩ := ranAt_iff_mem_rows.1 h
  cases hd : declarationHits? f d with
  | none =>
    simp only [Bool.and_eq_true, bne_iff_ne, beq_iff_eq] at hp
    exact (hp.1 (declarationHits?_eq_none_iff.1 hd _ hmem hp.2)).elim
  | some c =>
    obtain ⟨i, hi⟩ := firstAt_of_declarationHits? hd
    exact ⟨i, c, hi, rfl⟩

end Passes

namespace Fixups
variable {f g : FileCoverage} {source : Option String} {id i k : Id} {r : FunctionSite} {c n : Hits}

open Passes

/-- Functions that are left by all passes are left by the one that erases duplicates. -/
theorem isKeeper_of_cleaned (h : (cleaned source f).1.functions.records.get? k = some r) :
    IsKeeper f r.declaration.start k r := by
  have hstructural : (structural f).1.functions = (eraseDuplicateFunctions f).functions := rfl
  have hleft : (structural f).1.functions.records.get? k = some r := by
    cases source with
    | none => exact h
    | some s =>
      have herased : (cleaned (some s) f).1.functions =
          (structural f).1.functions.eraseAll (markupCallbacks (structural f).1 s.toList) := rfl
      rw [herased, Table.get?_records_eraseAll] at h
      by_cases hm : k ∈ markupCallbacks (structural f).1 s.toList
      · simp [hm] at h
      · rwa [if_neg hm] at h
  rw [hstructural] at hleft
  exact declaredAt_eraseDuplicateFunctions.1 ⟨hleft, rfl⟩

theorem get?_hits_statements_cleaned : (cleaned source f).1.statements.hits.get? id =
    (f.statements.hits.get? id).map fun h => (reconciledHits? f id).getD h := by
  have hsame : (cleaned source f).1.statements = (reconcileStatements (erasePhantomBranches f)).statements := by
    cases source <;> rfl
  rw [hsame, get?_hits_reconcileStatements]
  rfl

/-- The statement `id` did not run in `f` and stands on the declaration `d` of the function `k`, which is left
in `g` with the count `n`. -/
structure Reconciled (f g : FileCoverage) (id k : Id) (d : Span) (n : Hits) : Prop where
  agrees : g.statements.hits.get? id = some n ↔ ¬ Forestalled f d n
  first : ∃ i c, FirstAt f d i c ∧ g.statements.hits.get? id = some c ∧ c ≤ n
  /-- A count that does not agree is that of a function which has been erased. -/
  erased : ∀ i c, FirstAt f d i c → c < n → i < k ∧ g.functions.records.get? i = none

theorem reconciled_cleaned (hr : (cleaned source f).1.functions.records.get? k = some r)
    (hn : (cleaned source f).1.functions.hits.get? k = some n) (hpos : 0 < n)
    (hs : f.statements.records.get? id = some r.declaration) (hzero : f.statements.hits.get? id = some 0) :
    Reconciled f (cleaned source f).1 id k r.declaration n := by
  have hkeeper := isKeeper_of_cleaned hr
  have hran : RanAt f r.declaration k n := by
    rcases (tidied_cleaned source f).functions k with ⟨hrecord, hhits⟩ | ⟨_, hgone, _⟩
    · exact ⟨⟨r, hrecord.symm.trans hr, rfl⟩, hhits.symm.trans hn, hpos⟩
    · simp [hr] at hgone
  obtain ⟨i, c, hfirst, hc⟩ := exists_firstAt hran
  obtain ⟨s, hi, hd⟩ := hfirst.ran.declared
  have hcount : (cleaned source f).1.statements.hits.get? id = some c := by
    have hreconciled : reconciledHits? f id = some c := by
      rw [reconciledHits?, if_pos hzero, hs]
      exact hc
    simp [get?_hits_statements_cleaned, hzero, hreconciled]
  have hle : c ≤ n := by
    have hmost := hkeeper.hits i s ⟨hi, by rw [hd]⟩
    simpa [Table.count, hfirst.ran.counted, hran.counted] using hmost
  refine ⟨?_, ⟨i, c, hfirst, hcount, hle⟩, ?_⟩
  · rw [forestalled_iff hfirst, hcount, Option.some_inj, UInt64.not_lt]
    constructor
    · rintro rfl
      exact UInt64.le_refl c
    · intro hge
      exact UInt64.le_antisymm hle hge
  · intro j e hj hlt
    obtain ⟨rfl, rfl⟩ := hfirst.unique hj
    have hne : i ≠ k := by
      rintro rfl
      have heq := Option.some.inj (hj.ran.counted.symm.trans hran.counted)
      rw [heq] at hlt
      exact UInt64.lt_irrefl _ hlt
    refine ⟨UInt32.lt_of_le_of_ne (hj.first k n hran) hne, ?_⟩
    -- if it were left, it would be a second keeper of the place
    cases hleft : (cleaned source f).1.functions.records.get? i with
    | none => rfl
    | some t =>
      have hother := isKeeper_of_cleaned hleft
      obtain rfl : t = s := Option.some.inj (hother.declared.recorded.symm.trans hi)
      rw [hd] at hother
      exact (hne (hother.unique hkeeper)).elim

/-- A statement that did not run and stands on the declaration of a function that is left and ran has the
count of this function, unless another one of a lower id, which is declared exactly there, ran less often.
That one is erased, and its count stays with the statement. -/
theorem reconciled_of_fixups [Syntax.Parser] (m : CoverageMap) (sources : Sources) (path : String) (f : FileCoverage)
    (hf : m.get? path = some f) (hv : f.Valid) :
    ∃ g, (apply m sources false).1.get? path = some g ∧
      ∀ k r n, g.functions.records.get? k = some r → g.functions.hits.get? k = some n → 0 < n →
        ∀ id, f.statements.records.get? id = some r.declaration → f.statements.hits.get? id = some 0 →
          Reconciled f g id k r.declaration n := by
  refine ⟨(cleaned (sources path) f).1, ?_, ?_⟩
  · rw [get?_apply, hf, Option.map_some, fileOrSame_without_backfill, if_pos (valid_cleaned hv)]
  · intro k r n hr hn hpos id hs hzero
    exact reconciled_cleaned hr hn hpos hs hzero

/-- Where the function and the binding that exports it are declared. -/
def exportLine : Span := .ofNumbers 3 0 3 30

/-- The binding comes first and was counted less often than the function. -/
def exported : FileCoverage where
  path := "/a.js"
  statements := ⟨.ofList [(0, exportLine)], .ofList [(0, 0)]⟩
  functions :=
    ⟨.ofList [(0, ⟨"render", exportLine, exportLine, 3⟩), (1, ⟨"render", exportLine, .ofNumbers 4 2 8 1, 3⟩)],
      .ofList [(0, 2), (1, 5)]⟩
  branches := ∅

theorem reconciled_of_fixups_sample :
    SortedMap.get? (.single "/a.js" exported) "/a.js" = some exported ∧ exported.Valid ∧
    ∃ g, (apply (.single "/a.js" exported) (fun _ => none) false).1.get? "/a.js" = some g ∧
      g.functions.records.get? 1 = exported.functions.records.get? 1 ∧
      g.functions.hits.get? 1 = some 5 ∧ Reconciled exported g 0 1 exportLine 5 := by
  have hf : SortedMap.get? (.single "/a.js" exported) "/a.js" = some exported := by decide
  have hv : exported.Valid := by decide
  refine ⟨hf, hv, ?_⟩
  obtain ⟨g, hg, hreconciled⟩ :=
    reconciled_of_fixups (.single "/a.js" exported) (fun _ => none) "/a.js" exported hf hv
  have happly : (apply (.single "/a.js" exported) (fun _ => none) false).1.get? "/a.js" =
      some (structural exported).1 := by decide +kernel
  obtain rfl : (structural exported).1 = g := Option.some.inj (happly.symm.trans hg)
  exact ⟨_, hg, by decide, by decide,
    hreconciled 1 ⟨"render", exportLine, .ofNumbers 4 2 8 1, 3⟩ 5 (by decide) (by decide) (by decide) 0
      (by decide) (by decide)⟩

/-- The function is left with its five hits, and the statement on its declaration shows two. -/
theorem count_of_erased_duplicate : exported.Valid ∧
    exported.statements.records.get? 0 = some exportLine ∧ exported.statements.hits.get? 0 = some 0 ∧
    ∃ g r, (apply (.single "/a.js" exported) (fun _ => none) false).1.get? "/a.js" = some g ∧
      g.functions.records.get? 1 = some r ∧ r.declaration = exportLine ∧
      g.functions.hits.get? 1 = some 5 ∧ g.statements.hits.get? 0 = some 2 := by
  refine ⟨by decide, by decide, by decide, (structural exported).1,
    ⟨"render", exportLine, .ofNumbers 4 2 8 1, 3⟩, ?_, ?_, rfl, ?_, ?_⟩
  · decide +kernel
  · decide
  · decide
  · decide

end Fixups
end Coverage

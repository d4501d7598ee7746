import Coverage.Proofs.Merge.Counts
import Coverage.Proofs.Merge.Own

/-! Branches that share a start or a line. A branch with a signature of its own takes the counts of its
counterpart in each other source, except that added counts can be gone by then: an earlier branch of
the same start that finds none of its own signature takes what is left. -/
namespace Coverage

/-- Where a branch starts, its kind and its number of arms. -/
def BranchSite.signature (b : BranchSite) : Location × BranchKind × Nat :=
  (b.span.start, b.kind, b.arms.length)

namespace Table
variable {t : Table BranchSite (List Hits)} {i j : Id} {b u : BranchSite}

/-- The branch with this id is the only one of the table with its signature. -/
def Sole (t : Table BranchSite (List Hits)) (i : Id) (b : BranchSite) : Prop :=
  (t.records.entries.filter fun e => e.2.signature == b.signature) = [(i, b)]

instance : Decidable (t.Sole i b) := inferInstanceAs (Decidable (_ = _))

theorem Sole.get? (h : t.Sole i b) : t.records.get? i = some b := by
  have hmem : (i, b) ∈ t.records.entries.filter fun e => e.2.signature == b.signature := by
    rw [h]
    exact List.mem_cons_self
  exact SortedMap.get?_eq_some_iff.2 (List.mem_filter.1 hmem).1

theorem Sole.id_eq (h : t.Sole i b) (hu : t.records.get? j = some u)
    (hsig : u.signature = b.signature) : j = i := by
  have hmem : (j, u) ∈ t.records.entries.filter fun e => e.2.signature == b.signature :=
    List.mem_filter.2 ⟨SortedMap.get?_eq_some_iff.1 hu, beq_iff_eq.2 hsig⟩
  rw [h, List.mem_singleton] at hmem
  exact congrArg Prod.fst hmem

end Table

namespace Merge
variable {s : Strategy} {t o : Table BranchSite (List Hits)} {i j : Id} {b u : BranchSite}
  {c : Candidate (BranchSite × List Hits)} {path : String}

open Matching FileCoverage

theorem find?_eq_of_unique {α : Type} {p : α → Bool} {l : List α} {a : α} (ha : a ∈ l) (hp : p a)
    (hone : ∀ d ∈ l, p d → d = a) : l.find? p = some a := by
  cases hd : l.find? p with
  | none => exact (List.find?_eq_none.1 hd a ha hp).elim
  | some d => rw [hone d (List.mem_of_find?_eq_some hd) (List.find?_some hd)]

theorem pickBranch_of_match {w : BranchKind × Nat} {l : List (Candidate (BranchSite × List Hits))}
    (h : l.find? (fun c => c.value.2.length == w.2 && c.value.1.kind == w.1) = some c) :
    pickBranch w l = some c := by
  rw [pickBranch, h]
  rfl

/-- A branch of another table with the same signature is the own candidate if it is the only one. -/
theorem own_branch (ht : ArmsCounted t) (ho : ArmsCounted o) (hb : t.records.get? i = some b)
    (hu : o.Sole j u) (hsig : u.signature = b.signature) (hc : CandidateOf .branches o j u c) :
    Own RecordKind.branches.pick (candidates .branches o) (queryOf .branches t (i, b)) c := by
  obtain ⟨hstart, hkind, harms⟩ : u.span.start = b.span.start ∧ u.kind = b.kind ∧
      u.arms.length = b.arms.length := by simpa [BranchSite.signature] using hsig
  refine ⟨hc.mem, hc.start.trans hstart, fun claimed hopen => pickBranch_of_match ?_⟩
  refine find?_eq_of_unique ?_ ?_ ?_
  · exact mem_unclaimed_sameStart hc.mem (hc.start.trans hstart) hopen
  · simp [hc.value, queryOf, RecordKind.branches, ho.length_count hu.get?, ht.length_count hb, hkind,
      harms]
  · intro d hd hmatch
    obtain ⟨hdall, hdstart⟩ := of_mem_unclaimed_sameStart hd
    obtain ⟨k, v, hdk⟩ := exists_candidateOf_of_mem hdall
    have hmatch : v.arms.length = b.arms.length ∧ v.kind = b.kind := by
      simpa [hdk.value, queryOf, RecordKind.branches, ho.length_count hdk.record,
        ht.length_count hb] using hmatch
    have hvstart : v.span.start = b.span.start := hdk.start.symm.trans hdstart
    have hvsig : v.signature = u.signature := by
      rw [hsig, BranchSite.signature, BranchSite.signature, hvstart, hmatch.1, hmatch.2]
    have hkj := hu.id_eq hdk.record hvsig
    subst hkj
    exact hdk.unique hc

/-- With added counts, a branch of the same start with a lower id and another signature has taken the
record. -/
def TakenBefore (t o : Table BranchSite (List Hits)) (i : Id) (b : BranchSite) (j : Id) : Prop :=
  ∃ k v, k < i ∧ t.records.get? k = some v ∧ v.span.start = b.span.start ∧
    v.signature ≠ b.signature ∧ takenId? .branches .add t o k = some j

/-- A branch with a signature of its own takes its counterpart, unless counts are added and the
counterpart is taken before. -/
theorem takenId?_counterpart_iff (ht : ArmsCounted t) (ho : ArmsCounted o) (hb : t.Sole i b)
    (hu : o.Sole j u) (hsig : u.signature = b.signature) :
    takenId? .branches s t o i = some j ↔ ¬ (s = .add ∧ TakenBefore t o i b j) := by
  obtain ⟨c, hc⟩ := exists_candidateOf .branches hu.get?
  have hown := own_branch ht ho hb.get? hu hsig hc
  have htaken {s : Strategy} {k : Id} : takenId? .branches s t o k = some j ↔
      taken? .branches s t o k = some c := takenId?_eq_some_iff chooses_branch hc
  rw [htaken]
  by_cases hs : s = .add
  · subst hs
    have hexclusive : Strategy.add.exclusive = true := rfl
    constructor
    · rintro hi ⟨_, k, v, hlt, _, _, _, hk⟩
      have hki := taken?_inj hexclusive chooses_branch (htaken.1 hk) hi
      exact UInt32.lt_irrefl _ (hki ▸ hlt)
    · intro hno
      rcases taken?_of_own_or_lower hexclusive chooses_branch hb.get? hown with
        hi | ⟨k, v, hlt, hv, hstart, hk⟩
      · exact hi
      · refine (hno ⟨rfl, k, v, hlt, hv, hstart, fun hvsig => ?_, htaken.2 hk⟩).elim
        exact UInt32.lt_irrefl _ (hb.id_eq hv hvsig ▸ hlt)
  · refine iff_of_true ?_ fun h => hs h.1
    exact taken?_of_own (exclusive_eq_false hs) hb.get? hown

/-- Every branch of the same start with a lower id has a signature of its own and a counterpart. -/
def LowerPaired (t o : Table BranchSite (List Hits)) (i : Id) (b : BranchSite) : Prop :=
  ∀ k v, k < i → t.records.get? k = some v → v.span.start = b.span.start →
    t.Sole k v ∧ ∃ j u, o.Sole j u ∧ u.signature = v.signature

/-- Branches that all have counterparts leave each other theirs. -/
theorem not_takenBefore (ht : ArmsCounted t) (ho : ArmsCounted o) (hu : o.Sole j u)
    (hsig : u.signature = b.signature) (hlower : LowerPaired t o i b) :
    ¬ TakenBefore t o i b j := by
  induction hn : i.toNat using Nat.strongRecOn generalizing i b j u with
  | ind n ih =>
    rintro ⟨k, v, hlt, hv, hstart, hne, hk⟩
    obtain ⟨hvsole, l, w, hw, hwsig⟩ := hlower k v hlt hv hstart
    have hfree : ¬ TakenBefore t o k v l := by
      refine ih k.toNat (hn ▸ UInt32.lt_iff_toNat_lt.1 hlt) hw hwsig ?_ rfl
      intro k' v' hlt' hv' hstart'
      exact hlower k' v' (UInt32.lt_trans hlt' hlt) hv' (hstart'.trans hstart)
    have hown := (takenId?_counterpart_iff (s := .add) ht ho hvsole hw hwsig).2 fun h => hfree h.2
    -- The branch that takes the record has a counterpart, so it takes that one and no other.
    have hlj : l = j := Option.some.inj (hown.symm.trans hk)
    subst hlj
    have hwu : w = u := Option.some.inj (hw.get?.symm.trans hu.get?)
    exact hne (hwsig.symm.trans (hwu ▸ hsig))

/-- The branch takes its counterpart in another table, if that is the only one with its signature.
With added counts it does so just when no lower branch took it before, and never loses it when all of
these have counterparts too. -/
def TakesCounterpart (s : Strategy) (t o : Table BranchSite (List Hits)) (i : Id) (b : BranchSite) :
    Prop :=
  ∀ j u, o.Sole j u → u.signature = b.signature →
    (takenId? .branches s t o i = some j ↔ ¬ (s = .add ∧ TakenBefore t o i b j)) ∧
    (LowerPaired t o i b → takenId? .branches s t o i = some j)

theorem takesCounterpart (ht : ArmsCounted t) (ho : ArmsCounted o) (hb : t.Sole i b) :
    TakesCounterpart s t o i b := by
  intro j u hu hsig
  have hiff := takenId?_counterpart_iff (s := s) ht ho hb hu hsig
  exact ⟨hiff, fun hlower => hiff.2 fun h => not_takenBefore ht ho hu hsig hlower h.2⟩

/-- Each branch of the supplier that has a signature of its own has its own counts, combined in turn
with those it takes in the other sources, where it takes its counterpart. -/
def CombinedWithCounterparts (s : Strategy) (sources : List FileCoverage) (f : FileCoverage) : Prop :=
  ∃ r : Split sources, r.Supplies s (·.branches) ∧
    f.branches.records = r.source.branches.records ∧
    ∀ i b, r.source.branches.Sole i b →
      f.branches.hits.get? i =
        some ((r.others.filterMap fun o =>
            (takenId? .branches s r.source.branches o.branches i).map o.branches.count).foldl
          (combineArms s.combine) (r.source.branches.count i)) ∧
      ∀ o ∈ r.others, TakesCounterpart s r.source.branches o.branches i b

/-- A path with at least two valid sources has branches that were combined with their counterparts. -/
theorem counterparts_of_maps (l : List CoverageMap) (s : Strategy) (path : String)
    (h : 2 ≤ (validAt l path).length) :
    ∃ f, (maps l s).get? path = some f ∧ CombinedWithCounterparts s (validAt l path) f := by
  obtain ⟨p, q, r, _, _, hr, hget⟩ := get?_maps_of_two_valid s h
  have harms (o : FileCoverage) (ho : o ∈ validAt l path) : ArmsCounted o.branches :=
    (valid_iff.1 (valid_of_mem_validAt ho)).2.2
  refine ⟨_, hget, r, hr, ?_, fun i b hb => ⟨?_, fun o ho => ?_⟩⟩
  · rw [countDirective_branches, assemble_branches, Split.records_table]
  · have hcount := (harms _ r.source_mem).counted.get? hb.get?
    rw [countDirective_branches, assemble_branches, Split.table,
      get?_hits_raised_takenId? chooses_branch, hcount, List.filterMap_map]
    rfl
  · exact takesCounterpart (harms _ r.source_mem) (harms o (r.mem_of_mem_others ho)) hb

def conditionalSite : BranchSite :=
  ⟨.ofNumbers 3 4 3 18, .conditional, [.ofNumbers 3 13 3 14, .ofNumbers 3 17 3 18], 3⟩

/-- The condition is a logical expression, so two branches start at one place. -/
def nested : FileCoverage where
  path := "/a.ts"
  statements := ∅
  functions := ∅
  branches := ⟨.ofList [
      (0, ⟨.ofNumbers 3 4 3 10, .logical, [.ofNumbers 3 4 3 5, .ofNumbers 3 9 3 10], 3⟩),
      (1, conditionalSite)], .ofList [(0, [1, 0]), (1, [0, 2])]⟩

/-- The same file from a source that knows nothing of logical expressions. -/
def flat : FileCoverage where
  path := "/a.ts"
  statements := ∅
  functions := ∅
  branches := ⟨.ofList [(0, conditionalSite)], .ofList [(0, [5, 7])]⟩

def nestedAndFlat : List CoverageMap := [.ofList [("/a.ts", nested)], .ofList [("/a.ts", flat)]]

theorem counterparts_of_maps_sample : 2 ≤ (validAt nestedAndFlat "/a.ts").length ∧
    ∃ f, (maps nestedAndFlat .max).get? "/a.ts" = some f ∧
      CombinedWithCounterparts .max (validAt nestedAndFlat "/a.ts") f :=
  ⟨by decide, counterparts_of_maps nestedAndFlat .max "/a.ts" (by decide)⟩

/-- The logical expression finds no branch of its kind and takes the conditional one, whose counts are
then missing where they belong. -/
theorem counterpart_taken_before : validAt nestedAndFlat "/a.ts" = [nested, flat] ∧
    flat.branches.size < nested.branches.size ∧
    nested.branches.Sole 1 conditionalSite ∧ flat.branches.Sole 0 conditionalSite ∧
    ∃ f, (maps nestedAndFlat .add).get? "/a.ts" = some f ∧
      f.branches.hits.get? 0 = some [6, 7] ∧
      f.branches.hits.get? 1 = some (nested.branches.count 1) ∧
      nested.branches.count 1 ≠
        combineArms Hits.add (nested.branches.count 1) (flat.branches.count 0) := by
  obtain ⟨f, hf⟩ : ∃ f, (maps nestedAndFlat .add).get? "/a.ts" = some f :=
    Option.isSome_iff_exists.1 (by decide)
  have hcounts : ((maps nestedAndFlat .add).get? "/a.ts").map (fun f =>
      (f.branches.hits.get? 0, f.branches.hits.get? 1)) =
      some (some [6, 7], some (nested.branches.count 1)) := by decide
  simp only [hf, Option.map_some, Option.some_inj, Prod.mk.injEq] at hcounts
  exact ⟨by decide, by decide, by decide, by decide, f, hf, hcounts.1, hcounts.2, by decide⟩

end Merge
end Coverage

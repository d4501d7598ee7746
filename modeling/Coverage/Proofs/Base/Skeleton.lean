import Coverage.Proofs.Base.Again

/-! Which of several sources supplies the structure: one that has records if there is any, of these the last
that does not begin with a directive, and if all do the smallest. -/
namespace Coverage.Base

variable {sources : List FileCoverage} {f : FileCoverage} {p : FileCoverage → Bool} {i : Nat}

/-- The file has a statement, a function or a branch. -/
def HasRecord (f : FileCoverage) : Prop :=
  (∃ id s, f.statements.records.get? id = some s) ∨ (∃ id r, f.functions.records.get? id = some r) ∨
    ∃ id b, f.branches.records.get? id = some b

/-- No statement starts in the first column of the first line. -/
def DirectiveFree (f : FileCoverage) : Prop :=
  ∀ id s, f.statements.records.get? id = some s → s.start ≠ ⟨1, 0⟩

/-- The source at this index is the last one with a property. -/
structure LastWith (P : FileCoverage → Prop) (sources : List FileCoverage) (i : Nat) : Prop where
  here : ∃ f, sources[i]? = some f ∧ P f
  last : ∀ j f, sources[j]? = some f → P f → j ≤ i

/-- The source has records, and none that has any has fewer of them. -/
def Smallest (sources : List FileCoverage) (f : FileCoverage) : Prop :=
  HasRecord f ∧ ∀ g ∈ sources, HasRecord g → f.size ≤ g.size

theorem LastWith.congr {P Q : FileCoverage → Prop} (h : LastWith P sources i)
    (hPQ : ∀ f ∈ sources, P f ↔ Q f) : LastWith Q sources i := by
  obtain ⟨⟨f, hf, hp⟩, hlast⟩ := h
  refine ⟨⟨f, hf, (hPQ f (List.mem_of_getElem? hf)).1 hp⟩, ?_⟩
  intro j g hg hq
  exact hlast j g hg ((hPQ g (List.mem_of_getElem? hg)).2 hq)

section Records

theorem exists_get?_iff {α : Type} {m : SortedMap Id α} : (∃ id x, m.get? id = some x) ↔ m.size ≠ 0 := by
  rw [SortedMap.size, Ne, List.length_eq_zero_iff]
  constructor
  · rintro ⟨id, x, hx⟩ hnil
    have hmem := SortedMap.get?_eq_some_iff.1 hx
    simp [hnil] at hmem
  · intro hne
    obtain ⟨e, l, hl⟩ := List.exists_cons_of_ne_nil hne
    exact ⟨e.1, e.2, SortedMap.get?_eq_some_iff.2 (by simp [hl])⟩

theorem hasRecord_iff : HasRecord f ↔ f.size ≠ 0 := by
  rw [HasRecord, exists_get?_iff, exists_get?_iff, exists_get?_iff, FileCoverage.size, Table.size,
    Table.size, Table.size]
  omega

theorem directiveFree_iff : DirectiveFree f ↔ f.hasStatementAt .origin = false := by
  simp only [DirectiveFree, FileCoverage.hasStatementAt, SortedMap.values, List.any_map, List.any_eq_false,
    SortedMap.get?_eq_some_iff, Function.comp_apply, beq_iff_eq, Prod.forall]
  rfl

end Records

section Choice

/-- The sources that a test picks, each with its index. -/
def picked (p : FileCoverage → Bool) (sources : List FileCoverage) : List (FileCoverage × Nat) :=
  sources.zipIdx.filter fun e => p e.1

theorem mem_picked : (f, i) ∈ picked p sources ↔ sources[i]? = some f ∧ p f = true := by
  rw [picked, List.mem_filter, List.mk_mem_zipIdx_iff_getElem?]

theorem pairwise_picked (p : FileCoverage → Bool) (sources : List FileCoverage) :
    (picked p sources).Pairwise fun a b => a.2 < b.2 := by
  refine List.Pairwise.filter _ ?_
  rw [List.pairwise_iff_getElem]
  intro j k hj hk hlt
  simpa using hlt

theorem not_of_picked_eq_nil (h : picked p sources = []) : ∀ f ∈ sources, p f ≠ true := by
  intro f hf hp
  obtain ⟨j, hj⟩ := List.mem_iff_getElem?.1 hf
  have hmem := mem_picked.2 ⟨hj, hp⟩
  simp [h] at hmem

theorem lastWith_of_getLast? {e : FileCoverage × Nat} (h : (picked p sources).getLast? = some e) :
    LastWith (fun f => p f = true) sources e.2 := by
  have hmem := List.mem_of_getLast? h
  obtain ⟨l, hl⟩ := List.getLast?_eq_some_iff.1 h
  refine ⟨⟨e.1, mem_picked.1 hmem⟩, ?_⟩
  intro j g hg hp
  have hsorted := pairwise_picked p sources
  have hj : (g, j) ∈ picked p sources := mem_picked.2 ⟨hg, hp⟩
  rw [hl] at hsorted hj
  rcases List.mem_append.1 hj with hj | hj
  · exact Nat.le_of_lt ((List.pairwise_append.1 hsorted).2.2 _ hj e (List.mem_singleton_self e))
  · obtain rfl := List.mem_singleton.1 hj
    exact Nat.le_refl j

theorem lastLeast_eq_none_iff {l : List (Nat × Nat)} : lastLeast l = none ↔ l = [] := by
  cases l with
  | nil => simp [lastLeast]
  | cons e l =>
    rw [lastLeast]
    split
    · simp
    · split <;> simp

/-- The weight is the least one, and of equals the entry is the last. -/
theorem lastLeast_spec {l : List (Nat × Nat)} {e : Nat × Nat} (hl : l.Pairwise fun a b => a.1 < b.1)
    (h : lastLeast l = some e) : e ∈ l ∧ ∀ d ∈ l, e.2 ≤ d.2 ∧ (d.2 = e.2 → d.1 ≤ e.1) := by
  induction l generalizing e with
  | nil => simp [lastLeast] at h
  | cons a l ih =>
    obtain ⟨ha, hl⟩ := List.pairwise_cons.1 hl
    rw [lastLeast] at h
    cases hb : lastLeast l with
    | none =>
      have hnil := lastLeast_eq_none_iff.1 hb
      obtain rfl : a = e := by simpa [hb] using h
      simp [hnil]
    | some b =>
      obtain ⟨hmem, hleast⟩ := ih hl hb
      rw [hb] at h
      by_cases hlt : a.2 < b.2
      · obtain rfl : a = e := by simpa [hlt] using h
        refine ⟨List.mem_cons_self, ?_⟩
        intro d hd
        rcases List.mem_cons.1 hd with rfl | hd
        · exact ⟨Nat.le_refl _, fun _ => Nat.le_refl _⟩
        · have hd := (hleast d hd).1
          omega
      · obtain rfl : b = e := by simpa [hlt] using h
        refine ⟨List.mem_cons_of_mem _ hmem, ?_⟩
        intro d hd
        rcases List.mem_cons.1 hd with rfl | hd
        · have hbefore := ha b hmem
          omega
        · exact hleast d hd

/-- The test for records, and the one for records without a directive. -/
def filled (f : FileCoverage) : Bool := f.size != 0
def free (f : FileCoverage) : Bool := filled f && !f.hasStatementAt .origin

theorem filled_iff : filled f = true ↔ HasRecord f := by
  simp [filled, hasRecord_iff]

theorem free_iff : free f = true ↔ HasRecord f ∧ DirectiveFree f := by
  simp [free, filled_iff, directiveFree_iff]

theorem skeleton_eq (sources : List FileCoverage) : skeleton sources =
    match (picked free sources).getLast? with
    | some e => e.2
    | none =>
      match lastLeast ((picked filled sources).map fun e => (e.2, e.1.size)) with
      | some e => e.1
      | none => sources.length - 1 := by
  have hfree : ((picked filled sources).filter fun e => !e.1.hasStatementAt .origin) = picked free sources := by
    rw [picked, List.filter_filter]
    exact List.filter_congr fun e _ => Bool.and_comm _ _
  rw [← hfree]
  rfl

theorem lastWith_smallest {e : Nat × Nat}
    (h : lastLeast ((picked filled sources).map fun e => (e.2, e.1.size)) = some e) :
    LastWith (Smallest sources) sources e.1 := by
  have hsorted : ((picked filled sources).map fun e => (e.2, e.1.size)).Pairwise fun a b => a.1 < b.1 :=
    List.pairwise_map.2 (pairwise_picked filled sources)
  obtain ⟨hmem, hleast⟩ := lastLeast_spec hsorted h
  have hentry {j : Nat} {g : FileCoverage} (hg : sources[j]? = some g) (hr : HasRecord g) :
      (j, g.size) ∈ (picked filled sources).map fun e => (e.2, e.1.size) :=
    List.mem_map.2 ⟨(g, j), mem_picked.2 ⟨hg, filled_iff.2 hr⟩, rfl⟩
  obtain ⟨⟨f, i⟩, hf, rfl⟩ := List.mem_map.1 hmem
  obtain ⟨hget, hfilled⟩ := mem_picked.1 hf
  have hsmallest : Smallest sources f := by
    refine ⟨filled_iff.1 hfilled, ?_⟩
    intro g hg hr
    obtain ⟨j, hj⟩ := List.mem_iff_getElem?.1 hg
    exact (hleast _ (hentry hj hr)).1
  refine ⟨⟨f, hget, hsmallest⟩, ?_⟩
  rintro j g hg ⟨hr, hg'⟩
  have hle := (hleast _ (hentry hg hr)).1
  have hge := hg' f (List.mem_of_getElem? hget) hsmallest.1
  exact (hleast _ (hentry hg hr)).2 (Nat.le_antisymm hge hle)

end Choice

/-- The index of the source whose structure is trusted most. -/
structure Trusted (sources : List FileCoverage) (i : Nat) : Prop where
  index : i < sources.length
  filled : (∃ f ∈ sources, HasRecord f) → ∃ f, sources[i]? = some f ∧ HasRecord f
  directiveFree : (∃ f ∈ sources, HasRecord f ∧ DirectiveFree f) →
    LastWith (fun f => HasRecord f ∧ DirectiveFree f) sources i
  smallest : (∃ f ∈ sources, HasRecord f) → (∀ f ∈ sources, HasRecord f → ¬ DirectiveFree f) →
    LastWith (Smallest sources) sources i
  empty : (∀ f ∈ sources, ¬ HasRecord f) → i + 1 = sources.length

theorem trusted_skeleton (h : sources ≠ []) : Trusted sources (skeleton sources) := by
  have hlength := List.length_pos_iff.2 h
  rw [skeleton_eq]
  cases hlast : (picked free sources).getLast? with
  | some e =>
    have hfree : LastWith (fun f => HasRecord f ∧ DirectiveFree f) sources e.2 :=
      (lastWith_of_getLast? hlast).congr fun f _ => free_iff
    obtain ⟨f, hf, hrecord, hplain⟩ := hfree.here
    have hmem := List.mem_of_getElem? hf
    refine ⟨(List.getElem?_eq_some_iff.1 hf).1, fun _ => ⟨f, hf, hrecord⟩, fun _ => hfree, ?_, ?_⟩
    · intro _ hall
      exact (hall f hmem hrecord hplain).elim
    · intro hnone
      exact (hnone f hmem hrecord).elim
  | none =>
    have hall : ∀ f ∈ sources, ¬ (HasRecord f ∧ DirectiveFree f) := by
      intro f hf hfree
      exact not_of_picked_eq_nil (List.getLast?_eq_none_iff.1 hlast) f hf (free_iff.2 hfree)
    have hno : ¬ ∃ f ∈ sources, HasRecord f ∧ DirectiveFree f := by
      rintro ⟨f, hf, hfree⟩
      exact hall f hf hfree
    cases hleast : lastLeast ((picked filled sources).map fun e => (e.2, e.1.size)) with
    | some e =>
      have hsmallest := lastWith_smallest hleast
      obtain ⟨f, hf, hrecord, _⟩ := hsmallest.here
      refine ⟨(List.getElem?_eq_some_iff.1 hf).1, fun _ => ⟨f, hf, hrecord⟩, fun hfree => (hno hfree).elim,
        fun _ _ => hsmallest, ?_⟩
      intro hnone
      exact (hnone f (List.mem_of_getElem? hf) hrecord).elim
    | none =>
      have hempty : picked filled sources = [] := List.map_eq_nil_iff.1 (lastLeast_eq_none_iff.1 hleast)
      have hnone : ¬ ∃ f ∈ sources, HasRecord f := by
        rintro ⟨f, hf, hr⟩
        exact not_of_picked_eq_nil hempty f hf (filled_iff.2 hr)
      have hindex : sources.length - 1 < sources.length := by omega
      have hlast : sources.length - 1 + 1 = sources.length := by omega
      exact ⟨hindex, fun hr => (hnone hr).elim, fun hfree => (hno hfree).elim, fun hr => (hnone hr).elim,
        fun _ => hlast⟩

section TwoSides
variable {base additional : CoverageMap} {path : String} {a b : FileCoverage}

theorem getElem?_skeleton (b a : FileCoverage) : [b, a][skeleton [b, a]]? = some (supplier b a).source := by
  rw [skeleton_pair, supplier]
  split <;> rfl

/-- The merged file has the statements of the side that is trusted. -/
theorem directiveFree_file (hb : b.Valid) (ha : a.Valid) (h : ∃ g ∈ [b, a], HasRecord g ∧ DirectiveFree g) :
    DirectiveFree (file path b a) := by
  have htrusted : Trusted [b, a] (skeleton [b, a]) := trusted_skeleton (List.cons_ne_nil b [a])
  obtain ⟨f, hf, _, hfree⟩ := (htrusted.directiveFree h).here
  obtain rfl : (supplier b a).source = f := Option.some.inj ((getElem?_skeleton b a).symm.trans hf)
  rw [directiveFree_iff] at hfree ⊢
  rw [hasStatementAt_of_assembled (assembled_file path hb ha)]
  exact hfree

end TwoSides

/-- The structure of the most trusted source is chosen. A path that is valid on both sides of a merge has a
file without a directive if either side has records and no directive. -/
theorem trust_of_skeleton :
    (∀ sources, sources ≠ [] → Trusted sources (skeleton sources)) ∧
    ∀ (base additional : CoverageMap) (path : String) (b a : FileCoverage),
      base.get? path = some b → additional.get? path = some a → b.Valid → a.Valid →
      (∃ g ∈ [b, a], HasRecord g ∧ DirectiveFree g) →
      ∃ f, (merge base additional).get? path = some f ∧ DirectiveFree f := by
  refine ⟨fun sources h => trusted_skeleton h, ?_⟩
  intro base additional path b a hb ha hvb hva h
  exact ⟨file path b a, get?_merge_of_both hb ha, directiveFree_file hvb hva h⟩

/-- The file of `counted` with a directive in front. -/
def directed : FileCoverage where
  path := "/a.ts"
  statements := ⟨.ofList [(0, .ofNumbers 1 0 1 12), (1, .ofNumbers 2 0 2 10)], .ofList [(0, 0), (1, 1)]⟩
  functions := ∅
  branches := ∅

/-- The base lacks the directive, which the new coverage has, and supplies the structure. -/
theorem trust_of_skeleton_sample :
    [FileCoverage.empty "/a.ts", directed, counted, directed] ≠ [] ∧
    Trusted [.empty "/a.ts", directed, counted, directed]
      (skeleton [.empty "/a.ts", directed, counted, directed]) ∧
    skeleton [.empty "/a.ts", directed, counted, directed] = 2 ∧
    (single counted).get? "/a.ts" = some counted ∧ (single directed).get? "/a.ts" = some directed ∧
    counted.Valid ∧ directed.Valid ∧ (∃ g ∈ [counted, directed], HasRecord g ∧ DirectiveFree g) ∧
    ∃ f, (merge (single counted) (single directed)).get? "/a.ts" = some f ∧ DirectiveFree f := by
  have hfiles : [FileCoverage.empty "/a.ts", directed, counted, directed] ≠ [] := by simp
  have hb : (single counted).get? "/a.ts" = some counted := by decide
  have ha : (single directed).get? "/a.ts" = some directed := by decide
  have hfree : ∃ g ∈ [counted, directed], HasRecord g ∧ DirectiveFree g :=
    ⟨counted, List.mem_cons_self, free_iff.1 (by decide)⟩
  exact ⟨hfiles, trust_of_skeleton.1 _ hfiles, by decide, hb, ha, by decide, by decide, hfree,
    trust_of_skeleton.2 (single counted) (single directed) "/a.ts" counted directed hb ha (by decide)
      (by decide) hfree⟩

end Coverage.Base

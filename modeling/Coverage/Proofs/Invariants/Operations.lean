import Coverage.Proofs.Invariants.Alignment
import Coverage.Syntax.Program

/-! Runs of operations on files and on maps of files. Each operation keeps what is aligned aligned, so
every file of every run is aligned and has room for the next record. -/
namespace Coverage

/-- What can be done to a single file. -/
inductive Edit where
  | addStatement (s : Span) (h : Hits)
  | addFunction (g : FunctionSite) (h : Hits)
  | addBranch (b : BranchSite) (h : List Hits)
  | eraseBranch (id : Id)
  | eraseFunction (id : Id)
  | erasePhantomBranches
  | reconcileStatements
  | eraseDuplicateFunctions
  | eraseMarkupCallbacks (t : Text)
  | eraseSpuriousBranches (t : Text)
  /-- A file whose text has a syntax error stays as it is. -/
  | backfill (t : Text)

namespace Edit
variable [Syntax.Parser] {f : FileCoverage} {e : Edit}

def apply (f : FileCoverage) : Edit → FileCoverage
  | addStatement s h => { f with statements := f.statements.add s h }
  | addFunction g h => { f with functions := f.functions.add g h }
  | addBranch b h => { f with branches := f.branches.add b h }
  | eraseBranch id => { f with branches := f.branches.erase id }
  | eraseFunction id => { f with functions := f.functions.erase id }
  | erasePhantomBranches => Passes.erasePhantomBranches f
  | reconcileStatements => Passes.reconcileStatements f
  | eraseDuplicateFunctions => Passes.eraseDuplicateFunctions f
  | eraseMarkupCallbacks t => Passes.eraseMarkupCallbacks f t
  | eraseSpuriousBranches t => Passes.eraseSpuriousBranches f t
  | backfill t =>
    match Backfill.apply f t with
    | .ok (g, _) => g
    | .error _ => f

/-- A branch comes with as many counts as arms. -/
def Fits : Edit → Prop
  | addBranch b h => h.length = b.arms.length
  | _ => True

/-- One edit after the other. -/
def run (f : FileCoverage) (l : List Edit) : FileCoverage := l.foldl apply f

open FileCoverage

theorem backfill_cases (f : FileCoverage) (t : Text) :
    apply f (backfill t) = f ∨ ∃ marks, apply f (backfill t) = (Backfill.fill f t marks).1 := by
  rw [apply, Backfill.apply]
  cases Syntax.Parser.outline? (.ofPath f.path) t with
  | none => exact .inl rfl
  | some o => exact .inr ⟨o.marks, rfl⟩

theorem aligned_apply (h : f.Aligned) (he : e.Fits) : (apply f e).Aligned := by
  obtain ⟨hs, hf, hb, harms⟩ := aligned_iff.1 h
  cases e with
  | addStatement s n => exact aligned_iff.2 ⟨Table.aligned_add hs s n, hf, hb, harms⟩
  | addFunction g n => exact aligned_iff.2 ⟨hs, Table.aligned_add hf g n, hb, harms⟩
  | addBranch b n => exact aligned_iff.2 ⟨hs, hf, Table.aligned_add hb b n, armsCounted_add harms he⟩
  | eraseBranch id => exact stable_aligned.eraseBranches f [id] h
  | eraseFunction id => exact stable_aligned.eraseFunctions f [id] h
  | erasePhantomBranches => exact stable_aligned.eraseBranches f _ h
  | reconcileStatements => exact stable_aligned.reconcileStatements h
  | eraseDuplicateFunctions => exact stable_aligned.eraseFunctions f _ h
  | eraseMarkupCallbacks t => exact stable_aligned.eraseFunctions f _ h
  | eraseSpuriousBranches t => exact stable_aligned.eraseBranches f _ h
  | backfill t =>
    rcases backfill_cases f t with he | ⟨marks, he⟩
    · rwa [he]
    · rw [he]
      exact stable_aligned.fill f t marks h

theorem aligned_run {l : List Edit} (h : f.Aligned) (hl : ∀ e ∈ l, e.Fits) : (run f l).Aligned := by
  rw [run]
  induction l generalizing f with
  | nil => exact h
  | cons e l ih =>
    exact ih (aligned_apply h (hl e List.mem_cons_self)) fun e he => hl e (List.mem_cons_of_mem _ he)

end Edit

/-- Adding to a file whose ids leave room: the new record has an id that was not in use, and all else is
as it was. -/
structure FileCoverage.AddsFresh [Syntax.Parser] (f : FileCoverage) : Prop where
  statement : f.statements.Roomy → ∀ s h, ∃ t, Edit.apply f (.addStatement s h) = { f with statements := t } ∧
    f.statements.Added t f.statements.nextId s h
  function : f.functions.Roomy → ∀ g h, ∃ t, Edit.apply f (.addFunction g h) = { f with functions := t } ∧
    f.functions.Added t f.functions.nextId g h
  branch : f.branches.Roomy → ∀ b h, ∃ t, Edit.apply f (.addBranch b h) = { f with branches := t } ∧
    f.branches.Added t f.branches.nextId b h

theorem FileCoverage.Aligned.addsFresh [Syntax.Parser] {f : FileCoverage} (h : f.Aligned) : f.AddsFresh where
  statement hroom s n := ⟨_, rfl, Table.added_add h.statements hroom s n⟩
  function hroom g n := ⟨_, rfl, Table.added_add h.functions hroom g n⟩
  branch hroom b n := ⟨_, rfl, Table.added_add h.branches hroom b n⟩

/-- What can be done to a map of files. -/
inductive Operation where
  | edit (path : String) (e : Edit)
  | fixups (sources : Sources) (backfill : Bool)
  | normalize
  | filter (included excluded : List String)
  /-- Merged with other maps, some of them before it and some after it. -/
  | merge (before after : List CoverageMap) (s : Strategy)
  | ontoBase (base : CoverageMap)

namespace Operation
open FileCoverage

section Apply
variable [Syntax.Parser] {m : CoverageMap} {o : Operation} {path : String} {f : FileCoverage}

def apply (m : CoverageMap) : Operation → CoverageMap
  | edit path e => m.modify path fun f => e.apply f
  | fixups sources backfill => (Fixups.apply m sources backfill).1
  | normalize => Keys.normalizeMap m
  | filter included excluded => Selection.filter m included excluded
  | merge before after s => Merge.maps (before ++ m :: after) s
  | ontoBase base => Base.merge base m

/-- All other maps that take part are aligned. -/
def Fits : Operation → Prop
  | edit _ e => e.Fits
  | merge before after _ => ∀ m ∈ before ++ after, m.Every FileCoverage.Aligned
  | ontoBase base => base.Every FileCoverage.Aligned
  | _ => True

def run (m : CoverageMap) (l : List Operation) : CoverageMap := l.foldl apply m

theorem aligned_apply (h : m.Every Aligned) (ho : o.Fits) : (apply m o).Every Aligned := by
  cases o with
  | edit path e =>
    intro path' f hf
    rw [apply, SortedMap.get?_modify] at hf
    split at hf
    · obtain ⟨g, hg, rfl⟩ := Option.map_eq_some_iff.1 hf
      exact Edit.aligned_apply (h path' g hg) ho
    · exact h path' f hf
  | fixups sources backfill => exact stable_aligned.apply h
  | normalize => exact stable_aligned.normalizeMap h
  | filter included excluded => exact h.filter included excluded
  | merge before after s =>
    refine stable_aligned.maps fun m' hm' => ?_
    rcases List.mem_append.1 hm' with hm' | hm'
    · exact ho m' (List.mem_append_left _ hm')
    · rcases List.mem_cons.1 hm' with rfl | hm'
      · exact h
      · exact ho m' (List.mem_append_right _ hm')
  | ontoBase base => exact stable_aligned.merge ho h

theorem aligned_run {l : List Operation} (h : m.Every Aligned) (hl : ∀ o ∈ l, o.Fits) :
    (run m l).Every Aligned := by
  rw [run]
  induction l generalizing m with
  | nil => exact h
  | cons o l ih =>
    exact ih (aligned_apply h (hl o List.mem_cons_self)) fun o ho => hl o (List.mem_cons_of_mem _ ho)

/-- Whatever is done to an empty file, or to a map of aligned files, every file that comes out is aligned
and therefore valid, and adds the next record under an id of its own. -/
theorem aligned_of_operations :
    (∀ path l, (∀ e ∈ l, Edit.Fits e) →
      (Edit.run (.empty path) l).Aligned ∧ (Edit.run (.empty path) l).Valid ∧
      (Edit.run (.empty path) l).AddsFresh) ∧
    ∀ m l, CoverageMap.Every Aligned m → (∀ o ∈ l, Fits o) →
      ∀ path f, (run m l).get? path = some f → f.Aligned ∧ f.Valid ∧ f.AddsFresh := by
  constructor
  · intro path l hl
    have h := Edit.aligned_run (FileCoverage.aligned_empty path) hl
    exact ⟨h, h.valid, h.addsFresh⟩
  · intro m l hm hl path f hf
    have h := aligned_run hm hl path f hf
    exact ⟨h, h.valid, h.addsFresh⟩

end Apply

/-- A branch is added to a file, and the map is merged with what it was before. -/
def sampleOperations : List Operation :=
  [.edit "/a.ts" (.addBranch ⟨.ofNumbers 3 0 3 18, .ifElse, [.ofNumbers 3 0 3 9, .ofNumbers 3 9 3 18], 3⟩
    [1, 0]),
    .merge [] [Base.single Base.counted] .add, .normalize]

theorem aligned_of_operations_sample :
    CoverageMap.Every Aligned (Base.single Base.counted) ∧ (∀ o ∈ sampleOperations, Fits o) ∧
    ∃ f, (run (Base.single Base.counted) sampleOperations).get? "/a.ts" = some f ∧
      f.Aligned ∧ f.Valid ∧ f.AddsFresh := by
  have hcounted : Base.counted.Aligned :=
    aligned_iff.2 ⟨rfl, rfl, rfl, fun id b hb => (Option.some_ne_none b hb.symm).elim⟩
  have hsingle : CoverageMap.Every Aligned (Base.single Base.counted) := by
    intro path f hf
    obtain ⟨rfl, rfl⟩ := Prod.mk.inj (List.mem_singleton.1 (SortedMap.get?_eq_some_iff.1 hf))
    exact hcounted
  have hfits : ∀ o ∈ sampleOperations, Fits o := by
    simp [sampleOperations, Fits, Edit.Fits, hsingle]
  have hsome : ((run (Base.single Base.counted) sampleOperations).get? "/a.ts").isSome := by decide
  obtain ⟨f, hf⟩ := Option.isSome_iff_exists.1 hsome
  exact ⟨hsingle, hfits, f, hf, aligned_of_operations.2 _ _ hsingle hfits _ f hf⟩

end Operation
end Coverage

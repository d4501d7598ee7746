import Coverage.Proofs.Fixups.Separate

/-! A second run. Every pass is stable under those behind it, so a file that came through has nothing left
to erase or to reconcile, and a file that failed fails again. -/
namespace Coverage.Fixups

open Passes

variable {f : FileCoverage} {source : Option String} {s : String} {ids : List Id}

/-- Nothing that a pass is about is left in the file. -/
structure Clean (source : Option String) (f : FileCoverage) : Prop where
  phantom : phantomBranches f = []
  reconciled : ∀ id, reconciledHits? f id = none
  declaredOnce : DeclaredOnce f
  markup : ∀ s, source = some s → markupCallbacks f s.toList = []
  spurious : ∀ s, source = some s → spuriousBranches f s.toList = []

theorem clean_structural : Clean none (structural f).1 where
  phantom := Table.idsWhere_eraseAll_self
  reconciled _ := reconciledHits?_eraseFunctions reconciledHits?_reconcileStatements
  declaredOnce := declaredOnce_eraseDuplicateFunctions
  markup _ h := nomatch h
  spurious _ h := nomatch h

/-- The passes that read the text erase functions and branches only. -/
theorem clean_textual {x : Fixed} (h : Clean none x.1) : Clean (some s) (textual s.toList x).1 where
  phantom := Table.idsWhere_eraseAll_eq_nil h.phantom
  reconciled id := by
    change reconciledHits? ((eraseMarkupCallbacks x.1 s.toList).eraseBranches _) id = none
    rw [reconciledHits?_eraseBranches]
    exact reconciledHits?_eraseFunctions (h.reconciled id)
  declaredOnce := h.declaredOnce.eraseFunctions
  markup t ht := by
    cases ht
    exact Table.idsWhere_eraseAll_self
  spurious t ht := by
    cases ht
    exact Table.idsWhere_eraseAll_self

theorem clean_cleaned : Clean source (cleaned source f).1 := by
  cases source with
  | none => exact clean_structural
  | some s => exact clean_textual clean_structural

theorem structural_of_clean (h : Clean source f) : structural f = (f, {}) := by
  have hphantom : erasePhantomBranches f = f := by
    rw [erasePhantomBranches, h.phantom, FileCoverage.eraseBranches_nil]
  have hduplicates := duplicateFunctions_of_declaredOnce h.declaredOnce
  simp only [structural, hphantom, h.phantom, reconcileStatements_eq_self h.reconciled,
    unreconciledStatements_eq_nil h.reconciled, hduplicates, eraseDuplicateFunctions,
    FileCoverage.eraseFunctions_nil, List.length_nil]

theorem textual_of_clean (h : Clean (some s) f) : textual s.toList (f, {}) = (f, {}) := by
  simp [textual, eraseMarkupCallbacks, eraseSpuriousBranches, h.markup s rfl, h.spurious s rfl,
    FixupReport.add]

theorem cleaned_of_clean (h : Clean source f) : cleaned source f = (f, {}) := by
  cases source with
  | none => exact structural_of_clean h
  | some s => rw [cleaned, structural_of_clean h, textual_of_clean h]

theorem fileOrSame_again [Syntax.Parser] (source : Option String) (f : FileCoverage) :
    fileOrSame false source (fileOrSame false source f).1 =
      ((fileOrSame false source f).1, { failedFiles := (fileOrSame false source f).2.failedFiles }) := by
  rw [fileOrSame_without_backfill source f]
  split
  · next hv =>
    have hagain : cleaned source (cleaned source f).1 = ((cleaned source f).1, {}) :=
      cleaned_of_clean clean_cleaned
    rw [fileOrSame_without_backfill, hagain, if_pos hv, failedFiles_cleaned]
  · next hv => rw [fileOrSame_without_backfill, if_neg hv]

/-- What is left of a report if all but the failed files is forgotten. -/
def failures (r : FixupReport) : FixupReport := { failedFiles := r.failedFiles }

theorem sum_failures (l : List FixupReport) :
    FixupReport.sum (l.map failures) = failures (FixupReport.sum l) := by
  induction l with
  | nil => rfl
  | cons r l ih =>
    rw [List.map_cons, FixupReport.sum_cons, FixupReport.sum_cons, ih]
    rfl

/-- Run again without backfill, the passes change no file and report nothing but the failures of the
first run. -/
theorem again_of_fixups [Syntax.Parser] (m : CoverageMap) (sources : Sources) :
    apply (apply m sources false).1 sources false =
      ((apply m sources false).1, { failedFiles := (apply m sources false).2.failedFiles }) := by
  refine Prod.ext (SortedMap.ext_get? fun path => ?_) ?_
  · rw [get?_apply, get?_apply, Option.map_map]
    refine congrArg (Option.map · (m.get? path)) (funext fun f => ?_)
    have hagain := congrArg Prod.fst (fileOrSame_again (sources path) f)
    exact hagain
  · have hentries : (apply m sources false).1.entries =
        m.entries.map fun e => (e.1, (fileOrSame false (sources e.1) e.2).1) := by
      simp [apply, fixedFiles]
    rw [report_apply, report_apply, ← failures, ← sum_failures, hentries, List.map_map, List.map_map]
    refine congrArg (fun g => FixupReport.sum (m.entries.map g)) (funext fun e => ?_)
    have hagain := congrArg Prod.snd (fileOrSame_again (sources e.1) e.2)
    exact hagain

end Coverage.Fixups

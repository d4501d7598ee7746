import Coverage.Proofs.Fixups.Files
import Coverage.Syntax.Program
import Mathlib.Data.List.Nodup
import Mathlib.Data.List.Perm.Basic

/-! Files do not influence each other. A map comes out of the passes as its files would one by one, and
its report is the sum of theirs. -/
namespace Coverage

namespace SortedMap
variable {κ α : Type} [Ord κ] [Std.TransOrd κ] {m n : SortedMap κ α} {k : κ} {x : α}

def single (k : κ) (x : α) : SortedMap κ α := ofList [(k, x)]

/-- The entries of both maps; of two with one key that of the second. -/
def union (m n : SortedMap κ α) : SortedMap κ α := n.entries.foldl (fun m e => m.insert e.1 e.2) m

omit [Std.TransOrd κ] in
/-- No key has an entry in both maps. -/
def Disjoint (m n : SortedMap κ α) : Prop := ∀ k, m.get? k = none ∨ n.get? k = none

variable [Std.LawfulEqOrd κ] [DecidableEq κ]

omit [Std.TransOrd κ] [DecidableEq κ] in
theorem disjoint_iff : m.Disjoint n ↔ ∀ k ∈ m.keys, n.get? k = none := by
  refine forall_congr' fun k => ?_
  rw [or_iff_not_imp_left, ← get?_eq_none_iff.not_left]

instance [DecidableEq α] : Decidable (m.Disjoint n) := decidable_of_iff' _ disjoint_iff

theorem get?_union : (m.union n).get? k = (n.get? k).or (m.get? k) := get?_foldl_insert_entries n m

theorem get?_single : (single k x).get? k = some x := by
  simp [single, get?_ofList, lookup]

/-- Maps without a common key have together the entries of both. -/
theorem entries_union (h : m.Disjoint n) : (m.union n).entries.Perm (m.entries ++ n.entries) := by
  have hmem (e : κ × α) : e ∈ (m.union n).entries ↔ e ∈ m.entries ∨ e ∈ n.entries := by
    rw [← get?_eq_some_iff, ← get?_eq_some_iff, ← get?_eq_some_iff, get?_union]
    rcases h e.1 with hm | hn
    · simp [hm]
    · simp [hn]
  have hnodup : (m.entries ++ n.entries).Nodup := by
    refine List.nodup_append'.2 ⟨m.nodup_entries, n.nodup_entries, fun e hm hn => ?_⟩
    rw [← get?_eq_some_iff] at hm hn
    rcases h e.1 with h | h <;> simp_all
  refine (List.perm_ext_iff_of_nodup (m.union n).nodup_entries hnodup).2 fun e => ?_
  rw [hmem, List.mem_append]

end SortedMap

namespace FixupReport
variable {a b c : FixupReport} {l l' : List FixupReport}

theorem add_comm : a.add b = b.add a := by
  simp [add, Nat.add_comm]

theorem add_assoc : (a.add b).add c = a.add (b.add c) := by
  simp [add, Nat.add_assoc]

theorem zero_add : ({} : FixupReport).add a = a := by
  simp [add]

instance : Std.Associative add := ⟨fun _ _ _ => add_assoc⟩
instance : RightCommutative add := ⟨fun a b c => by rw [add_assoc, add_comm (a := b), add_assoc]⟩

/-- What is reported of several files. -/
def sum (l : List FixupReport) : FixupReport := l.foldl add {}

theorem foldl_add (l : List FixupReport) (a : FixupReport) : l.foldl add a = a.add (sum l) := by
  have hassoc : l.foldl add (a.add {}) = a.add (l.foldl add {}) := List.foldl_assoc
  rwa [add_comm, zero_add] at hassoc

theorem sum_cons : sum (a :: l) = a.add (sum l) := by
  rw [sum, List.foldl_cons, zero_add, foldl_add]

theorem sum_append : sum (l ++ l') = (sum l).add (sum l') := by
  rw [sum, List.foldl_append, foldl_add]
  rfl

theorem sum_perm (h : l.Perm l') : sum l = sum l' := by
  rw [sum, sum]
  exact h.foldl_eq _

end FixupReport

namespace Fixups

section Apply
variable [Syntax.Parser] {m n : CoverageMap} {sources : Sources} {backfill : Bool} {path : String} {f : FileCoverage}

theorem get?_apply : (apply m sources backfill).1.get? path =
    (m.get? path).map fun f => (fileOrSame backfill (sources path) f).1 := by
  rw [apply, SortedMap.get?_mapWithKey, fixedFiles, SortedMap.get?_mapWithKey, Option.map_map]
  rfl

theorem report_apply : (apply m sources backfill).2 =
    .sum (m.entries.map fun e => (fileOrSame backfill (sources e.1) e.2).2) := by
  simp [apply, fixedFiles, SortedMap.values, FixupReport.sum, Function.comp_def]

theorem apply_single : apply (.single path f) sources backfill =
    (.single path (fileOrSame backfill (sources path) f).1,
      (fileOrSame backfill (sources path) f).2) := by
  refine Prod.ext (SortedMap.ext_entries rfl) ?_
  rw [report_apply]
  exact FixupReport.zero_add

theorem apply_union (h : m.Disjoint n) : apply (m.union n) sources backfill =
    ((apply m sources backfill).1.union (apply n sources backfill).1,
      (apply m sources backfill).2.add (apply n sources backfill).2) := by
  refine Prod.ext (SortedMap.ext_get? fun path => ?_) ?_
  · rw [get?_apply, SortedMap.get?_union, SortedMap.get?_union, get?_apply, get?_apply]
    cases n.get? path <;> rfl
  · rw [report_apply, FixupReport.sum_perm ((SortedMap.entries_union h).map _), List.map_append,
      FixupReport.sum_append, ← report_apply, ← report_apply]

theorem report_apply_single : (apply m sources backfill).2 =
    .sum (m.entries.map fun e => (apply (.single e.1 e.2) sources backfill).2) := by
  rw [report_apply]
  simp only [apply_single]

/-- What becomes of a file `f` and what is reported of it. -/
structure Settled (sources : Sources) (backfill : Bool) (path : String) (f g : FileCoverage)
    (r : FixupReport) : Prop where
  /-- The file is valid, or it is as it was and is reported as failed and as nothing else. -/
  outcome : (g.Valid ∧ r.failedFiles = 0) ∨ (g = f ∧ r = { failedFiles := 1 })
  /-- What was valid fails only for want of a text that can be parsed, when structure is to be rebuilt
  and still missing after the other passes. -/
  failed : f.Valid → (r.failedFiles = 1 ↔ backfill = true ∧ ∃ s h, sources path = some s ∧
    (apply (.single path f) sources false).1.get? path = some h ∧ Backfill.isNeeded h = true ∧
    Syntax.Parser.outline? (.ofPath f.path) s.toList = none)

theorem settled_fileOrSame : Settled sources backfill path f
    (fileOrSame backfill (sources path) f).1 (fileOrSame backfill (sources path) f).2 where
  outcome := by
    rcases fileOrSame_cases backfill (sources path) f with ⟨x, _, hv, h0, he⟩ | ⟨_, he⟩
    · rw [he]
      exact .inl ⟨hv, h0⟩
    · rw [he]
      exact .inr ⟨rfl, rfl⟩
  failed hf := by
    have hcleaned : fileOrSame false (sources path) f = cleaned (sources path) f := by
      rw [fileOrSame_without_backfill, if_pos (valid_cleaned hf)]
    rw [failed_iff_of_valid hf, apply_single, SortedMap.get?_single, hcleaned]
    simp

/-- Each file is settled by its own record and text alone, the report is the sum of what is reported of
the files one by one, and maps without a common path may be brought through the passes apart. -/
theorem separate_of_fixups (m : CoverageMap) (sources : Sources) (backfill : Bool) :
    (∀ path, m.get? path = none → (apply m sources backfill).1.get? path = none) ∧
    (∀ path f, m.get? path = some f → ∃ g r, (apply m sources backfill).1.get? path = some g ∧
      apply (.single path f) sources backfill = (.single path g, r) ∧
      Settled sources backfill path f g r) ∧
    (apply m sources backfill).2 =
      .sum (m.entries.map fun e => (apply (.single e.1 e.2) sources backfill).2) ∧
    (∀ path f sources', sources' path = sources path →
      apply (.single path f) sources' backfill = apply (.single path f) sources backfill) ∧
    ∀ n, m.Disjoint n → apply (m.union n) sources backfill =
      ((apply m sources backfill).1.union (apply n sources backfill).1,
        (apply m sources backfill).2.add (apply n sources backfill).2) := by
  refine ⟨fun path h => ?_, fun path f h => ?_, report_apply_single, fun path f sources' h => ?_,
    fun n h => apply_union h⟩
  · rw [get?_apply, h]
    rfl
  · exact ⟨_, _, by rw [get?_apply, h]; rfl, apply_single, settled_fileOrSame⟩
  · rw [apply_single, apply_single, h]

end Apply

/-- Only the hits of a function are known, and a branch that a wrapper left. -/
def hitsOnly (path : String) : FileCoverage where
  path := path
  statements := ∅
  functions :=
    ⟨.ofList [(0, ⟨"load", .ofNumbers 1 9 1 13, .ofNumbers 1 0 1 16, 1⟩)], .ofList [(0, 1)]⟩
  branches :=
    ⟨.ofList [(0, ⟨.ofNumbers 1 0 1 0, .ifElse, [.ofNumbers 1 0 1 0], 1⟩)], .ofList [(0, [0])]⟩

/-- The first text has a syntax error. -/
def halfWritten : Sources := fun path => some (if path = "/a.js" then "function load( \x7b" else "a && b;")

/-- The first file fails for its text and keeps its branch, and the second gets a statement and a branch. -/
theorem separate_of_fixups_sample :
    (hitsOnly "/a.js").Valid ∧
    SortedMap.Disjoint (.single "/a.js" (hitsOnly "/a.js")) (.single "/b.js" (hitsOnly "/b.js")) ∧
    apply (.union (.single "/a.js" (hitsOnly "/a.js")) (.single "/b.js" (hitsOnly "/b.js")))
      halfWritten true =
      ((apply (.single "/a.js" (hitsOnly "/a.js")) halfWritten true).1.union
        (apply (.single "/b.js" (hitsOnly "/b.js")) halfWritten true).1,
        (apply (.single "/a.js" (hitsOnly "/a.js")) halfWritten true).2.add
          (apply (.single "/b.js" (hitsOnly "/b.js")) halfWritten true).2) ∧
    apply (.single "/a.js" (hitsOnly "/a.js")) halfWritten true =
      (.single "/a.js" (hitsOnly "/a.js"), { failedFiles := 1 }) ∧
    (apply (.single "/b.js" (hitsOnly "/b.js")) halfWritten true).2 =
      { phantomBranches := 1, backfilledRecords := 2 } := by
  have hdisjoint : SortedMap.Disjoint (.single "/a.js" (hitsOnly "/a.js"))
      (.single "/b.js" (hitsOnly "/b.js")) := by decide
  obtain ⟨-, -, -, -, hunion⟩ := separate_of_fixups (.single "/a.js" (hitsOnly "/a.js")) halfWritten true
  exact ⟨by decide, hdisjoint, hunion _ hdisjoint, by decide +kernel, by decide +kernel⟩

end Fixups
end Coverage

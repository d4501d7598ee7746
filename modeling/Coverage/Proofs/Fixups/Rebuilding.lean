import Coverage.Proofs.Fixups.Innermost
import Coverage.Proofs.Invariants.Alignment
import Coverage.Syntax.Program

/-!
What is rebuilt from a source text. Records are numbered from zero in the order of the marks, a statement
has the count of its function, a branch has none, and nothing else of the file changes.
-/
namespace Coverage

namespace Table
variable {ρ η : Type} {t : Table ρ η} {l : List (ρ × η)} {n : Nat}

/-- The ids in use are the first so many. -/
def Numbered (t : Table ρ η) (n : Nat) : Prop := ∀ id, id ∈ t.ids ↔ id.toNat < n

theorem Numbered.toNat_nextId (h : t.Numbered n) (hn : n < UInt32.size) : t.nextId.toNat = n := by
  rw [nextId]
  cases hlast : t.records.lastKey? with
  | none =>
    have hnil : t.records.entries = [] := by simpa [SortedMap.lastKey?] using hlast
    have hzero := h 0
    simp [Table.ids, SortedMap.keys, hnil] at hzero
    simp [hzero]
  | some k =>
    have hk : k.toNat < n := (h k).1 (mem_of_lastKey hlast)
    have htop : (UInt32.ofNat (n - 1)).toNat = n - 1 := UInt32.toNat_ofNat_of_lt' (by omega)
    have hle := le_lastKey hlast (UInt32.ofNat (n - 1)) ((h _).2 (by omega))
    rw [UInt32.le_iff_toNat_le, htop] at hle
    have hone : (1 : UInt32).toNat = 1 := rfl
    have hsize : UInt32.size = 4294967296 := rfl
    rw [Option.map_some, Option.getD_some, UInt32.toNat_add, hone]
    omega

theorem Numbered.size (h : t.Numbered n) (hn : n ≤ UInt32.size) : t.size = n := by
  have hids : (t.ids.map (·.toNat)).Perm (List.range n) := by
    refine (List.perm_ext_iff_of_nodup ?_ List.nodup_range).2 fun k => ?_
    · exact t.nodup_ids.map fun _ _ => UInt32.toNat_inj.1
    · rw [List.mem_map, List.mem_range]
      constructor
      · rintro ⟨id, hid, rfl⟩
        exact (h id).1 hid
      · intro hk
        have htoNat : (UInt32.ofNat k).toNat = k := UInt32.toNat_ofNat_of_lt' (by omega)
        exact ⟨UInt32.ofNat k, (h _).2 (by omega), htoNat⟩
  simpa [Table.size, Table.ids, SortedMap.size, SortedMap.keys] using hids.length_eq

theorem numbered_of_get? (h : ∀ id, t.records.get? id = l[id.toNat]?.map (·.1)) :
    t.Numbered l.length := by
  intro id
  rw [ids, SortedMap.mem_keys_iff, h]
  simp

/-- Records added to a table without any have the ids from zero on, with their counts. -/
theorem get?_addAll (ht : t.records.isEmpty = true) (hl : l.length ≤ UInt32.size) (id : Id) :
    (t.addAll l).records.get? id = l[id.toNat]?.map (·.1) ∧
      (t.addAll l).hits.get? id = (l[id.toNat]?.map (·.2)).or (t.hits.get? id) := by
  induction l using List.reverseRecOn generalizing id with
  | nil =>
    have hempty : t.records.entries = [] := List.isEmpty_iff.1 ht
    simp [addAll, SortedMap.get?, SortedMap.lookup, hempty]
  | append_singleton l e ih =>
    rw [List.length_append, List.length_singleton] at hl
    have ih := ih (by omega)
    -- the ids so far are those below the length, so the next one is the position of `e`
    have hnext : (t.addAll l).nextId.toNat = l.length :=
      (numbered_of_get? fun id => (ih id).1).toNat_nextId (by omega)
    have hid : (t.addAll l).nextId = id ↔ l.length = id.toNat := by
      rw [← UInt32.toNat_inj, hnext]
    have hadd : t.addAll (l ++ [e]) = (t.addAll l).add e.1 e.2 := by
      rw [addAll, List.foldl_append]
      rfl
    rw [hadd, add, SortedMap.get?_insert, SortedMap.get?_insert, (ih id).1, (ih id).2]
    simp only [hid]
    by_cases he : l.length = id.toNat
    · rw [if_pos he, if_pos he, ← he]
      simp
    · rw [if_neg he, if_neg he]
      rcases Nat.lt_or_gt_of_ne he with hgt | hlt
      · rw [List.getElem?_eq_none (by omega), List.getElem?_eq_none (by simp; omega)]
        exact ⟨rfl, rfl⟩
      · rw [List.getElem?_append_left hlt]
        exact ⟨rfl, rfl⟩

/-- The records of a table are those of a list, by their positions, each with the count given to it. -/
structure Listed (t : Table ρ η) (l : List ρ) (count : ρ → η) : Prop where
  records : ∀ id, t.records.get? id = l[id.toNat]?
  hits : ∀ id r, t.records.get? id = some r → t.hits.get? id = some (count r)
  size : t.size = l.length

theorem listed_addAll (ht : t.records.isEmpty = true) {rs : List ρ} (hrs : rs.length ≤ UInt32.size)
    (count : ρ → η) : (t.addAll (rs.map fun r => (r, count r))).Listed rs count := by
  have hl : (rs.map fun r => (r, count r)).length ≤ UInt32.size := by rwa [List.length_map]
  have hget := get?_addAll ht hl
  have hrecords : ∀ id, (t.addAll (rs.map fun r => (r, count r))).records.get? id = rs[id.toNat]? := by
    intro id
    rw [(hget id).1]
    simp [Function.comp_def]
  refine ⟨hrecords, fun id r hr => ?_, ?_⟩
  · rw [hrecords] at hr
    rw [(hget id).2]
    simp [hr]
  · rw [(numbered_of_get? fun id => (hget id).1).size hl, List.length_map]

end Table

namespace Backfill
open Syntax

variable {f : FileCoverage} {t : Text} {marks : List Mark} {l : Location}

/-- The count that a statement at a location is given. It is that of the smallest body around it, unless
a body of a higher id starts there too. -/
structure Estimate (f : FileCoverage) (l : Location) (c : Hits) : Prop where
  outside : (∀ i r, ¬ Around f l i r) → c = 1
  inside : ∀ i r, Innermost f l i r →
    (∀ j s, Around f l j s → s.body.start = r.body.start → j ≤ i) → c = f.functions.count i
  shared : ∀ i r, Innermost f l i r →
    ∃ j s, Latest f l j s ∧ s.body.start = r.body.start ∧ i ≤ j ∧ c = f.functions.count j

theorem estimate_statementHits (hf : f.functions.Counted) (hhits : f.hasHits = true) (l : Location) :
    Estimate f l (statementHits f l) := by
  by_cases hnone : ∀ i r, ¬ Around f l i r
  · rw [statementHits, enclosingHits?_of_none hnone, hhits]
    exact ⟨fun _ => rfl, fun i r hr => absurd hr.around (hnone i r),
      fun i r hr => absurd hr.around (hnone i r)⟩
  · simp only [not_forall, not_not] at hnone
    obtain ⟨i, r, hr⟩ := hnone
    obtain ⟨j, s, hlatest, hcount⟩ := exists_latest hf hr
    rw [statementHits, hcount, Option.getD_some]
    refine ⟨fun h => absurd hr (h i r), fun i r hr halone => ?_, fun i r hr => ?_⟩
    · obtain ⟨hstart, hle⟩ := hr.start_eq hlatest
      rw [UInt32.le_antisymm hle (halone j s hlatest.around hstart)]
    · obtain ⟨hstart, hle⟩ := hr.start_eq hlatest
      exact ⟨j, s, hlatest, hstart, hle, rfl⟩

/-- The spans of the statements among the marks. -/
def spans (t : Text) (marks : List Mark) : List Span := marks.filterMap (statementSpan? t.lineStarts)

def sites (t : Text) (marks : List Mark) : List BranchSite := marks.filterMap (branch? t t.lineStarts)

/-- The file `g` is `f` with the structure that the marks of a text tell of, `n` records more. -/
structure Rebuilt (f : FileCoverage) (t : Text) (marks : List Mark) (g : FileCoverage) (n : Nat) :
    Prop where
  statements : ∀ id, g.statements.records.get? id = (spans t marks)[id.toNat]?
  counts : ∀ id s, g.statements.records.get? id = some s →
    ∃ c, g.statements.hits.get? id = some c ∧ Estimate f s.start c
  branches : f.branches.records.isEmpty = true →
    ∀ id, g.branches.records.get? id = (sites t marks)[id.toNat]?
  zeros : f.branches.records.isEmpty = true → ∀ id b, g.branches.records.get? id = some b →
    g.branches.hits.get? id = some (List.replicate b.arms.length 0)
  kept : f.branches.records.isEmpty = false → g.branches = f.branches
  functions : g.functions = f.functions
  path : g.path = f.path
  added : g.size = f.size + n

theorem listed_statements (hf : f.statements.records.isEmpty = true)
    (hids : (fill f t marks).2 ≤ UInt32.size) : (fill f t marks).1.statements.Listed (spans t marks)
      fun s => statementHits f s.start :=
  Table.listed_addAll hf (Nat.le_trans (Nat.le_add_right _ _) hids) _

theorem listed_branches (hf : f.branches.records.isEmpty = true)
    (hids : (fill f t marks).2 ≤ UInt32.size) : (fill f t marks).1.branches.Listed (sites t marks)
      fun b => b.arms.map fun _ => 0 := by
  rw [fill, if_pos hf] at hids ⊢
  exact Table.listed_addAll hf (Nat.le_trans (Nat.le_add_left _ _) hids) _

/-- Branches that a file has are left alone. -/
theorem branches_fill_of_some (hf : f.branches.records.isEmpty = false) :
    (fill f t marks).1.branches = f.branches := by
  simp [fill, hf, Table.addAll]

theorem size_fill (hf : f.statements.records.isEmpty = true)
    (hids : (fill f t marks).2 ≤ UInt32.size) : (fill f t marks).1.size = f.size + (fill f t marks).2 := by
  have hnone : f.statements.size = 0 := List.length_eq_zero_iff.2 (List.isEmpty_iff.1 hf)
  have hstatements := (listed_statements hf hids).size
  have hfunctions : (fill f t marks).1.functions.size = f.functions.size := rfl
  rw [FileCoverage.size, FileCoverage.size, hstatements, hfunctions, hnone]
  cases hb : f.branches.records.isEmpty with
  | true =>
    have hempty : f.branches.size = 0 := List.length_eq_zero_iff.2 (List.isEmpty_iff.1 hb)
    have hadded : (fill f t marks).2 = (spans t marks).length + (sites t marks).length := by
      rw [fill, if_pos hb]
      rfl
    rw [(listed_branches hb hids).size, hempty, hadded]
    omega
  | false =>
    have hadded : (fill f t marks).2 = (spans t marks).length := by
      rw [fill, if_neg (by simp [hb])]
      rfl
    rw [branches_fill_of_some hb, hadded]
    omega

theorem rebuilt_fill (hf : f.functions.Counted) (hneeded : isNeeded f = true)
    (hids : (fill f t marks).2 ≤ UInt32.size) :
    Rebuilt f t marks (fill f t marks).1 (fill f t marks).2 := by
  obtain ⟨hempty, hhits⟩ := Bool.and_eq_true_iff.1 hneeded
  have hstatements := listed_statements hempty hids
  exact {
    statements := hstatements.records
    counts := fun id s hs => ⟨_, hstatements.hits id s hs, estimate_statementHits hf hhits _⟩
    branches := fun hb => (listed_branches hb hids).records
    zeros := fun hb id b hget => by
      rw [(listed_branches hb hids).hits id b hget, List.map_const']
    kept := branches_fill_of_some
    functions := rfl
    path := rfl
    added := size_fill hempty hids }

theorem apply_of_outline [Parser] (f : FileCoverage) (s : String) :
    (∀ o, Parser.outline? (.ofPath f.path) s.toList = some o → apply f s.toList = .ok (fill f s.toList o.marks)) ∧
    (Parser.outline? (.ofPath f.path) s.toList = none → apply f s.toList = .error .syntaxError) := by
  rw [apply]
  cases Parser.outline? (.ofPath f.path) s.toList <;> simp

open Fixups in
/-- A file whose structure cannot be rebuilt comes out as it went in. -/
theorem fileOrSame_of_no_outline [Parser] {g : FileCoverage} {s : String} (hneeded : isNeeded f = true)
    (hcleaned : (cleaned (some s) g).1 = f) (hnone : Parser.outline? (.ofPath f.path) s.toList = none) :
    fileOrSame true (some s) g = (g, { failedFiles := 1 }) := by
  have hfails : ∃ e, rebuilt true (some s) (cleaned (some s) g) = .error e :=
    rebuilt_eq_error_iff.2 ⟨rfl, s, rfl, by rwa [hcleaned], by rwa [hcleaned]⟩
  obtain ⟨e, he⟩ := hfails
  rcases fileOrSame_cases true (some s) g with ⟨x, hx, -⟩ | ⟨-, hsame⟩
  · simp [he] at hx
  · exact hsame

/-- A file that ran but has no statements gets one for each mark of a statement, with the count of the
smallest body around its start or, where a body of a higher id starts there too, of that one. Branches are
added, without hits, if there were none. Without a parse the file stays as it was. -/
theorem rebuilt_of_backfill [Parser] (hvalid : f.Valid) (hneeded : isNeeded f = true) (hnesting : f.Nesting) :
    (∀ l i r, Around f l i r → ∃! j, ∃ s, Innermost f l j s) ∧
    (∀ t marks, (fill f t marks).2 ≤ UInt32.size →
      Rebuilt f t marks (fill f t marks).1 (fill f t marks).2) ∧
    ∀ s : String,
      (∀ o, Parser.outline? (.ofPath f.path) s.toList = some o →
        apply f s.toList = .ok (fill f s.toList o.marks)) ∧
      (Parser.outline? (.ofPath f.path) s.toList = none → apply f s.toList = .error .syntaxError ∧
        ∀ g, (Fixups.cleaned (some s) g).1 = f →
          Fixups.fileOrSame true (some s) g = (g, { failedFiles := 1 })) := by
  obtain ⟨-, hf, -⟩ := FileCoverage.valid_iff.1 hvalid
  refine ⟨fun l i r h => ?_, fun t marks hids => rebuilt_fill hf hneeded hids, fun s => ⟨?_, ?_⟩⟩
  · obtain ⟨j, s, hs⟩ := exists_innermost hnesting h
    exact ⟨j, ⟨s, hs⟩, fun k ⟨w, hw⟩ => hw.unique hnesting hs⟩
  · exact (apply_of_outline f s).1
  · intro hnone
    exact ⟨(apply_of_outline f s).2 hnone,
      fun g hg => fileOrSame_of_no_outline hneeded hg hnone⟩

section Samples
variable {first second : Span} {i : Id} {r : FunctionSite}

def sampleFunction (column : UInt32) (body : Span) : FunctionSite :=
  ⟨"load", .ofNumbers 1 column 1 9, body, 1⟩

/-- A file of which only two functions are known, the first with five hits and the second with seven. -/
def twoFunctions (first second : Span) : FileCoverage where
  path := "/a.js"
  statements := ∅
  functions := ⟨.ofList [(0, sampleFunction 0 first), (1, sampleFunction 1 second)], .ofList [(0, 5), (1, 7)]⟩
  branches := ∅

/-- One statement, on the second line. -/
def sampleText : Text := "\nf();\n\n\n".toList

theorem twoFunctions_cases (h : (twoFunctions first second).functions.records.get? i = some r) :
    (i = 0 ∧ r = sampleFunction 0 first) ∨ (i = 1 ∧ r = sampleFunction 1 second) := by
  have hmem := SortedMap.mem_of_mem_ofList (SortedMap.get?_eq_some_iff.1 h)
  simpa using hmem

theorem nesting_twoFunctions (hne : first ≠ second)
    (hsub : first.region ⊆ second.region ∨ second.region ⊆ first.region) :
    (twoFunctions first second).Nesting where
  distinct i j r s hr hs hbody := by
    rcases twoFunctions_cases hr with ⟨rfl, rfl⟩ | ⟨rfl, rfl⟩ <;>
      rcases twoFunctions_cases hs with ⟨rfl, rfl⟩ | ⟨rfl, rfl⟩
    · rfl
    · exact absurd hbody hne
    · exact absurd hbody.symm hne
    · rfl
  nested i j r s hr hs := by
    rcases twoFunctions_cases hr with ⟨rfl, rfl⟩ | ⟨rfl, rfl⟩ <;>
      rcases twoFunctions_cases hs with ⟨rfl, rfl⟩ | ⟨rfl, rfl⟩
    · exact .inl subset_rfl
    · exact hsub.imp_right .inl
    · exact hsub.symm.imp_right .inl
    · exact .inl subset_rfl

/-- A body inside the other supplies the count of the statement in it. -/
theorem rebuilt_of_backfill_sample :
    ∃ f, f = twoFunctions (.ofNumbers 1 0 5 0) (.ofNumbers 2 0 3 0) ∧ f.Valid ∧ isNeeded f = true ∧
      f.Nesting ∧ (∃! j, ∃ s, Innermost f ⟨2, 0⟩ j s) ∧
      ∃ g, apply f sampleText = .ok (g, 1) ∧ g.statements.hits.get? 0 = some 7 ∧
        Rebuilt f sampleText [.statement ⟨1, 5⟩] g 1 := by
  refine ⟨_, rfl, ?_⟩
  have hvalid : (twoFunctions (.ofNumbers 1 0 5 0) (.ofNumbers 2 0 3 0)).Valid := by decide
  have hneeded : isNeeded (twoFunctions (.ofNumbers 1 0 5 0) (.ofNumbers 2 0 3 0)) = true := by decide
  have hnesting : (twoFunctions (.ofNumbers 1 0 5 0) (.ofNumbers 2 0 3 0)).Nesting :=
    nesting_twoFunctions (by decide) (.inr (Span.region_subset (by decide) (by decide)))
  obtain ⟨hinnermost, hrebuilt, -⟩ := rebuilt_of_backfill hvalid hneeded hnesting
  refine ⟨hvalid, hneeded, hnesting, ?_, _, ?_, ?_, hrebuilt sampleText [.statement ⟨1, 5⟩] (by decide)⟩
  · exact hinnermost ⟨2, 0⟩ 1 (sampleFunction 1 (.ofNumbers 2 0 3 0))
      ⟨by decide, Span.mem_region.2 (by decide)⟩
  · decide +kernel
  · decide +kernel

/-- Of two bodies that start together the second, larger one supplies the count. -/
theorem count_of_larger_body :
    ∃ f r g n, f = twoFunctions (.ofNumbers 1 0 3 0) (.ofNumbers 1 0 5 0) ∧ f.Valid ∧
      isNeeded f = true ∧ f.Nesting ∧ Innermost f ⟨2, 0⟩ 0 r ∧ f.functions.count 0 = 5 ∧
      apply f sampleText = .ok (g, n) ∧ g.statements.records.get? 0 = some (.ofNumbers 2 0 2 4) ∧
      g.statements.hits.get? 0 = some 7 := by
  refine ⟨_, sampleFunction 0 (.ofNumbers 1 0 3 0), (fill (twoFunctions (.ofNumbers 1 0 3 0)
    (.ofNumbers 1 0 5 0)) sampleText [.statement ⟨1, 5⟩]).1, 1, rfl, ?_, ?_, ?_, ?_, ?_, ?_, ?_, ?_⟩
  · decide
  · decide
  · exact nesting_twoFunctions (by decide) (.inl (Span.region_subset (by decide) (by decide)))
  · refine ⟨⟨by decide, Span.mem_region.2 (by decide)⟩, fun j s hs => ?_⟩
    rcases twoFunctions_cases hs.recorded with ⟨-, rfl⟩ | ⟨-, rfl⟩
    · exact subset_rfl
    · exact Span.region_subset (by decide) (by decide)
  · decide
  · decide +kernel
  · decide +kernel
  · decide +kernel

end Samples

end Backfill
end Coverage

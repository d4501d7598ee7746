import Coverage.Proofs.Fixups.Files
import Coverage.Proofs.Fixups.Keepers
import Mathlib.Order.Preorder.Finite

/-!
The function a statement belongs to. Where bodies are nested or disjoint, those around a location are a
chain with a smallest one. A count is taken from a body that starts last, which the smallest one does;
of several that start with it the one with the highest id supplies the count.
-/
namespace Coverage

instance : Std.IsLinearOrder Location := .of_ord

namespace Span
variable {a b : Span} {l : Location}

/-- The locations a span holds. -/
def region (s : Span) : Set Location := {l | s.contains l = true}

theorem mem_region : l ∈ a.region ↔ a.start ≤ l ∧ l < a.stop := by
  simp [region, contains]

theorem region_subset (hstart : b.start ≤ a.start) (hstop : a.stop ≤ b.stop) : a.region ⊆ b.region := by
  intro l hl
  grind [mem_region]

/-- A span that lies in another and is not empty starts no earlier. -/
theorem start_le_of_subset (h : a.region ⊆ b.region) (hl : l ∈ a.region) : b.start ≤ a.start := by
  have hstart : a.start ∈ b.region := h (mem_region.2 (by grind [mem_region]))
  exact (mem_region.1 hstart).1

theorem stop_le_of_subset (h : a.region ⊆ b.region) (hl : l ∈ a.region) : a.stop ≤ b.stop := by
  by_contra hstop
  have hstart := start_le_of_subset h hl
  have hb := mem_region.1 (h hl)
  have ha := mem_region.1 hl
  have hmem : b.stop ∈ b.region := h (mem_region.2 (by grind))
  grind [mem_region]

theorem eq_of_region_eq (h : a.region = b.region) (hl : l ∈ a.region) : a = b := by
  have hb : l ∈ b.region := h ▸ hl
  have hstart : a.start = b.start :=
    Std.le_antisymm (start_le_of_subset h.ge hb) (start_le_of_subset h.le hl)
  have hstop : a.stop = b.stop :=
    Std.le_antisymm (stop_le_of_subset h.le hl) (stop_le_of_subset h.ge hb)
  cases a
  cases b
  simp_all

end Span

namespace FileCoverage

/-- Different functions have different bodies, and of two bodies one lies in the other or they have
nothing in common. -/
structure Nesting (f : FileCoverage) : Prop where
  distinct : ∀ i j r s, f.functions.records.get? i = some r → f.functions.records.get? j = some s →
    r.body = s.body → i = j
  nested : ∀ i j r s, f.functions.records.get? i = some r → f.functions.records.get? j = some s →
    r.body.region ⊆ s.body.region ∨ s.body.region ⊆ r.body.region ∨
      ∀ l ∈ r.body.region, l ∉ s.body.region

end FileCoverage

namespace Backfill
open Passes (Row)

variable {f : FileCoverage} {l : Location} {i j : Id} {r s : FunctionSite}

/-- The location is in the body of this function. -/
structure Around (f : FileCoverage) (l : Location) (i : Id) (r : FunctionSite) : Prop where
  recorded : f.functions.records.get? i = some r
  inside : l ∈ r.body.region

/-- Of the bodies around a location this one is the smallest. -/
structure Innermost (f : FileCoverage) (l : Location) (i : Id) (r : FunctionSite) : Prop where
  around : Around f l i r
  smallest : ∀ j s, Around f l j s → r.body.region ⊆ s.body.region

/-- Of the bodies around a location none starts later, and of those that start with this one none has a
higher id. -/
structure Latest (f : FileCoverage) (l : Location) (i : Id) (r : FunctionSite) : Prop where
  around : Around f l i r
  last : ∀ j s, Around f l j s →
    s.body.start < r.body.start ∨ (s.body.start = r.body.start ∧ j ≤ i)

section Scan
variable {rows : List Row} {a : Row}

theorem lastStart?_eq_none_iff : lastStart? rows = none ↔ rows = [] := by
  cases rows with
  | nil => simp [lastStart?]
  | cons d rows =>
    rw [lastStart?]
    cases lastStart? rows <;> grind

theorem lastStart?_spec (hrows : rows.Pairwise fun a b => a.1 < b.1) (h : lastStart? rows = some a) :
    a ∈ rows ∧ ∀ b ∈ rows, b.2.1.body.start < a.2.1.body.start ∨
      (b.2.1.body.start = a.2.1.body.start ∧ b.1 ≤ a.1) := by
  induction rows generalizing a with
  | nil => simp [lastStart?] at h
  | cons d rows ih =>
    obtain ⟨hd, hrows⟩ := List.pairwise_cons.1 hrows
    rw [lastStart?] at h
    cases he : lastStart? rows with
    | none =>
      have hnil := lastStart?_eq_none_iff.1 he
      obtain rfl : d = a := by simpa [he] using h
      simp [hnil]
    | some e =>
      obtain ⟨hmem, hlast⟩ := ih hrows he
      rw [he] at h
      by_cases hed : e.2.1.body.start < d.2.1.body.start
      · obtain rfl : d = a := by simpa [hed] using h
        refine ⟨List.mem_cons_self, fun b hb => ?_⟩
        rcases List.mem_cons.1 hb with rfl | hb
        · exact .inr ⟨rfl, UInt32.le_refl _⟩
        · grind
      · obtain rfl : e = a := by simpa [hed] using h
        refine ⟨List.mem_cons_of_mem _ hmem, fun b hb => ?_⟩
        rcases List.mem_cons.1 hb with rfl | hb
        · -- the rows behind have higher ids, so `e` stays when both bodies start together
          have hid := UInt32.le_of_lt (hd e hmem)
          grind
        · exact hlast b hb

end Scan

theorem mem_around {row : Row} :
    row ∈ f.functions.rows.filter (fun row => row.2.1.body.contains l) ↔
      Around f l row.1 row.2.1 ∧ row.2.2 = f.functions.count row.1 := by
  rw [List.mem_filter, Table.mem_rows]
  constructor
  · rintro ⟨⟨hr, hc⟩, hl⟩
    exact ⟨⟨hr, hl⟩, hc⟩
  · rintro ⟨⟨hr, hl⟩, hc⟩
    exact ⟨⟨hr, hc⟩, hl⟩

theorem mem_around_of_around (h : Around f l i r) : (i, r, f.functions.count i) ∈
    f.functions.rows.filter fun row => row.2.1.body.contains l :=
  mem_around.2 ⟨h, rfl⟩

theorem enclosingHits?_of_none (h : ∀ i r, ¬ Around f l i r) : enclosingHits? f l = none := by
  rw [enclosingHits?, lastStart?_eq_none_iff.2]
  · rfl
  · refine List.eq_nil_iff_forall_not_mem.2 fun row hrow => ?_
    exact h _ _ (mem_around.1 hrow).1

/-- If there is a body around a location, the count is that of the latest one. -/
theorem exists_latest (hf : f.functions.Counted) (h : Around f l j s) :
    ∃ i r, Latest f l i r ∧ enclosingHits? f l = some (f.functions.count i) := by
  have hmem := mem_around_of_around h
  cases ha : lastStart? (f.functions.rows.filter fun row => row.2.1.body.contains l) with
  | none =>
    rw [lastStart?_eq_none_iff.1 ha] at hmem
    simp at hmem
  | some a =>
    obtain ⟨hrow, hlast⟩ := lastStart?_spec ((Passes.pairwise_rows f.functions).filter _) ha
    have haround := (mem_around.1 hrow).1
    refine ⟨a.1, a.2.1, ⟨haround, fun j s hs => hlast _ (mem_around_of_around hs)⟩, ?_⟩
    rw [enclosingHits?, ha, Option.bind_some]
    exact hf.get? haround.recorded

section Nesting

/-- The smallest body starts last, if not alone. -/
theorem Innermost.start_eq (hr : Innermost f l i r) (hs : Latest f l j s) :
    s.body.start = r.body.start ∧ i ≤ j := by
  have hle := Span.start_le_of_subset (hr.smallest j s hs.around) hr.around.inside
  have hlast := hs.last i r hr.around
  grind

theorem exists_innermost (hf : f.Nesting) (h : Around f l j s) : ∃ i r, Innermost f l i r := by
  let around := f.functions.rows.filter fun row => row.2.1.body.contains l
  obtain ⟨a, ha, hmin⟩ := (List.finite_toSet around).exists_minimalFor (fun row => row.2.1.body.region)
    _ ⟨_, mem_around_of_around h⟩
  have haround := (mem_around.1 ha).1
  refine ⟨a.1, a.2.1, haround, fun k w hw => ?_⟩
  rcases hf.nested _ _ _ _ haround.recorded hw.recorded with hsub | hsub | hdisjoint
  · exact hsub
  -- no region is smaller, so one that lies in it is the same
  · exact @hmin (k, w, f.functions.count k) (mem_around_of_around hw) hsub
  · exact absurd hw.inside (hdisjoint l haround.inside)

theorem Innermost.unique (hf : f.Nesting) (hr : Innermost f l i r) (hs : Innermost f l j s) :
    i = j := by
  have hregion : r.body.region = s.body.region :=
    Set.Subset.antisymm (hr.smallest j s hs.around) (hs.smallest i r hr.around)
  exact hf.distinct _ _ _ _ hr.around.recorded hs.around.recorded
    (Span.eq_of_region_eq hregion hr.around.inside)

end Nesting

end Backfill
end Coverage

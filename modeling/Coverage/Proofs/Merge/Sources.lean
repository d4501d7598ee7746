import Coverage.Proofs.Merge.Directive
import Coverage.Proofs.Merge.Raise

/-! From several maps to the valid sources of one file, and from these to the source that supplies the
structure of each kind of record. -/
namespace Coverage.Merge

variable {ρ η ω : Type} {l l' : List CoverageMap} {m : CoverageMap} {path : String} {s : Strategy}
  {sources : List FileCoverage} {g : FileCoverage} {part : FileCoverage → Table ρ η}

/-- What the maps hold for a path, in their order. -/
def sourcesAt (l : List CoverageMap) (path : String) : List FileCoverage :=
  l.filterMap (·.get? path)

def validAt (l : List CoverageMap) (path : String) : List FileCoverage :=
  (sourcesAt l path).filter (·.Valid)

/-- Three maps with one file. In the first it begins with a directive, which the second does not record,
and in the third it is not valid, since its statement has no count. -/
def sample : List CoverageMap :=
  [.ofList [("/a.ts", {
    path := "/a.ts"
    statements := ⟨.ofList [(0, .ofNumbers 1 0 1 12), (1, .ofNumbers 2 4 2 20)],
      .ofList [(0, 0), (1, 3)]⟩
    functions := ⟨.ofList [(0, ⟨"load", .ofNumbers 2 0 2 10, .ofNumbers 2 10 4 1, 2⟩)],
      .ofList [(0, 2)]⟩
    branches := ⟨.ofList [(0, ⟨.ofNumbers 3 2 3 18, .ifElse,
      [.ofNumbers 3 2 3 9, .ofNumbers 3 9 3 18], 3⟩)], .ofList [(0, [1, 0])]⟩ })],
  .ofList [("/a.ts", {
    path := "/a.ts"
    statements := ⟨.ofList [(0, .ofNumbers 2 2 2 20)], .ofList [(0, 5)]⟩
    functions := ⟨.ofList [(0, ⟨"load", .ofNumbers 2 9 2 10, .ofNumbers 2 10 4 1, 2⟩)],
      .ofList [(0, 4)]⟩
    branches := ⟨.ofList [(0, ⟨.ofNumbers 3 2 3 18, .conditional,
      [.ofNumbers 3 2 3 9, .ofNumbers 3 9 3 18], 3⟩)], .ofList [(0, [0, 6])]⟩ })],
  .ofList [("/a.ts", {
    path := "/a.ts"
    statements := ⟨.ofList [(0, .ofNumbers 1 0 1 12)], ∅⟩
    functions := ∅
    branches := ∅ })]]

theorem mem_pathsOf : path ∈ pathsOf l ↔ ∃ m ∈ l, path ∈ m.paths := by
  simp [pathsOf, SortedMap.mem_keys_ofList]

theorem sourcesAt_eq_nil_iff : sourcesAt l path = [] ↔ path ∉ pathsOf l := by
  rw [mem_pathsOf]
  simp [sourcesAt, CoverageMap.paths, SortedMap.get?_eq_none_iff]

theorem file?_nil : file? path [] s = none := rfl

/-- A single source is kept as it is, whether it is valid or not. -/
theorem file?_singleton (f : FileCoverage) : file? path [f] s = some f := by
  by_cases hf : f.Valid <;> simp [file?, hf]

/-- Every path has the file made of its sources, also when there is a single map. -/
theorem get?_maps (l : List CoverageMap) (s : Strategy) (path : String) :
    (maps l s).get? path = file? path (sourcesAt l path) s := by
  match l with
  | [] => rfl
  | [m] =>
    -- A single map is returned as it is, which is what its one source for a path would give.
    change m.get? path = _
    rw [sourcesAt, List.filterMap_cons]
    cases hm : m.get? path with
    | none => rfl
    | some f => exact (file?_singleton f).symm
  | a :: b :: r =>
    have hmaps : maps (a :: b :: r) s = .ofList ((pathsOf (a :: b :: r)).filterMap fun path =>
        (file? path (sourcesAt (a :: b :: r) path) s).map (path, ·)) := rfl
    rw [hmaps, SortedMap.get?_ofList, ← List.filterMap_reverse, SortedMap.lookup_filterMap_self]
    split
    · rfl
    · next hp =>
      rw [List.mem_reverse, ← sourcesAt_eq_nil_iff] at hp
      rw [hp, file?_nil]

theorem file?_of_none_valid (h : sources.filter (·.Valid) = []) :
    file? path sources s = sources.head? := by
  simp [file?, h]

theorem file?_of_one_valid {f : FileCoverage} (h : sources.filter (·.Valid) = [f]) :
    file? path sources s = some f := by
  simp [file?, h]

theorem file?_of_two_valid (h : 2 ≤ (sources.filter (·.Valid)).length) :
    file? path sources s = some (reconcile path (sources.filter (·.Valid))
      (skeletons s (sources.filter (·.Valid))) s) := by
  generalize hv : sources.filter (·.Valid) = valid at h ⊢
  match valid, h with
  | a :: b :: r, _ => simp [file?, hv]

theorem valid_of_mem_filter {f : FileCoverage} (h : f ∈ sources.filter (·.Valid)) : f.Valid := by
  simpa using (List.mem_filter.1 h).2

theorem valid_of_mem_validAt {f : FileCoverage} (h : f ∈ validAt l path) : f.Valid :=
  valid_of_mem_filter h

theorem sourcesAt_append : sourcesAt (l ++ l') path = sourcesAt l path ++ sourcesAt l' path :=
  List.filterMap_append

theorem validAt_append : validAt (l ++ l') path = validAt l path ++ validAt l' path := by
  rw [validAt, sourcesAt_append, List.filter_append]
  rfl

theorem sourcesAt_cons : sourcesAt (m :: l) path = (m.get? path).toList ++ sourcesAt l path := by
  rw [sourcesAt, List.filterMap_cons]
  cases m.get? path <;> rfl

theorem validAt_cons_of_valid (hg : m.get? path = some g) (hvalid : g.Valid) :
    validAt (m :: l) path = g :: validAt l path := by
  simp [validAt, sourcesAt_cons, hg, hvalid]

/-- One of several sources, with those before and after it. -/
structure Split (sources : List FileCoverage) where
  before : List FileCoverage
  source : FileCoverage
  after : List FileCoverage
  eq : sources = before ++ source :: after

namespace Split

def others (p : Split sources) : List FileCoverage := p.before ++ p.after

/-- The strategy takes the structure of one kind of record from this source. With `max` and `add` it
is the last of those with the most records. -/
def Supplies (s : Strategy) (part : FileCoverage → Table ρ η) (p : Split sources) : Prop :=
  match s with
  | .max | .add =>
    (∀ o ∈ p.before, (part o).size ≤ (part p.source).size) ∧
    ∀ o ∈ p.after, (part o).size < (part p.source).size
  | .preferFirst => p.before = []
  | .preferLast => p.after = []

theorem source_mem (p : Split sources) : p.source ∈ sources := by
  obtain ⟨before, source, after, rfl⟩ := p
  simp

theorem perm (p : Split sources) : (p.source :: p.others).Perm sources := by
  obtain ⟨before, source, after, rfl⟩ := p
  exact List.perm_middle.symm

theorem mem_of_mem_others {p : Split sources} {o : FileCoverage} (h : o ∈ p.others) :
    o ∈ sources :=
  p.perm.mem_iff.1 (List.mem_cons_of_mem _ h)

/-- The last of the richest sources is as rich as any. -/
theorem size_le_source {p : Split sources} (h : (∀ o ∈ p.before, (part o).size ≤ (part p.source).size) ∧
    ∀ o ∈ p.after, (part o).size < (part p.source).size) :
    ∀ o ∈ sources, (part o).size ≤ (part p.source).size := by
  intro o ho
  rw [p.eq] at ho
  rcases List.mem_append.1 ho with ho | ho
  · exact h.1 o ho
  · rcases List.mem_cons.1 ho with rfl | ho
    · exact Nat.le_refl _
    · exact Nat.le_of_lt (h.2 o ho)

theorem eraseIdx_eq (p : Split sources) : sources.eraseIdx p.before.length = p.others := by
  obtain ⟨before, source, after, rfl⟩ := p
  rw [List.eraseIdx_append_of_length_le (Nat.le_refl _)]
  simp [others]

variable [Inhabited η]

/-- The records of the source with counts raised by the other sources. -/
def table (kind : RecordKind ρ η ω) (s : Strategy) (part : FileCoverage → Table ρ η)
    (p : Split sources) : Table ρ η :=
  raised kind s (part p.source) (p.others.map part)

@[simp] theorem records_table (kind : RecordKind ρ η ω) (p : Split sources) :
    (p.table kind s part).records = (part p.source).records := records_raised

theorem table_eq (kind : RecordKind ρ η ω) (p : Split sources) :
    Merge.table kind s (sources.map part) p.before.length = p.table kind s part := by
  obtain ⟨before, source, after, rfl⟩ := p
  have herase := List.eraseIdx_append_of_length_le (l := before.map part)
    (Nat.le_of_eq (List.length_map part)) (part source :: after.map part)
  simp [Merge.table, table, raised, others, herase]

end Split

/-- The file whose kinds of records come from the given sources, before the rule for directives. -/
def assemble (path : String) (s : Strategy) (p q r : Split sources) : FileCoverage where
  path
  statements := p.table .statements s (·.statements)
  functions := q.table .functions s (·.functions)
  branches := r.table .branches s (·.branches)

@[simp] theorem assemble_statements (p q r : Split sources) :
    (assemble path s p q r).statements = p.table .statements s (·.statements) := rfl

@[simp] theorem assemble_functions (p q r : Split sources) :
    (assemble path s p q r).functions = q.table .functions s (·.functions) := rfl

@[simp] theorem assemble_branches (p q r : Split sources) :
    (assemble path s p q r).branches = r.table .branches s (·.branches) := rfl

theorem reconcile_eq (p q r : Split sources) :
    reconcile path sources ⟨p.before.length, q.before.length, r.before.length⟩ s =
      countDirective p.others (assemble path s p q r) := by
  simp only [reconcile, assemble, ← Split.table_eq, p.eraseIdx_eq]

/-- The scan for the greatest number ends with the number it began with if all others are less, else
with the last of the greatest. -/
theorem foldl_greatest (l : List Nat) (k : Nat) (b : Nat × Nat) :
    let e := (l.zipIdx k).foldl (fun best e => if best.1 ≤ e.1 then e else best) b
    (e = b ∧ ∀ y ∈ l, y < b.1) ∨
    ∃ before x after, l = before ++ x :: after ∧ e = (x, k + before.length) ∧
      b.1 ≤ x ∧ (∀ y ∈ before, y ≤ x) ∧ ∀ y ∈ after, y < x := by
  induction l generalizing k b with
  | nil => simp
  | cons a l ih =>
    simp only [List.zipIdx_cons, List.foldl_cons]
    by_cases hb : b.1 ≤ a
    · rw [if_pos hb]
      right
      rcases ih (k + 1) (a, k) with ⟨he, hl⟩ | ⟨before, x, after, rfl, he, hx, hbefore, hafter⟩
      · exact ⟨[], a, l, rfl, by simpa using he, hb, by simp, hl⟩
      · refine ⟨a :: before, x, after, rfl, ?_, Nat.le_trans hb hx, ?_, hafter⟩
        · rw [he, List.length_cons]
          congr 1
          omega
        · intro y hy
          rcases List.mem_cons.1 hy with rfl | hy
          · exact hx
          · exact hbefore y hy
    · rw [if_neg hb]
      rcases ih (k + 1) b with ⟨he, hl⟩ | ⟨before, x, after, rfl, he, hx, hbefore, hafter⟩
      · left
        refine ⟨he, fun y hy => ?_⟩
        rcases List.mem_cons.1 hy with rfl | hy
        · omega
        · exact hl y hy
      · right
        refine ⟨a :: before, x, after, rfl, ?_, hx, ?_, hafter⟩
        · rw [he, List.length_cons]
          congr 1
          omega
        · intro y hy
          rcases List.mem_cons.1 hy with rfl | hy
          · omega
          · exact hbefore y hy

theorem lastGreatest_spec {l : List Nat} (h : l ≠ []) :
    ∃ before x after, l = before ++ x :: after ∧ lastGreatest l = before.length ∧
      (∀ y ∈ before, y ≤ x) ∧ ∀ y ∈ after, y < x := by
  rcases foldl_greatest l 0 (0, 0) with ⟨_, hl⟩ | ⟨before, x, after, hl, he, _, hb, ha⟩
  · obtain ⟨y, r, rfl⟩ := List.exists_cons_of_ne_nil h
    exact (Nat.not_lt_zero _ (hl y List.mem_cons_self)).elim
  · exact ⟨before, x, after, hl, by simp [lastGreatest, he], hb, ha⟩

/-- The index of the source that supplies one kind of record. -/
def supplier (s : Strategy) (part : FileCoverage → Table ρ η) (sources : List FileCoverage) : Nat :=
  match s with
  | .max | .add => lastGreatest (sources.map fun f => (part f).size)
  | .preferFirst => 0
  | .preferLast => sources.length - 1

theorem skeletons_eq (s : Strategy) (sources : List FileCoverage) :
    skeletons s sources = ⟨supplier s (·.statements) sources, supplier s (·.functions) sources,
      supplier s (·.branches) sources⟩ := by
  cases s <;> rfl

theorem exists_richest (part : FileCoverage → Table ρ η) (h : sources ≠ []) :
    ∃ p : Split sources, p.before.length = lastGreatest (sources.map fun f => (part f).size) ∧
      (∀ o ∈ p.before, (part o).size ≤ (part p.source).size) ∧
      ∀ o ∈ p.after, (part o).size < (part p.source).size := by
  obtain ⟨b, x, a, hl, hi, hb, ha⟩ :=
    lastGreatest_spec (l := sources.map fun f => (part f).size) (by simpa using h)
  obtain ⟨before, rest, rfl, rfl, hrest⟩ := List.map_eq_append_iff.1 hl
  obtain ⟨source, after, rfl, rfl, rfl⟩ := List.map_eq_cons_iff.1 hrest
  refine ⟨⟨before, source, after, rfl⟩, ?_, ?_, ?_⟩
  · rw [hi, List.length_map]
  · exact fun o ho => hb _ (List.mem_map_of_mem ho)
  · exact fun o ho => ha _ (List.mem_map_of_mem ho)

theorem exists_supplies (s : Strategy) (part : FileCoverage → Table ρ η) (h : sources ≠ []) :
    ∃ p : Split sources, p.before.length = supplier s part sources ∧ p.Supplies s part := by
  cases s with
  | max => exact exists_richest part h
  | add => exact exists_richest part h
  | preferFirst =>
    obtain ⟨f, r, rfl⟩ := List.exists_cons_of_ne_nil h
    exact ⟨⟨[], f, r, rfl⟩, rfl, rfl⟩
  | preferLast =>
    refine ⟨⟨sources.dropLast, sources.getLast h, [], ?_⟩, ?_, rfl⟩
    · rw [List.dropLast_concat_getLast]
    · exact List.length_dropLast

/-- From at least two valid sources a file is put together from suppliers. -/
theorem exists_assemble (s : Strategy) (path : String) (h : 2 ≤ (sources.filter (·.Valid)).length) :
    ∃ p q r : Split (sources.filter (·.Valid)),
      p.Supplies s (·.statements) ∧ q.Supplies s (·.functions) ∧ r.Supplies s (·.branches) ∧
      file? path sources s = some (countDirective p.others (assemble path s p q r)) := by
  have hne : sources.filter (·.Valid) ≠ [] := by
    intro he
    simp [he] at h
  obtain ⟨p, hp, hps⟩ := exists_supplies s (·.statements) hne
  obtain ⟨q, hq, hqs⟩ := exists_supplies s (·.functions) hne
  obtain ⟨r, hr, hrs⟩ := exists_supplies s (·.branches) hne
  refine ⟨p, q, r, hps, hqs, hrs, ?_⟩
  rw [file?_of_two_valid h, ← reconcile_eq p q r, hp, hq, hr, ← skeletons_eq]

/-- Without a valid source the first stays, a single valid one stays, and several are put together. -/
theorem file?_cases (s : Strategy) (path : String) (sources : List FileCoverage) :
    (sources.filter (·.Valid) = [] ∧ file? path sources s = sources.head?) ∨
    (∃ f, sources.filter (·.Valid) = [f] ∧ file? path sources s = some f) ∨
    ∃ p q r : Split (sources.filter (·.Valid)),
      p.Supplies s (·.statements) ∧ q.Supplies s (·.functions) ∧ r.Supplies s (·.branches) ∧
      file? path sources s = some (countDirective p.others (assemble path s p q r)) := by
  by_cases hnone : sources.filter (·.Valid) = []
  · exact .inl ⟨hnone, file?_of_none_valid hnone⟩
  · by_cases hone : ∃ f, sources.filter (·.Valid) = [f]
    · obtain ⟨f, hf⟩ := hone
      exact .inr (.inl ⟨f, hf, file?_of_one_valid hf⟩)
    · refine .inr (.inr (exists_assemble s path ?_))
      match hv : sources.filter (·.Valid) with
      | [] => exact (hnone hv).elim
      | [f] => exact (hone ⟨f, hv⟩).elim
      | _ :: _ :: _ => simp [hv]

theorem get?_maps_of_two_valid (s : Strategy) (h : 2 ≤ (validAt l path).length) :
    ∃ p q r : Split (validAt l path),
      p.Supplies s (·.statements) ∧ q.Supplies s (·.functions) ∧ r.Supplies s (·.branches) ∧
      (maps l s).get? path = some (countDirective p.others (assemble path s p q r)) := by
  rw [get?_maps]
  exact exists_assemble s path h

end Coverage.Merge

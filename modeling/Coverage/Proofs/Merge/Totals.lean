import Coverage.Proofs.Merge.Structure

/-! Sums per line when counts are added. Exclusive matching hands out each record of a source once and,
where the skeleton has room on the line, hands out all of them. -/
namespace Coverage.Merge

variable {ρ η ω : Type} {line : UInt32} {sources : List FileCoverage}

open Matching

theorem sum_map_le_add {α : Type} {l : List α} {f g k : α → Nat}
    (h : ∀ a ∈ l, f a ≤ g a + k a) : (l.map f).sum ≤ (l.map g).sum + (l.map k).sum := by
  induction l with
  | nil => simp
  | cons a l ih =>
    have ha := h a List.mem_cons_self
    have hl := ih fun b hb => h b (List.mem_cons_of_mem _ hb)
    simp only [List.map_cons, List.sum_cons]
    omega

theorem sum_map_eq_add {α : Type} {l : List α} {f g k : α → Nat}
    (h : ∀ a ∈ l, f a = g a + k a) : (l.map f).sum = (l.map g).sum + (l.map k).sum := by
  induction l with
  | nil => simp
  | cons a l ih =>
    have ha := h a List.mem_cons_self
    have hl := ih fun b hb => h b (List.mem_cons_of_mem _ hb)
    simp only [List.map_cons, List.sum_cons]
    omega

theorem sum_map_ite {α : Type} (p : α → Prop) [DecidablePred p] (l : List α) :
    (l.map fun a => if p a then 1 else 0).sum = l.countP fun a => p a := by
  induction l with
  | nil => rfl
  | cons a l ih =>
    rw [List.map_cons, List.sum_cons, ih, List.countP_cons]
    by_cases ha : p a
    · simp [ha, Nat.add_comm]
    · simp [ha]

section Lines
variable [Inhabited η] {kind : RecordKind ρ η ω} {skeleton t other : Table ρ η} {v : η → Nat}

/-- The rows whose records start on a line. -/
def rowsOn (kind : RecordKind ρ η ω) (t : Table ρ η) (line : UInt32) : List (Id × ρ × η) :=
  t.rows.filter fun r => (kind.start r.2.1).line == line

/-- The sum of what the counts on a line are worth. -/
def lineTotal (kind : RecordKind ρ η ω) (v : η → Nat) (t : Table ρ η) (line : UInt32) : Nat :=
  ((rowsOn kind t line).map fun r => v r.2.2).sum

/-- The records that start on a line. -/
def recordsOn (kind : RecordKind ρ η ω) (t : Table ρ η) (line : UInt32) : List (Id × ρ) :=
  t.records.entries.filter fun e => (kind.start e.2).line == line

theorem rowsOn_eq (kind : RecordKind ρ η ω) (t : Table ρ η) (line : UInt32) :
    rowsOn kind t line = (recordsOn kind t line).map fun e => (e.1, e.2, t.count e.1) := by
  simp [rowsOn, recordsOn, Table.rows, List.filter_map, Function.comp_def]

theorem lineTotal_eq (kind : RecordKind ρ η ω) (v : η → Nat) (t : Table ρ η) (line : UInt32) :
    lineTotal kind v t line = ((recordsOn kind t line).map fun e => v (t.count e.1)).sum := by
  rw [lineTotal, rowsOn_eq, List.map_map]
  rfl

omit [Inhabited η] in
theorem recordsOn_congr {u : Table ρ η} (h : t.records = u.records) :
    recordsOn kind t line = recordsOn kind u line := by
  rw [recordsOn, h, recordsOn]

theorem onLine_matched (kind : RecordKind ρ η ω) (skeleton other : Table ρ η) (line : UInt32) :
    onLine line (matched kind.pick (candidates kind other) (queries kind skeleton)).2 =
      (recordsOn kind skeleton line).map fun e =>
        (queryOf kind skeleton e, taken? kind .add skeleton other e.1) := by
  have hs : Strategy.add.exclusive = true := rfl
  rw [matched_eq hs, onLine, recordsOn, List.filter_map]
  rfl

/-- What the candidate that a record takes is worth. -/
def takenValue (kind : RecordKind ρ η ω) (v : η → Nat) (skeleton other : Table ρ η) (id : Id) : Nat :=
  gain (fun c => v c.value.2) (taken? kind .add skeleton other id)

theorem map_takenValue (kind : RecordKind ρ η ω) (v : η → Nat) (skeleton other : Table ρ η)
    (line : UInt32) :
    ((recordsOn kind skeleton line).map fun e => takenValue kind v skeleton other e.1) =
      (onLine line (matched kind.pick (candidates kind other) (queries kind skeleton)).2).map
        fun e => gain (fun c => v c.value.2) e.2 := by
  rw [onLine_matched, List.map_map]
  rfl

theorem sum_candidates_line (kind : RecordKind ρ η ω) (v : η → Nat) (t : Table ρ η) (line : UInt32) :
    (((candidates kind t).filter fun c => c.start.line == line).map fun c => v c.value.2).sum =
      lineTotal kind v t line := by
  have h := map_filter_candidates kind t (·.line == line) fun x => v x.2
  rw [h]
  rfl

theorem sum_takenValue_le (hpick : Chooses kind.pick) (v : η → Nat) (skeleton other : Table ρ η)
    (line : UInt32) :
    ((recordsOn kind skeleton line).map fun e => takenValue kind v skeleton other e.1).sum ≤
      lineTotal kind v other line := by
  rw [map_takenValue, ← sum_candidates_line]
  exact sum_gain_line_le hpick (nodup_index kind other) _

theorem sum_takenValue_eq (hpick : Chooses kind.pick)
    (hroom : (rowsOn kind other line).length ≤ (rowsOn kind skeleton line).length) :
    ((recordsOn kind skeleton line).map fun e => takenValue kind v skeleton other e.1).sum =
      lineTotal kind v other line := by
  rw [map_takenValue, ← sum_candidates_line]
  refine sum_gain_line_eq hpick (nodup_index kind other) ?_ _
  have hother := congrArg List.length (map_filter_candidates kind other (·.line == line) fun x => x)
  rw [List.length_map, List.length_map] at hother
  rw [hother, queries, List.filter_map, List.length_map]
  exact hroom

/-- Adding never makes a count worth more than both together. -/
def Subadditive (kind : RecordKind ρ η ω) (v : η → Nat) : Prop :=
  ∀ a b, v (kind.combine Hits.add a b) ≤ v a + v b

theorem count_raise (kind : RecordKind ρ η ω) (s : Strategy) (skeleton t other : Table ρ η) (id : Id) :
    (raise kind s skeleton t other).count id =
      if (t.hits.get? id).isSome then raiseBy kind s (t.count id) (taken? kind s skeleton other id)
      else t.count id := by
  rw [Table.count, get?_hits_raise, Table.count]
  cases t.hits.get? id <;> rfl

theorem value_raise_le (hv : Subadditive kind v) (skeleton t other : Table ρ η) (id : Id) :
    v ((raise kind .add skeleton t other).count id) ≤
      v (t.count id) + takenValue kind v skeleton other id := by
  rw [count_raise]
  split
  · rw [raiseBy, takenValue, gain]
    cases taken? kind .add skeleton other id with
    | none => exact Nat.le_add_right _ _
    | some c => exact hv _ _
  · exact Nat.le_add_right _ _

/-- One source raises the total of a line by at most its own total of the line. -/
theorem lineTotal_raise_le (hpick : Chooses kind.pick) (hv : Subadditive kind v)
    (hrec : t.records = skeleton.records) (other : Table ρ η) (line : UInt32) :
    lineTotal kind v (raise kind .add skeleton t other) line ≤
      lineTotal kind v t line + lineTotal kind v other line := by
  have hsum := sum_map_le_add (l := recordsOn kind t line)
    fun e _ => value_raise_le hv skeleton t other e.1
  have htaken := sum_takenValue_le hpick v skeleton other line
  rw [recordsOn_congr hrec] at hsum
  rw [lineTotal_eq, lineTotal_eq kind v t, recordsOn_congr (records_raise kind .add skeleton t other),
    recordsOn_congr hrec]
  omega

theorem lineTotal_foldl_raise_le (hpick : Chooses kind.pick) (hv : Subadditive kind v)
    (others : List (Table ρ η)) (hrec : t.records = skeleton.records) (line : UInt32) :
    lineTotal kind v (others.foldl (raise kind .add skeleton) t) line ≤
      lineTotal kind v t line + (others.map fun o => lineTotal kind v o line).sum := by
  induction others generalizing t with
  | nil => simp
  | cons o others ih =>
    have hrest := ih (t := raise kind .add skeleton t o) hrec
    have hstep := lineTotal_raise_le hpick hv hrec o line
    simp only [List.foldl_cons, List.map_cons, List.sum_cons]
    omega

/-- What the sources together have on a line. -/
def sourceTotal (kind : RecordKind ρ η ω) (v : η → Nat) (part : FileCoverage → Table ρ η)
    (sources : List FileCoverage) (line : UInt32) : Nat :=
  (sources.map fun o => lineTotal kind v (part o) line).sum

/-- No other source has more records on a line than the supplier. -/
def Split.Room (kind : RecordKind ρ η ω) (part : FileCoverage → Table ρ η) (p : Split sources)
    (line : UInt32) : Prop :=
  ∀ o ∈ p.others, (rowsOn kind (part o) line).length ≤ (rowsOn kind (part p.source) line).length

/-- The sources together are the supplier and the others. -/
theorem sum_sources (p : Split sources) (g : FileCoverage → Nat) :
    (sources.map g).sum = g p.source + (p.others.map g).sum := by
  rw [← (p.perm.map g).sum_nat, List.map_cons, List.sum_cons]

/-- No record of a source counts twice. -/
theorem lineTotal_table_le {part : FileCoverage → Table ρ η} (hpick : Chooses kind.pick)
    (hv : Subadditive kind v) (p : Split sources) (line : UInt32) :
    lineTotal kind v (p.table kind .add part) line ≤ sourceTotal kind v part sources line := by
  have hrec : (part p.source).records = (part p.source).records := rfl
  have h := lineTotal_foldl_raise_le hpick hv (p.others.map part) hrec line
  rw [List.map_map] at h
  rw [sourceTotal, sum_sources p]
  exact h

end Lines

/-- No count of a record on the line is the greatest there is, so none of its sums was cut. -/
def Unsaturated (kind : RecordKind ρ Hits Unit) (t : Table ρ Hits) (line : UInt32) : Prop :=
  ∀ r ∈ rowsOn kind t line, r.2.2.toNat < UInt64.size - 1

section Plain
variable {kind : RecordKind ρ Hits Unit} {skeleton t other : Table ρ Hits}

theorem unsaturated_iff : Unsaturated kind t line ↔
    ∀ e ∈ recordsOn kind t line, (t.count e.1).toNat < UInt64.size - 1 := by
  rw [Unsaturated, rowsOn_eq, List.forall_mem_map]

theorem subadditive_plain (hk : kind.Plain) : Subadditive kind UInt64.toNat := by
  intro a b
  rw [hk.combine, id, Hits.toNat_add]
  exact Nat.min_le_left _ _

/-- A sum that was not cut is exact, and so was every sum before it. -/
theorem toNat_raiseBy (hk : kind.Plain) {h : Hits} {x : Option (Candidate (ρ × Hits))}
    (hlt : (raiseBy kind .add h x).toNat < UInt64.size - 1) :
    (raiseBy kind .add h x).toNat = h.toNat + gain (fun c => c.value.2.toNat) x := by
  rw [raiseBy, hk.combine] at hlt ⊢
  cases x with
  | none => rfl
  | some c =>
    have hadd : (Hits.add h c.value.2).toNat = _ := Hits.toNat_add
    change (Hits.add h c.value.2).toNat < _ at hlt
    change (Hits.add h c.value.2).toNat = h.toNat + c.value.2.toNat
    omega

theorem lineTotal_raise_eq (hk : kind.Plain) (hrec : t.records = skeleton.records)
    (hc : t.Counted) (hroom : (rowsOn kind other line).length ≤ (rowsOn kind skeleton line).length)
    (hlt : Unsaturated kind (raise kind .add skeleton t other) line) :
    Unsaturated kind t line ∧
      lineTotal kind UInt64.toNat (raise kind .add skeleton t other) line =
        lineTotal kind UInt64.toNat t line + lineTotal kind UInt64.toNat other line := by
  rw [unsaturated_iff, recordsOn_congr (records_raise kind .add skeleton t other)] at hlt
  have hcount : ∀ e ∈ recordsOn kind t line,
      ((raise kind .add skeleton t other).count e.1).toNat =
        (t.count e.1).toNat + takenValue kind UInt64.toNat skeleton other e.1 := by
    intro e he
    have hsome : (t.hits.get? e.1).isSome :=
      hc e.1 (List.mem_map_of_mem (List.mem_filter.1 he).1)
    have hlt := hlt e he
    rw [count_raise, if_pos hsome] at hlt ⊢
    exact toNat_raiseBy hk hlt
  constructor
  · rw [unsaturated_iff]
    intro e he
    have := hcount e he
    have := hlt e he
    omega
  · have hsum := sum_map_eq_add hcount
    have htaken := sum_takenValue_eq (v := UInt64.toNat) hk.chooses hroom
    rw [recordsOn_congr hrec] at hsum
    rw [lineTotal_eq, lineTotal_eq kind _ t, recordsOn_congr (records_raise kind .add skeleton t other),
      recordsOn_congr hrec, hsum, htaken]

theorem counted_raise (hc : t.Counted) : (raise kind .add skeleton t other).Counted := by
  intro id hid
  rw [get?_hits_raise, Option.isSome_map]
  exact hc id hid

theorem lineTotal_foldl_raise_eq (hk : kind.Plain) (others : List (Table ρ Hits))
    (hrec : t.records = skeleton.records) (hc : t.Counted)
    (hroom : ∀ o ∈ others, (rowsOn kind o line).length ≤ (rowsOn kind skeleton line).length)
    (hlt : Unsaturated kind (others.foldl (raise kind .add skeleton) t) line) :
    Unsaturated kind t line ∧
      lineTotal kind UInt64.toNat (others.foldl (raise kind .add skeleton) t) line =
        lineTotal kind UInt64.toNat t line +
          (others.map fun o => lineTotal kind UInt64.toNat o line).sum := by
  induction others generalizing t with
  | nil => exact ⟨hlt, by simp⟩
  | cons o others ih =>
    -- Only the last counts are known to be uncut, so this goes back from the end.
    obtain ⟨hlto, hrest⟩ := ih (t := raise kind .add skeleton t o) hrec (counted_raise hc)
      (fun u hu => hroom u (List.mem_cons_of_mem _ hu)) hlt
    obtain ⟨hltt, hstep⟩ := lineTotal_raise_eq hk hrec hc (hroom o List.mem_cons_self) hlto
    refine ⟨hltt, ?_⟩
    rw [List.foldl_cons, hrest, hstep, List.map_cons, List.sum_cons]
    omega

/-- Where the supplier has room on the line and no sum is cut, nothing is lost. -/
theorem lineTotal_table_eq {part : FileCoverage → Table ρ Hits} (hk : kind.Plain)
    (p : Split sources) (hc : (part p.source).Counted)
    (hroom : p.Room kind part line) (hlt : Unsaturated kind (p.table kind .add part) line) :
    lineTotal kind UInt64.toNat (p.table kind .add part) line =
      sourceTotal kind UInt64.toNat part sources line := by
  have hroom : ∀ t ∈ p.others.map part, (rowsOn kind t line).length ≤
      (rowsOn kind (part p.source) line).length := by
    intro t ht
    obtain ⟨o, ho, rfl⟩ := List.mem_map.1 ht
    exact hroom o ho
  have h := (lineTotal_foldl_raise_eq hk (p.others.map part) rfl hc hroom hlt).2
  rw [List.map_map] at h
  rw [sourceTotal, sum_sources p]
  exact h

end Plain

/-- The hits of one arm, zero where there is no such arm. -/
def armHits (i : Nat) (c : List Hits) : Nat := (c.getD i 0).toNat

theorem subadditive_branches (i : Nat) : Subadditive .branches (armHits i) := by
  intro a b
  change ((combineArms Hits.add a b).getD i 0).toNat ≤ (a.getD i 0).toNat + (b.getD i 0).toNat
  by_cases hi : i < a.length
  · rw [getD_combineArms Hits.add hi, Hits.toNat_add]
    exact Nat.min_le_left _ _
  · have hlen : (combineArms Hits.add a b).length ≤ i := by
      rw [length_combineArms]
      omega
    rw [List.getD_eq_getElem?_getD, List.getElem?_eq_none hlen]
    exact Nat.zero_le _

section Directive
variable {others : List FileCoverage} {f : FileCoverage}

/-- The rule raises the count of this record. -/
def Raises (others : List FileCoverage) (f : FileCoverage) (e : Id × Span) : Prop :=
  f.statements.count e.1 = 0 ∧ DirectiveRuns others f e.1

instance (e : Id × Span) : Decidable (Raises others f e) := inferInstanceAs (Decidable (_ ∧ _))

theorem count_countDirective (hc : f.statements.Counted) {e : Id × Span}
    (he : e ∈ f.statements.records.entries) :
    (countDirective others f).statements.count e.1 =
      if Raises others f e then 1 else f.statements.count e.1 := by
  have hcount := hc.get? (SortedMap.get?_eq_some_iff.2 he)
  rw [Table.count, get?_hits_countDirective, hcount]
  rfl

/-- At most one record of a line is raised, since the directive is a single statement. -/
theorem countP_raises_le (others : List FileCoverage) (f : FileCoverage) (line : UInt32) :
    (recordsOn .statements f.statements line).countP (fun e => Raises others f e) ≤ 1 := by
  by_cases hany : ∃ e ∈ recordsOn .statements f.statements line, Raises others f e
  · obtain ⟨e, _, he⟩ := hany
    have hkeys : ((recordsOn .statements f.statements line).map (·.1)).Nodup :=
      f.statements.nodup_ids.sublist (List.filter_sublist.map _)
    have hone := List.nodup_iff_count.1 hkeys e.1
    rw [List.count, List.countP_map] at hone
    refine Nat.le_trans (List.countP_mono_left fun d _ hd => ?_) hone
    have hd : Raises others f d := by simpa using hd
    simpa using hd.2.directive.unique he.2.directive
  · have hzero : (recordsOn .statements f.statements line).countP (fun e => Raises others f e) = 0 := by
      rw [List.countP_eq_zero]
      intro e he hr
      exact hany ⟨e, he, by simpa using hr⟩
    omega

theorem unsaturated_of_countDirective (hc : f.statements.Counted)
    (h : Unsaturated .statements (countDirective others f).statements line) :
    Unsaturated .statements f.statements line := by
  rw [unsaturated_iff, recordsOn_congr records_countDirective] at h
  rw [unsaturated_iff]
  intro e he
  have hlt := h e he
  rw [count_countDirective hc (List.mem_filter.1 he).1] at hlt
  by_cases hr : Raises others f e
  · rw [hr.1]
    decide
  · rwa [if_neg hr] at hlt

/-- The unit that the rule for directives adds to a line: none, or one on the first line when the
directive ran and its counts were all zero. -/
def DirectiveUnit (others : List FileCoverage) (f : FileCoverage) (line : UInt32) (unit : Nat) : Prop :=
  unit = 0 ∨ unit = 1 ∧ line = 1 ∧ ∃ id, DirectiveRuns others f id ∧ f.statements.count id = 0

theorem lineTotal_countDirective (others : List FileCoverage) (hc : f.statements.Counted)
    (line : UInt32) :
    ∃ unit, DirectiveUnit others f line unit ∧
      lineTotal .statements UInt64.toNat (countDirective others f).statements line =
        lineTotal .statements UInt64.toNat f.statements line + unit := by
  have hcount : ∀ e ∈ recordsOn .statements f.statements line,
      ((countDirective others f).statements.count e.1).toNat =
        (f.statements.count e.1).toNat + if Raises others f e then 1 else 0 := by
    intro e he
    rw [count_countDirective hc (List.mem_filter.1 he).1]
    split
    · next hr => rw [hr.1]; rfl
    · rfl
  refine ⟨(recordsOn .statements f.statements line).countP (fun e => Raises others f e), ?_, ?_⟩
  · by_cases hany : ∃ e ∈ recordsOn .statements f.statements line, Raises others f e
    · right
      obtain ⟨e, he, hr⟩ := hany
      have hpos : 0 < (recordsOn .statements f.statements line).countP fun e => Raises others f e :=
        List.countP_pos_iff.2 ⟨e, he, by simpa using hr⟩
      have hle := countP_raises_le others f line
      refine ⟨by omega, ?_, e.1, hr.2, hr.1⟩
      obtain ⟨s, hs, hstart⟩ := hr.2.directive.starts
      obtain ⟨hmem, hline⟩ := List.mem_filter.1 he
      rw [SortedMap.get?_eq_some_iff.2 hmem] at hs
      cases hs
      have hline := beq_iff_eq.1 hline
      rw [← hline]
      exact congrArg Location.line hstart
    · left
      rw [List.countP_eq_zero]
      intro e he hr
      exact hany ⟨e, he, by simpa using hr⟩
  · have hsum := sum_map_eq_add hcount
    rw [lineTotal_eq, lineTotal_eq .statements _ f.statements, recordsOn_congr records_countDirective,
      hsum, sum_map_ite]

end Directive

/-- The file with the added counts of its statements as they are before the rule for directives. -/
def Split.unruled (p : Split sources) (f : FileCoverage) : FileCoverage :=
  { f with statements := p.table .statements .add (·.statements) }

theorem unruled_countDirective {path : String} (p q r : Split sources) (others : List FileCoverage) :
    p.unruled (countDirective others (assemble path .add p q r)) = assemble path .add p q r := by
  rw [Split.unruled, countDirective_path, countDirective_functions, countDirective_branches]
  rfl

/-- Added counts, line by line. A file never has more on a line than its sources together, but for the
unit of a directive, and has just as much if no sum is cut and the supplier of the records has room on
the line. Arms of branches are bounded likewise. -/
structure Added (sources : List FileCoverage) (f : FileCoverage) : Prop where
  statements : ∃ p : Split sources, p.Supplies .add (·.statements) ∧
    f.statements.records = p.source.statements.records ∧
    ∀ line, ∃ unit, DirectiveUnit p.others (p.unruled f) line unit ∧
      lineTotal .statements UInt64.toNat f.statements line ≤
        sourceTotal .statements UInt64.toNat (·.statements) sources line + unit ∧
      (Unsaturated .statements f.statements line → p.Room .statements (·.statements) line →
        lineTotal .statements UInt64.toNat f.statements line =
          sourceTotal .statements UInt64.toNat (·.statements) sources line + unit)
  functions : ∃ p : Split sources, p.Supplies .add (·.functions) ∧
    f.functions.records = p.source.functions.records ∧
    ∀ line,
      lineTotal .functions UInt64.toNat f.functions line ≤
        sourceTotal .functions UInt64.toNat (·.functions) sources line ∧
      (Unsaturated .functions f.functions line → p.Room .functions (·.functions) line →
        lineTotal .functions UInt64.toNat f.functions line =
          sourceTotal .functions UInt64.toNat (·.functions) sources line)
  branches : ∀ line i, lineTotal .branches (armHits i) f.branches line ≤
    sourceTotal .branches (armHits i) (·.branches) sources line

theorem added_assemble {path : String} (hvalid : ∀ f ∈ sources, f.Valid) {p q : Split sources}
    (r : Split sources) (hp : p.Supplies .add (·.statements)) (hq : q.Supplies .add (·.functions)) :
    Added sources (countDirective p.others (assemble path .add p q r)) where
  statements := by
    have hps := (FileCoverage.valid_iff.1 (hvalid _ p.source_mem)).1
    have hc : (assemble path .add p q r).statements.Counted := counted_raised hps
    refine ⟨p, hp, ?_, fun line => ?_⟩
    · rw [records_countDirective, assemble_statements, Split.records_table]
    · obtain ⟨unit, hunit, htotal⟩ := lineTotal_countDirective p.others hc line
      rw [unruled_countDirective, htotal]
      refine ⟨unit, hunit, ?_, fun hlt hroom => ?_⟩
      · refine Nat.add_le_add_right ?_ unit
        exact lineTotal_table_le chooses_highest (subadditive_plain RecordKind.plain_statements) p line
      · refine congrArg (· + unit) ?_
        exact lineTotal_table_eq RecordKind.plain_statements p hps hroom
          (unsaturated_of_countDirective hc hlt)
  functions := by
    have hqf := (FileCoverage.valid_iff.1 (hvalid _ q.source_mem)).2.1
    rw [countDirective_functions, assemble_functions, Split.records_table]
    refine ⟨q, hq, rfl, fun line => ⟨?_, fun hlt hroom => ?_⟩⟩
    · exact lineTotal_table_le chooses_highest (subadditive_plain RecordKind.plain_functions) q line
    · exact lineTotal_table_eq RecordKind.plain_functions q hqf hroom hlt
  branches line i := by
    rw [countDirective_branches, assemble_branches]
    exact lineTotal_table_le chooses_branch (subadditive_branches i) r line

/-- A path with at least two valid sources has added counts. -/
theorem totals_of_add (l : List CoverageMap) (path : String) (h : 2 ≤ (validAt l path).length) :
    ∃ f, (maps l .add).get? path = some f ∧ Added (validAt l path) f := by
  obtain ⟨p, q, r, hp, hq, hr, hget⟩ := get?_maps_of_two_valid .add h
  exact ⟨_, hget, added_assemble (fun f hf => valid_of_mem_validAt hf) r hp hq⟩

theorem totals_of_add_sample : 2 ≤ (validAt sample "/a.ts").length ∧
    ∃ f, (maps sample .add).get? "/a.ts" = some f ∧ Unsaturated .statements f.statements 2 ∧
      lineTotal .statements UInt64.toNat f.statements 2 = 8 := by
  refine ⟨by decide, ?_⟩
  obtain ⟨f, hf, hadded⟩ := totals_of_add sample "/a.ts" (by decide)
  obtain ⟨p, _, _, htotal⟩ := hadded.statements
  obtain ⟨unit, hunit, _, heq⟩ := htotal 2
  have hunsaturated : Unsaturated .statements f.statements 2 := by
    have hall : ((maps sample .add).get? "/a.ts").all (fun f =>
        (rowsOn .statements f.statements 2).all fun r => r.2.2.toNat < UInt64.size - 1) := by decide
    simpa [hf, Unsaturated] using hall
  have hroom : p.Room .statements (·.statements) 2 := by
    have hall : ∀ a ∈ validAt sample "/a.ts", ∀ o ∈ validAt sample "/a.ts",
        (rowsOn .statements o.statements 2).length ≤ (rowsOn .statements a.statements 2).length := by
      decide
    exact fun o ho => hall _ p.source_mem o (p.mem_of_mem_others ho)
  refine ⟨f, hf, hunsaturated, ?_⟩
  have hzero : unit = 0 := by simpa [DirectiveUnit] using hunit
  rw [heq hunsaturated hroom, hzero]
  decide

end Coverage.Merge

import Coverage.Proofs.Merge.Structure

/-! Merged counts when nothing is summed. Each record keeps its count or takes a higher one from the
record that each other source has nearest to it; the reference is said by rows of tables alone. -/
namespace Coverage

section Max
variable {a b : Hits}

theorem Hits.toNat_max : (max a b).toNat = max a.toNat b.toNat := by
  change (if a ≤ b then b else a).toNat = _
  split
  · next h =>
    rw [UInt64.le_iff_toNat_le] at h
    omega
  · next h =>
    rw [UInt64.le_iff_toNat_le] at h
    omega

theorem Hits.max_comm (a b : Hits) : max a b = max b a := by
  apply UInt64.toNat_inj.1
  rw [Hits.toNat_max, Hits.toNat_max, Nat.max_comm]

instance : Std.Associative (max : Hits → Hits → Hits) where
  assoc a b c := by
    apply UInt64.toNat_inj.1
    simp only [Hits.toNat_max, Nat.max_assoc]

theorem Hits.max_zero : max a 0 = a := by
  apply UInt64.toNat_inj.1
  simp [Hits.toNat_max]

theorem Hits.max_eq_ite : max a b = if b < a then a else b := by
  apply UInt64.toNat_inj.1
  rw [Hits.toNat_max]
  split
  · next h =>
    rw [UInt64.lt_iff_toNat_lt] at h
    omega
  · next h =>
    rw [UInt64.lt_iff_toNat_lt] at h
    omega

end Max

namespace Merge
variable {ρ η ω β : Type} {s : Strategy} {path : String} {id : Id}

open Matching

theorem combine_eq_max (hs : s ≠ .add) : s.combine = max := by
  have hmax : (fun a b : Hits => if a < b then b else a) = max := by
    funext a b
    rw [Hits.max_comm a b, Hits.max_eq_ite]
  cases s with
  | add => exact (hs rfl).elim
  | max => exact hmax
  | preferFirst => exact hmax
  | preferLast => exact hmax

theorem exclusive_eq_false (hs : s ≠ .add) : s.exclusive = false := by
  cases s <;> simp_all [Strategy.exclusive]

/-- The records that a start finds in another table, by ascending id: those with exactly that start if
there are any, else those of its line. -/
def nearest [Inhabited η] (kind : RecordKind ρ η ω) (t : Table ρ η) (l : Location) :
    List (ρ × η) :=
  let exact := t.rows.filter fun r => kind.start r.2.1 == l
  if exact.isEmpty then (t.rows.filter fun r => (kind.start r.2.1).line == l.line).map (·.2)
  else exact.map (·.2)

/-- The highest count that a start finds, zero if it finds nothing. -/
def highest (kind : RecordKind ρ Hits ω) (t : Table ρ Hits) (l : Location) : Hits :=
  ((nearest kind t l).map (·.2)).max?.getD 0

/-- How far a branch is from one of the given kind and number of arms. -/
def mismatch (kind : BranchKind) (arms : Nat) (r : BranchSite × List Hits) : Nat :=
  if r.2.length = arms then if r.1.kind = kind then 0 else 1 else 2

/-- The one branch that is taken from another table: of the nearest those with the least mismatch, of
these the one with the lowest id. -/
def takenBranch (t : Table BranchSite (List Hits)) (b : BranchSite) (arms : Nat) :
    Option (BranchSite × List Hits) :=
  (nearest .branches t b.span.start).minOn? (mismatch b.kind arms)

/-- The count that is taken for one arm, zero where the other branch has no such arm. -/
def takenArm (t : Table BranchSite (List Hits)) (b : BranchSite) (arms i : Nat) : Hits :=
  ((takenBranch t b arms).map (·.2.getD i 0)).getD 0

section Alone
variable [Inhabited η] {kind : RecordKind ρ η ω} {t : Table ρ η}

theorem map_unclaimed (kind : RecordKind ρ η ω) (t : Table ρ η)
    (near : Location → Location → Bool) (l : Location) :
    (unclaimed near (candidates kind t) [] l).map (·.value) =
      (t.rows.filter fun r => near (kind.start r.2.1) l).map (·.2) := by
  rw [← map_filter_candidates kind t (near · l) fun x => x]
  simp [unclaimed]

/-- A lone query chooses among the nearest records. -/
theorem map_alone (hpick : Chooses kind.pick) (v : ρ × η → β) (choice : ω → List (ρ × η) → Option β)
    (hchoice : ∀ w l, (kind.pick w l).map (fun c => v c.value) = choice w (l.map (·.value)))
    (q : Query ω) :
    (alone kind.pick (candidates kind t) q).map (fun c => v c.value) =
      choice q.wish (nearest kind t q.start) := by
  have hexact := map_unclaimed kind t sameStart q.start
  have hline := map_unclaimed kind t sameLine q.start
  cases hfound : kind.pick q.wish (unclaimed sameStart (candidates kind t) [] q.start) with
  | none =>
    rw [hpick.eq_nil hfound, List.map_nil, eq_comm, List.map_eq_nil_iff] at hexact
    have hnear : nearest kind t q.start =
        (t.rows.filter fun r => sameLine (kind.start r.2.1) q.start).map (·.2) :=
      if_pos (List.isEmpty_iff.2 hexact)
    rw [alone, hfound, Option.none_or, hchoice, hline, hnear]
  | some c =>
    have hne : t.rows.filter (fun r => sameStart (kind.start r.2.1) q.start) ≠ [] := by
      intro hnil
      rw [hnil, List.map_nil, List.map_eq_nil_iff] at hexact
      rw [hexact, hpick.pick_nil] at hfound
      simp at hfound
    have hnear : nearest kind t q.start =
        (t.rows.filter fun r => sameStart (kind.start r.2.1) q.start).map (·.2) :=
      if_neg fun he => hne (List.isEmpty_iff.1 he)
    rw [alone, hfound, Option.some_or, ← hfound, hchoice, hexact, hnear]

end Alone

theorem map_pickHighest (l : List (Candidate (ρ × Hits))) :
    (pickHighest l).map (·.value.2) = ((l.map (·.value)).map (·.2)).max? := by
  induction l with
  | nil => rfl
  | cons c r ih =>
    rw [List.map_cons, List.map_cons, List.max?_cons, ← ih, pickHighest]
    cases pickHighest r with
    | none => rfl
    | some d =>
      simp only [Option.map_some, Option.elim_some, Hits.max_eq_ite]
      split <;> rfl

theorem find?_or_eq_minOn? {α : Type} {f : α → Nat} (hf : ∀ x, f x ≤ 2) (l : List α) :
    (l.find? (f · = 0)).or ((l.find? (f · ≤ 1)).or l.head?) = l.minOn? f := by
  induction l with
  | nil => rfl
  | cons x l ih =>
    have hx := hf x
    rw [List.minOn?_cons, ← ih]
    simp only [List.find?_cons, List.head?_cons]
    cases h0 : l.find? (f · = 0) with
    | some y =>
      have hy : f y = 0 := by simpa using List.find?_some h0
      by_cases hx0 : f x = 0 <;> simp [hx0, hy, minOn_eq_if]
    | none =>
      have hl : ∀ y ∈ l, f y ≠ 0 := by simpa using List.find?_eq_none.1 h0
      cases h1 : l.find? (f · ≤ 1) with
      | some y =>
        have hy : f y ≤ 1 := by simpa using List.find?_some h1
        have hy0 := hl y (List.mem_of_find?_eq_some h1)
        by_cases hx0 : f x = 0
        · simp [hx0, minOn_eq_if]
        · by_cases hx1 : f x ≤ 1
          · have : f x ≤ f y := by omega
            simp [hx0, hx1, this, minOn_eq_if]
          · have : ¬ f x ≤ f y := by omega
            simp [hx0, hx1, this, minOn_eq_if]
      | none =>
        have hl1 : ∀ y ∈ l, ¬ f y ≤ 1 := by simpa using List.find?_eq_none.1 h1
        have hhead : ∀ y, l.head? = some y → f x ≤ f y := by
          intro y hy
          have := hl1 y (List.mem_of_head? hy)
          omega
        have hmin : l.head?.elim x (minOn f x) = x := by
          cases hh : l.head? with
          | none => rfl
          | some y => simp [minOn_eq_if, hhead y hh]
        by_cases hx0 : f x = 0
        · simp [hx0, hmin]
        · by_cases hx1 : f x ≤ 1 <;> simp [hx0, hx1, hmin]

theorem mismatch_le_two (kind : BranchKind) (arms : Nat) (r : BranchSite × List Hits) :
    mismatch kind arms r ≤ 2 := by
  unfold mismatch
  repeat' split
  all_goals omega

/-- Choosing by kind and arms first, then by arms, then at all is choosing the least mismatch. -/
theorem map_pickBranch (w : BranchKind × Nat) (l : List (Candidate (BranchSite × List Hits))) :
    (pickBranch w l).map (·.value) = (l.map (·.value)).minOn? (mismatch w.1 w.2) := by
  have hzero (r : BranchSite × List Hits) :
      decide (mismatch w.1 w.2 r = 0) = (r.2.length == w.2 && r.1.kind == w.1) := by
    unfold mismatch
    repeat' split
    all_goals simp_all
  have hone (r : BranchSite × List Hits) :
      decide (mismatch w.1 w.2 r ≤ 1) = (r.2.length == w.2) := by
    unfold mismatch
    repeat' split
    all_goals simp_all
  rw [← find?_or_eq_minOn? (mismatch_le_two w.1 w.2)]
  simp only [hzero, hone, List.find?_map, List.head?_map, ← Option.map_or, Function.comp_def]
  simp only [pickBranch, Option.orElse_eq_orElse, Option.orElse_eq_or]

section Plain
variable {kind : RecordKind ρ Hits Unit} {skeleton o : Table ρ Hits} {r : ρ}

theorem raiseBy_plain (hk : kind.Plain) (hs : s ≠ .add) (h : Hits)
    (x : Option (Candidate (ρ × Hits))) :
    raiseBy kind s h x = max h ((x.map (·.value.2)).getD 0) := by
  rw [raiseBy, hk.combine, combine_eq_max hs]
  cases x with
  | none => exact Hits.max_zero.symm
  | some c => rfl

theorem taken?_plain (hk : kind.Plain) (hs : s ≠ .add) (hr : skeleton.records.get? id = some r) :
    ((taken? kind s skeleton o id).map (·.value.2)).getD 0 = highest kind o (kind.start r) := by
  have hchoice (w : Unit) (l : List (Candidate (ρ × Hits))) :
      (kind.pick w l).map (·.value.2) = ((l.map (·.value)).map (·.2)).max? := by
    rw [hk.pick, map_pickHighest]
  rw [taken?_shared (exclusive_eq_false hs) hr,
    map_alone hk.chooses (·.2) (fun _ l => (l.map (·.2)).max?) hchoice, highest]
  rfl

/-- The reference for statements and functions: the highest of the own count and what each other
source has nearest. -/
theorem get?_hits_raised_plain (hk : kind.Plain) (hs : s ≠ .add) (hc : skeleton.Counted)
    (hr : skeleton.records.get? id = some r) (others : List (Table ρ Hits)) :
    (raised kind s skeleton others).hits.get? id =
      some ((others.map fun o => highest kind o (kind.start r)).foldl max (skeleton.count id)) := by
  have hstep : (fun h o => raiseBy kind s h (taken? kind s skeleton o id)) =
      fun h o => max h (highest kind o (kind.start r)) := by
    funext h o
    rw [raiseBy_plain hk hs, taken?_plain hk hs hr]
  rw [get?_hits_raised, hc.get? hr, Option.map_some, hstep, List.foldl_map]

theorem get?_hits_table_plain {sources : List FileCoverage} {part : FileCoverage → Table ρ Hits}
    (hk : kind.Plain) (hs : s ≠ .add) (p : Split sources) (hc : (part p.source).Counted)
    (hr : (part p.source).records.get? id = some r) :
    (p.table kind s part).hits.get? id =
      some ((p.others.map fun o => highest kind (part o) (kind.start r)).foldl max
        ((part p.source).count id)) := by
  rw [Split.table, get?_hits_raised_plain hk hs hc hr, List.map_map]
  rfl

end Plain

section Branches
variable {skeleton o : Table BranchSite (List Hits)} {b : BranchSite}

theorem getD_raiseBy (hs : s ≠ .add) {h : List Hits} {i : Nat} (hi : i < h.length)
    (x : Option (Candidate (BranchSite × List Hits))) :
    (raiseBy .branches s h x).getD i 0 =
      max (h.getD i 0) ((x.map (·.value.2.getD i 0)).getD 0) := by
  rw [raiseBy, combine_eq_max hs]
  cases x with
  | none => exact Hits.max_zero.symm
  | some c => exact getD_combineArms max hi

theorem taken?_branch (hs : s ≠ .add) (hb : skeleton.records.get? id = some b) (i : Nat) :
    ((taken? .branches s skeleton o id).map (·.value.2.getD i 0)).getD 0 =
      takenArm o b (skeleton.count id).length i := by
  have hchoice (w : BranchKind × Nat) (l : List (Candidate (BranchSite × List Hits))) :
      (pickBranch w l).map (fun c => c.value.2.getD i 0) =
        ((l.map (·.value)).minOn? (mismatch w.1 w.2)).map (·.2.getD i 0) := by
    rw [← map_pickBranch, Option.map_map]
    rfl
  rw [taken?_shared (exclusive_eq_false hs) hb,
    map_alone chooses_branch (·.2.getD i 0)
      (fun w l => (l.minOn? (mismatch w.1 w.2)).map (·.2.getD i 0)) hchoice]
  rfl

theorem getD_foldl_raiseBy (hs : s ≠ .add) (hb : skeleton.records.get? id = some b)
    (others : List (Table BranchSite (List Hits))) {h : List Hits} {i : Nat} (hi : i < h.length) :
    (others.foldl (fun h o => raiseBy .branches s h (taken? .branches s skeleton o id)) h).getD i 0 =
      (others.map fun o => takenArm o b (skeleton.count id).length i).foldl max (h.getD i 0) := by
  induction others generalizing h with
  | nil => rfl
  | cons o others ih =>
    rw [List.foldl_cons, ih (by rwa [length_raiseBy]), getD_raiseBy hs hi, taken?_branch hs hb]
    rfl

/-- The reference for branches, arm by arm. -/
theorem get?_hits_raised_branches (hs : s ≠ .add) (hc : skeleton.Counted)
    (hb : skeleton.records.get? id = some b) (others : List (Table BranchSite (List Hits))) :
    (raised .branches s skeleton others).hits.get? id =
      some ((skeleton.count id).mapIdx fun i h =>
        (others.map fun o => takenArm o b (skeleton.count id).length i).foldl max h) := by
  rw [get?_hits_raised, hc.get? hb, Option.map_some, Option.some_inj]
  apply List.ext_getElem
  · rw [length_foldl_raiseBy, List.length_mapIdx]
  · intro i hi _
    rw [length_foldl_raiseBy] at hi
    have harm := getD_foldl_raiseBy hs hb others hi
    simpa [hi, length_foldl_raiseBy] using harm

theorem get?_hits_table_branches {sources : List FileCoverage} (hs : s ≠ .add) (p : Split sources)
    (hc : p.source.branches.Counted) (hb : p.source.branches.records.get? id = some b) :
    (p.table .branches s (·.branches)).hits.get? id =
      some ((p.source.branches.count id).mapIdx fun i h =>
        (p.others.map fun o =>
          takenArm o.branches b (p.source.branches.count id).length i).foldl max h) := by
  rw [Split.table, get?_hits_raised_branches hs hc hb]
  simp only [List.map_map]
  rfl

end Branches

/-- The counts of a file by the reference. A count of a statement is the highest of those its supplier
and the others have for it, with the one exception of a directive that ran; a count of a function has
no exception; a branch takes one branch of each other source and is raised arm by arm. -/
structure Reconciled (s : Strategy) (sources : List FileCoverage) (f : FileCoverage) : Prop where
  statements : ∃ p : Split sources, p.Supplies s (·.statements) ∧
    f.statements.records = p.source.statements.records ∧
    ∀ id site, f.statements.records.get? id = some site →
      f.statements.hits.get? id = some (ruled p.others f id
        ((p.others.map fun o => highest .statements o.statements site.start).foldl max
          (p.source.statements.count id)))
  functions : ∃ p : Split sources, p.Supplies s (·.functions) ∧
    f.functions.records = p.source.functions.records ∧
    ∀ id site, f.functions.records.get? id = some site →
      f.functions.hits.get? id =
        some ((p.others.map fun o => highest .functions o.functions site.declaration.start).foldl
          max (p.source.functions.count id))
  branches : ∃ p : Split sources, p.Supplies s (·.branches) ∧
    f.branches.records = p.source.branches.records ∧
    ∀ id site, f.branches.records.get? id = some site →
      f.branches.hits.get? id = some ((p.source.branches.count id).mapIdx fun i h =>
        (p.others.map fun o =>
          takenArm o.branches site (p.source.branches.count id).length i).foldl max h)

theorem reconciled_assemble {sources : List FileCoverage} (hs : s ≠ .add)
    (hvalid : ∀ f ∈ sources, f.Valid) {p q r : Split sources} (hp : p.Supplies s (·.statements))
    (hq : q.Supplies s (·.functions)) (hr : r.Supplies s (·.branches)) :
    Reconciled s sources (countDirective p.others (assemble path s p q r)) where
  statements := by
    refine ⟨p, hp, ?_, fun id site hsite => ?_⟩
    · rw [records_countDirective, assemble_statements, Split.records_table]
    · rw [records_countDirective, assemble_statements, Split.records_table] at hsite
      have hc := (FileCoverage.valid_iff.1 (hvalid _ p.source_mem)).1
      rw [get?_hits_countDirective, ruled_countDirective, assemble_statements,
        get?_hits_table_plain RecordKind.plain_statements hs p hc hsite]
      rfl
  functions := by
    rw [countDirective_functions, assemble_functions, Split.records_table]
    refine ⟨q, hq, rfl, fun id site hsite => ?_⟩
    have hc := (FileCoverage.valid_iff.1 (hvalid _ q.source_mem)).2.1
    exact get?_hits_table_plain RecordKind.plain_functions hs q hc hsite
  branches := by
    rw [countDirective_branches, assemble_branches, Split.records_table]
    refine ⟨r, hr, rfl, fun id site hsite => ?_⟩
    have hc := (FileCoverage.valid_iff.1 (hvalid _ r.source_mem)).2.2
    exact get?_hits_table_branches hs r hc.counted hsite

/-- Unless counts are added, a path with at least two valid sources has its counts by the reference. -/
theorem counts_of_maps (l : List CoverageMap) (s : Strategy) (hs : s ≠ .add) (path : String)
    (h : 2 ≤ (validAt l path).length) :
    ∃ f, (maps l s).get? path = some f ∧ Reconciled s (validAt l path) f := by
  obtain ⟨p, q, r, hp, hq, hr, hget⟩ := get?_maps_of_two_valid s h
  exact ⟨_, hget, reconciled_assemble hs (fun f hf => valid_of_mem_validAt hf) hp hq hr⟩

theorem counts_of_maps_sample : Strategy.max ≠ .add ∧ 2 ≤ (validAt sample "/a.ts").length ∧
    ∃ f, (maps sample .max).get? "/a.ts" = some f ∧
      Reconciled .max (validAt sample "/a.ts") f :=
  ⟨by decide, by decide, counts_of_maps sample .max (by decide) "/a.ts" (by decide)⟩

/-- The directive, a statement found on its line, and arms raised by a branch of another kind. -/
example : ((maps sample .max).get? "/a.ts").map (fun f =>
    (f.statements.count 0, f.statements.count 1, f.branches.count 0)) = some (1, 5, [1, 6]) := by
  decide

end Merge
end Coverage

import Coverage.Proofs.Merge.Counts

/-! Two maps merged in both orders under `max`. A record that both results have gets one count, except
that a tie between the functions of two sources is broken by order, and a directive may hang on it. -/
namespace Coverage

namespace Table
variable {ρ η ω : Type} {kind : RecordKind ρ η ω} {t : Table ρ η} {i j : Id} {r u : ρ}

/-- No two records share a start. -/
def Distinct (kind : RecordKind ρ η ω) (t : Table ρ η) : Prop :=
  (t.records.entries.map fun e => kind.start e.2).Nodup

instance : Decidable (t.Distinct kind) := inferInstanceAs (Decidable (List.Nodup _))

theorem Distinct.id_eq (h : t.Distinct kind) (hi : t.records.get? i = some r)
    (hj : t.records.get? j = some u) (hs : kind.start r = kind.start u) : i = j := by
  have hone := Matching.filter_eq_singleton h (SortedMap.get?_eq_some_iff.1 hi)
  have hmem : (j, u) ∈ [(i, r)] := by
    rw [← hone, List.mem_filter]
    exact ⟨SortedMap.get?_eq_some_iff.1 hj, by simp [hs]⟩
  exact (congrArg Prod.fst (List.mem_singleton.1 hmem)).symm

end Table

/-- In every table each record has a start of its own. -/
structure FileCoverage.Distinct (f : FileCoverage) : Prop where
  statements : f.statements.Distinct .statements
  functions : f.functions.Distinct .functions
  branches : f.branches.Distinct .branches

instance (f : FileCoverage) : Decidable f.Distinct :=
  decidable_of_iff (f.statements.Distinct .statements ∧ f.functions.Distinct .functions ∧
      f.branches.Distinct .branches)
    ⟨fun h => ⟨h.1, h.2.1, h.2.2⟩, fun h => ⟨h.statements, h.functions, h.branches⟩⟩

namespace Merge
variable {ρ η ω : Type} {s : Strategy} {i j : Id}

open Matching Table

section Nearest
variable [Inhabited η] {kind : RecordKind ρ η ω} {t : Table ρ η} {r : ρ}

/-- A record with a start of its own is all that this start finds. -/
theorem nearest_eq_singleton (h : t.Distinct kind) (hr : t.records.get? i = some r) :
    nearest kind t (kind.start r) = [(r, t.count i)] := by
  have hmem : (i, r, t.count i) ∈ t.rows :=
    List.mem_map.2 ⟨(i, r), SortedMap.get?_eq_some_iff.1 hr, rfl⟩
  have hn : (t.rows.map fun e => kind.start e.2.1).Nodup := by
    simpa [rows, Distinct, Function.comp_def] using h
  have hexact : (t.rows.filter fun e => kind.start e.2.1 == kind.start r) = [(i, r, t.count i)] :=
    filter_eq_singleton hn hmem
  simp only [nearest, hexact]
  rfl

end Nearest

section Plain
variable {kind : RecordKind ρ Hits Unit} {t o : Table ρ Hits} {r u : ρ}

theorem highest_eq_count (h : t.Distinct kind) (hr : t.records.get? i = some r) :
    highest kind t (kind.start r) = t.count i := by
  rw [highest, nearest_eq_singleton h hr]
  rfl

/-- Two tables that raise each other agree on a record that both have. -/
theorem get?_hits_raised_plain_comm (hk : kind.Plain) (hs : s ≠ .add) (ht : t.Counted)
    (ho : o.Counted) (hdt : t.Distinct kind) (hdo : o.Distinct kind)
    (hi : t.records.get? i = some r) (hj : o.records.get? j = some u)
    (hstart : kind.start r = kind.start u) :
    (raised kind s t [o]).hits.get? i = (raised kind s o [t]).hits.get? j := by
  have hleft : highest kind o (kind.start r) = o.count j := by
    rw [hstart, highest_eq_count hdo hj]
  have hright : highest kind t (kind.start u) = t.count i := by
    rw [← hstart, highest_eq_count hdt hi]
  rw [get?_hits_raised_plain hk hs ht hi, get?_hits_raised_plain hk hs ho hj]
  simp only [List.map_cons, List.map_nil, List.foldl_cons, List.foldl_nil, hleft, hright]
  rw [Hits.max_comm]

/-- Something in the table ran, or something that it takes over from the other table did. -/
def RanWith (kind : RecordKind ρ Hits Unit) (t o : Table ρ Hits) : Prop :=
  ∃ id h, t.hits.get? id = some h ∧
    (0 < h ∨ ∃ r, t.records.get? id = some r ∧ 0 < highest kind o (kind.start r))

theorem Hits.max_pos {a b : Hits} : 0 < max a b ↔ 0 < a ∨ 0 < b := by
  simp only [UInt64.lt_iff_toNat_lt, Hits.toNat_max]
  omega

theorem exists_hits_raised_iff (hk : kind.Plain) (hs : s ≠ .add) :
    (∃ id h, (raised kind s t [o]).hits.get? id = some h ∧ 0 < h) ↔ RanWith kind t o := by
  refine exists_congr fun id => ?_
  rw [get?_hits_raised]
  simp only [List.foldl_cons, List.foldl_nil]
  cases hh : t.hits.get? id with
  | none => simp
  | some h =>
    cases hr : t.records.get? id with
    | none =>
      -- A count without a record asks for nothing, but counts as having run.
      simp [raiseBy, taken?_eq_none hr]
    | some r => simp [raiseBy_plain hk hs, taken?_plain hk hs hr, Hits.max_pos]

end Plain

section Branches
variable {t o : Table BranchSite (List Hits)} {b c : BranchSite}

theorem takenArm_eq (h : t.Distinct .branches) (hb : t.records.get? i = some b)
    (hstart : c.span.start = b.span.start) (arms k : Nat) :
    takenArm t c arms k = (t.count i).getD k 0 := by
  have hnear : nearest .branches t c.span.start = [(b, t.count i)] := by
    rw [hstart]
    exact nearest_eq_singleton h hb
  rw [takenArm, takenBranch, hnear]
  rfl

theorem get?_hits_raised_branches_comm (hs : s ≠ .add) (ht : FileCoverage.ArmsCounted t)
    (ho : FileCoverage.ArmsCounted o) (hdt : t.Distinct .branches) (hdo : o.Distinct .branches)
    (hi : t.records.get? i = some b) (hj : o.records.get? j = some c)
    (hstart : b.span.start = c.span.start) (harms : b.arms.length = c.arms.length) :
    (raised .branches s t [o]).hits.get? i = (raised .branches s o [t]).hits.get? j := by
  have hlen : (t.count i).length = (o.count j).length := by
    rw [ht.length_count hi, ho.length_count hj, harms]
  rw [get?_hits_raised_branches hs ht.counted hi, get?_hits_raised_branches hs ho.counted hj,
    Option.some_inj]
  simp only [List.map_cons, List.map_nil, List.foldl_cons, List.foldl_nil,
    takenArm_eq hdo hj hstart, takenArm_eq hdt hi hstart.symm]
  apply List.ext_getElem
  · simpa using hlen
  · intro k hk hk'
    rw [List.length_mapIdx] at hk hk'
    simpa [List.getElem?_eq_getElem hk, List.getElem?_eq_getElem hk'] using Hits.max_comm _ _

end Branches

section Pair
variable {η : Type} {path : String} {a b f g : FileCoverage} {part : FileCoverage → Table ρ η}

/-- Of two sources the second supplies, unless the first is richer. -/
theorem supplies_pair {p : Split [a, b]} (hp : p.Supplies .max part) :
    (p.source = a ∧ p.others = [b] ∧ (part b).size < (part a).size) ∨
    p.source = b ∧ p.others = [a] ∧ (part a).size ≤ (part b).size := by
  obtain ⟨before, source, after, heq⟩ := p
  obtain ⟨hbefore, hafter⟩ := hp
  match before, heq with
  | [], heq =>
    cases heq
    exact .inl ⟨rfl, rfl, hafter b (by simp)⟩
  | [_], heq =>
    cases heq
    exact .inr ⟨rfl, rfl, hbefore a (by simp)⟩
  | _ :: _ :: before, heq => simp at heq

variable [Inhabited η]

/-- Both orders give the same table, except that two sources of one size raise each other. -/
theorem table_swap (kind : RecordKind ρ η ω) {p : Split [a, b]} {q : Split [b, a]}
    (hp : p.Supplies .max part) (hq : q.Supplies .max part) :
    ((part a).size ≠ (part b).size ∧ p.table kind .max part = q.table kind .max part) ∨
    (part a).size = (part b).size ∧ p.table kind .max part = raised kind .max (part b) [part a] ∧
      q.table kind .max part = raised kind .max (part a) [part b] := by
  simp only [Split.table]
  rcases supplies_pair hp with ⟨hps, hpo, hpn⟩ | ⟨hps, hpo, hpn⟩ <;>
    rcases supplies_pair hq with ⟨hqs, hqo, hqn⟩ | ⟨hqs, hqo, hqn⟩
  · omega
  · exact .inl ⟨by omega, by rw [hps, hpo, hqs, hqo]⟩
  · exact .inl ⟨by omega, by rw [hps, hpo, hqs, hqo]⟩
  · exact .inr ⟨by omega, by rw [hps, hpo]; rfl, by rw [hqs, hqo]; rfl⟩

theorem get?_hits_table_swap {kind : RecordKind ρ η ω} {p : Split [a, b]} {q : Split [b, a]} {r u : ρ}
    (hp : p.Supplies .max part) (hq : q.Supplies .max part) (ha : (part a).Distinct kind)
    (hb : (part b).Distinct kind) (hi : (p.table kind .max part).records.get? i = some r)
    (hj : (q.table kind .max part).records.get? j = some u) (hstart : kind.start r = kind.start u)
    (hcomm : (part b).records.get? i = some r → (part a).records.get? j = some u →
      (raised kind .max (part b) [part a]).hits.get? i =
        (raised kind .max (part a) [part b]).hits.get? j) :
    (p.table kind .max part).hits.get? i = (q.table kind .max part).hits.get? j := by
  rcases table_swap kind hp hq with ⟨_, heq⟩ | ⟨_, hpt, hqt⟩
  · have hd : (q.table kind .max part).Distinct kind := by
      rw [Distinct, Split.records_table]
      rcases supplies_pair hq with ⟨hs, _⟩ | ⟨hs, _⟩
      · rwa [hs]
      · rwa [hs]
    rw [heq] at hi ⊢
    rw [hd.id_eq hi hj hstart]
  · rw [hpt, records_raised] at hi
    rw [hqt, records_raised] at hj
    rw [hpt, hqt]
    exact hcomm hi hj

end Pair

/-- Two files have as many functions, and with those of one as the skeleton a function ran and with
those of the other none did. -/
def FunctionsDecide (f o : FileCoverage) : Prop :=
  f.functions.size = o.functions.size ∧
    (RanWith .functions f.functions o.functions ↔ ¬ RanWith .functions o.functions f.functions)

theorem functionsDecide_comm {f o : FileCoverage} : FunctionsDecide f o ↔ FunctionsDecide o f := by
  unfold FunctionsDecide
  grind

/-- The richer file has a directive and the other nothing on the first line, no statement has run even
with what it takes over, and it hangs on their functions whether anything ran. -/
structure OrderDecides (f o : FileCoverage) (id : Id) : Prop where
  richer : o.statements.size < f.statements.size
  directive : IsDirective f id
  absent : o.hasStatementOnLine 1 = false
  idle : ¬ RanWith .statements f.statements o.statements
  functions : FunctionsDecide f o

section Directive
variable {path : String} {a b f g o k : FileCoverage}

theorem functionRan_swap {q : Split [a, b]} {q' : Split [b, a]}
    (hq : q.Supplies .max (·.functions)) (hq' : q'.Supplies .max (·.functions))
    (hf : f.functions = q.table .functions .max (·.functions))
    (hg : g.functions = q'.table .functions .max (·.functions)) :
    (FunctionRan f ↔ ¬ FunctionRan g) ↔ FunctionsDecide a b := by
  rw [FunctionRan, FunctionRan, hf, hg, FunctionsDecide]
  rcases table_swap .functions hq hq' with ⟨hne, heq⟩ | ⟨hsize, hqt, hqt'⟩
  · -- One supplier in both orders, so the two tables of functions are one.
    have hno (x : Prop) : ¬ (x ↔ ¬ x) := fun h => by simp_all
    rw [heq]
    exact ⟨fun h => (hno _ h).elim, fun h => (hne h.1).elim⟩
  · rw [hqt, hqt', exists_hits_raised_iff RecordKind.plain_functions (by simp),
      exists_hits_raised_iff RecordKind.plain_functions (by simp)]
    simp only [hsize, true_and]
    grind

theorem ran_iff {h : Hits} (hi : f.statements.hits.get? i = some h) :
    (∃ id h, f.statements.hits.get? id = some h ∧ 0 < h) ↔ 0 < h ∨ StatementRan f i := by
  constructor
  · rintro ⟨id, c, hid, hc⟩
    by_cases he : id = i
    · subst he
      rw [hi, Option.some_inj] at hid
      exact .inl (hid ▸ hc)
    · exact .inr ⟨id, c, hid, he, hc⟩
  · rintro (hpos | ⟨id, c, hid, _, hc⟩)
    · exact ⟨i, h, hi, hpos⟩
    · exact ⟨id, c, hid, hc⟩

theorem directiveRuns_singleton : DirectiveRuns [o] f i ↔
    IsDirective f i ∧ o.hasStatementOnLine 1 = false ∧ (StatementRan f i ∨ FunctionRan f) := by
  constructor
  · rintro ⟨hd, ha, hr⟩
    exact ⟨hd, by simpa using ha, hr⟩
  · rintro ⟨hd, ha, hr⟩
    exact ⟨hd, by simpa using ha, hr⟩

/-- Files that differ in their functions alone. -/
theorem ruled_ne_iff (hstatements : f.statements = g.statements) (h : Hits) :
    ruled [o] f i h ≠ ruled [o] g i h ↔ IsDirective f i ∧ o.hasStatementOnLine 1 = false ∧
      ¬ (0 < h ∨ StatementRan f i) ∧ (FunctionRan f ↔ ¬ FunctionRan g) := by
  have hd : IsDirective g i ↔ IsDirective f i :=
    isDirective_congr (congrArg (·.records) hstatements.symm)
  have hr : StatementRan g i ↔ StatementRan f i := by
    rw [StatementRan, ← hstatements, StatementRan]
  have hne : ruled [o] f i h ≠ ruled [o] g i h ↔
      h = 0 ∧ ¬ (DirectiveRuns [o] f i ↔ DirectiveRuns [o] g i) := by
    unfold ruled
    by_cases hf : DirectiveRuns [o] f i <;> by_cases hg : DirectiveRuns [o] g i <;>
      by_cases h0 : h = 0 <;> simp [hf, hg, h0]
  rw [hne, directiveRuns_singleton, directiveRuns_singleton, hd, hr, UInt64.pos_iff_ne_zero]
  grind

/-- The case of one supplier `k` in both orders. -/
theorem ruled_ne_iff_orderDecides {u : Span} (hk : k.statements.Counted)
    (hi : k.statements.records.get? i = some u)
    (hf : f.statements = raised .statements .max k.statements [o.statements])
    (hg : g.statements = raised .statements .max k.statements [o.statements])
    (hricher : o.statements.size < k.statements.size)
    (hfunctions : (FunctionRan f ↔ ¬ FunctionRan g) ↔ FunctionsDecide k o) :
    (f.statements.hits.get? i).map (ruled [o] f i) ≠ (g.statements.hits.get? i).map (ruled [o] g i) ↔
      OrderDecides k o i := by
  have hrecords : f.statements.records = k.statements.records := by rw [hf, records_raised]
  have hcounted : f.statements.Counted := hf ▸ counted_raised hk
  have hcount := hcounted.get? (hrecords ▸ hi)
  have hidle : (0 < f.statements.count i ∨ StatementRan f i) ↔
      RanWith .statements k.statements o.statements := by
    rw [← ran_iff hcount, hf, exists_hits_raised_iff RecordKind.plain_statements (by simp)]
  rw [hg.trans hf.symm, hcount, Option.map_some, Option.map_some, Ne, Option.some_inj, ← Ne,
    ruled_ne_iff (hf.trans hg.symm), isDirective_congr hrecords, hidle, hfunctions]
  constructor
  · rintro ⟨hd, ha, hidle, hdecide⟩
    exact ⟨hricher, hd, ha, hidle, hdecide⟩
  · rintro ⟨_, hd, ha, hidle, hdecide⟩
    exact ⟨hd, ha, hidle, hdecide⟩

theorem hasStatementOnLine_of_start {u : Span} (hi : f.statements.records.get? i = some u)
    (hu : u.start = .origin) : f.hasStatementOnLine 1 = true := by
  have hmem : u ∈ f.statements.records.values :=
    List.mem_map.2 ⟨(i, u), SortedMap.get?_eq_some_iff.1 hi, rfl⟩
  rw [FileCoverage.hasStatementOnLine, List.any_eq_true]
  exact ⟨u, hmem, by rw [hu]; rfl⟩

/-- A file with a statement where this one starts leaves it no directive to count. -/
theorem ruled_of_shared {u v : Span} (hi : f.statements.records.get? i = some u)
    (hj : o.statements.records.get? j = some v) (hstart : u.start = v.start) (h : Hits) :
    ruled [o] f i h = h := by
  have hno : ¬ DirectiveRuns [o] f i := by
    rw [directiveRuns_singleton]
    rintro ⟨hd, ha, _⟩
    obtain ⟨w, hw, horigin⟩ := hd.starts
    rw [hi, Option.some_inj] at hw
    have hon := hasStatementOnLine_of_start hj (by rw [← hstart, hw, horigin])
    simp [hon] at ha
  simp [ruled, hno]

end Directive

/-- Two files give one count to each record that both have: a statement or a function by its start, a
branch by its start and number of arms. Only the statements of `except` have two counts. -/
structure AgreeExcept (except : Id → Prop) (f g : FileCoverage) : Prop where
  statements : ∀ i j u v, f.statements.records.get? i = some u →
    g.statements.records.get? j = some v → u.start = v.start →
    (f.statements.hits.get? i ≠ g.statements.hits.get? j ↔ except i)
  functions : ∀ i j u v, f.functions.records.get? i = some u →
    g.functions.records.get? j = some v → u.declaration.start = v.declaration.start →
    f.functions.hits.get? i = g.functions.hits.get? j
  branches : ∀ i j u v, f.branches.records.get? i = some u →
    g.branches.records.get? j = some v → u.span.start = v.span.start →
    u.arms.length = v.arms.length → f.branches.hits.get? i = g.branches.hits.get? j

section Agree
variable {path : String} {a b f g : FileCoverage} {except : Id → Prop}

theorem agreeExcept_self (hd : f.Distinct) (hno : ∀ i, ¬ except i) : AgreeExcept except f f where
  statements i j u v hi hj hstart := by
    rw [hd.statements.id_eq hi hj hstart]
    simp [hno]
  functions i j u v hi hj hstart := by
    rw [hd.functions.id_eq hi hj hstart]
  branches i j u v hi hj hstart _ := by
    rw [hd.branches.id_eq hi hj hstart]

variable {p q r : Split [a, b]} {p' q' r' : Split [b, a]}

/-- One supplier in both orders. -/
theorem statements_swap_of_richer {k o : FileCoverage} (hk : k.Valid ∧ k.Distinct)
    (hps : p.source = k ∧ p.others = [o]) (hps' : p'.source = k ∧ p'.others = [o])
    (hricher : o.statements.size < k.statements.size)
    (hfunctions : (FunctionRan (assemble path .max p q r) ↔
      ¬ FunctionRan (assemble path .max p' q' r')) ↔ FunctionsDecide k o) {u v : Span}
    (hi : p.source.statements.records.get? i = some u)
    (hj : p'.source.statements.records.get? j = some v) (hstart : u.start = v.start) :
    (countDirective p.others (assemble path .max p q r)).statements.hits.get? i ≠
        (countDirective p'.others (assemble path .max p' q' r')).statements.hits.get? j ↔
      OrderDecides k o i := by
  obtain ⟨hps, hpo⟩ := hps
  obtain ⟨hps', hpo'⟩ := hps'
  rw [hps] at hi
  rw [hps'] at hj
  have hij := hk.2.statements.id_eq hi hj hstart
  subst hij
  rw [get?_hits_countDirective, get?_hits_countDirective, hpo, hpo']
  exact ruled_ne_iff_orderDecides (FileCoverage.valid_iff.1 hk.1).1 hi
    (by simp [Split.table, hps, hpo]) (by simp [Split.table, hps', hpo']) hricher hfunctions

/-- Two suppliers of one size, which raise each other. Both have the statement, so none is a directive
that the other lacks. -/
theorem statements_swap_of_tie (ha : a.Valid ∧ a.Distinct) (hb : b.Valid ∧ b.Distinct)
    (hp : p.Supplies .max (·.statements)) (hp' : p'.Supplies .max (·.statements))
    (hps : p.source = b ∧ p.others = [a]) (hps' : p'.source = a ∧ p'.others = [b]) {u v : Span}
    (hi : p.source.statements.records.get? i = some u)
    (hj : p'.source.statements.records.get? j = some v) (hstart : u.start = v.start) :
    (countDirective p.others (assemble path .max p q r)).statements.hits.get? i =
      (countDirective p'.others (assemble path .max p' q' r')).statements.hits.get? j := by
  have hbase := get?_hits_table_swap hp hp' ha.2.statements hb.2.statements
    (by rwa [Split.records_table]) (by rwa [Split.records_table]) hstart fun hi hj =>
      get?_hits_raised_plain_comm RecordKind.plain_statements (by simp)
        (FileCoverage.valid_iff.1 hb.1).1 (FileCoverage.valid_iff.1 ha.1).1
        hb.2.statements ha.2.statements hi hj hstart
  have hleft : ruled p.others (assemble path .max p q r) i = id := by
    rw [hps.2]
    rw [hps'.1] at hj
    exact funext (ruled_of_shared (by simpa using hi) hj hstart)
  have hright : ruled p'.others (assemble path .max p' q' r') j = id := by
    rw [hps'.2]
    rw [hps.1] at hi
    exact funext (ruled_of_shared (by simpa using hj) hi hstart.symm)
  rw [get?_hits_countDirective, get?_hits_countDirective, hleft, hright, assemble_statements,
    assemble_statements, hbase]

theorem statements_swap (ha : a.Valid ∧ a.Distinct) (hb : b.Valid ∧ b.Distinct)
    (hp : p.Supplies .max (·.statements)) (hq : q.Supplies .max (·.functions))
    (hp' : p'.Supplies .max (·.statements)) (hq' : q'.Supplies .max (·.functions)) {u v : Span}
    (hi : p.source.statements.records.get? i = some u)
    (hj : p'.source.statements.records.get? j = some v) (hstart : u.start = v.start) :
    (countDirective p.others (assemble path .max p q r)).statements.hits.get? i ≠
        (countDirective p'.others (assemble path .max p' q' r')).statements.hits.get? j ↔
      OrderDecides a b i ∨ OrderDecides b a i := by
  have hfunctions := functionRan_swap (f := assemble path .max p q r)
    (g := assemble path .max p' q' r') hq hq' rfl rfl
  have hricher {k o : FileCoverage} (h : k.statements.size ≤ o.statements.size) :
      ¬ OrderDecides k o i := fun hd => Nat.not_lt.2 h hd.richer
  rcases supplies_pair hp with ⟨hps, hpo, hpn⟩ | ⟨hps, hpo, hpn⟩ <;>
    rcases supplies_pair hp' with ⟨hps', hpo', hpn'⟩ | ⟨hps', hpo', hpn'⟩
  · omega
  · rw [statements_swap_of_richer ha ⟨hps, hpo⟩ ⟨hps', hpo'⟩ hpn hfunctions hi hj hstart]
    exact (or_iff_left (hricher hpn')).symm
  · rw [statements_swap_of_richer hb ⟨hps, hpo⟩ ⟨hps', hpo'⟩ hpn'
      (hfunctions.trans functionsDecide_comm) hi hj hstart]
    exact (or_iff_right (hricher hpn)).symm
  · refine iff_of_false (fun h => h ?_) (by simp [hricher hpn, hricher hpn'])
    exact statements_swap_of_tie ha hb hp hp' ⟨hps, hpo⟩ ⟨hps', hpo'⟩ hi hj hstart

theorem agreeExcept_pair (ha : a.Valid ∧ a.Distinct) (hb : b.Valid ∧ b.Distinct)
    (hp : p.Supplies .max (·.statements)) (hq : q.Supplies .max (·.functions))
    (hr : r.Supplies .max (·.branches)) (hp' : p'.Supplies .max (·.statements))
    (hq' : q'.Supplies .max (·.functions)) (hr' : r'.Supplies .max (·.branches)) :
    AgreeExcept (fun i => OrderDecides a b i ∨ OrderDecides b a i)
      (countDirective p.others (assemble path .max p q r))
      (countDirective p'.others (assemble path .max p' q' r')) where
  statements i j u v hi hj hstart := by
    rw [records_countDirective, assemble_statements, Split.records_table] at hi hj
    exact statements_swap ha hb hp hq hp' hq' hi hj hstart
  functions i j u v hi hj hstart := by
    rw [countDirective_functions] at hi hj ⊢
    rw [countDirective_functions]
    refine get?_hits_table_swap hq hq' ha.2.functions hb.2.functions hi hj hstart fun hi hj => ?_
    exact get?_hits_raised_plain_comm RecordKind.plain_functions (by simp)
      (FileCoverage.valid_iff.1 hb.1).2.1 (FileCoverage.valid_iff.1 ha.1).2.1
      hb.2.functions ha.2.functions hi hj hstart
  branches i j u v hi hj hstart harms := by
    rw [countDirective_branches] at hi hj ⊢
    rw [countDirective_branches]
    refine get?_hits_table_swap hr hr' ha.2.branches hb.2.branches hi hj hstart fun hi hj => ?_
    exact get?_hits_raised_branches_comm (by simp)
      (FileCoverage.valid_iff.1 hb.1).2.2 (FileCoverage.valid_iff.1 ha.1).2.2
      hb.2.branches ha.2.branches hi hj hstart harms

theorem validAt_pair {m n : CoverageMap} (hm : m.get? path = some a) (hn : n.get? path = some b)
    (ha : a.Valid) (hb : b.Valid) : validAt [m, n] path = [a, b] := by
  simp [validAt, sourcesAt, hm, hn, ha, hb]

theorem get?_maps_of_pair {l : List CoverageMap} (h : validAt l path = [a, b]) (s : Strategy) :
    ∃ p q r : Split [a, b],
      p.Supplies s (·.statements) ∧ q.Supplies s (·.functions) ∧ r.Supplies s (·.branches) ∧
      (maps l s).get? path = some (countDirective p.others (assemble path s p q r)) := by
  rw [← h]
  exact get?_maps_of_two_valid s (by simp [h])

theorem get?_maps_of_one {m n : CoverageMap} (hm : m.get? path = some f) (hn : n.get? path = none)
    (hf : f.Valid) (s : Strategy) :
    (maps [m, n] s).get? path = some f ∧ (maps [n, m] s).get? path = some f := by
  rw [get?_maps, get?_maps]
  constructor <;> exact file?_of_one_valid (by simp [sourcesAt, hm, hn, hf])

end Agree

/-- Two maps under `max` in both orders. The results agree on every record that both have, except on a
directive for which the order decides. -/
theorem order_of_maps (m n : CoverageMap) (hm : ∀ f ∈ m.values, f.Valid ∧ f.Distinct)
    (hn : ∀ f ∈ n.values, f.Valid ∧ f.Distinct) (path : String) (f g : FileCoverage)
    (hf : (maps [m, n] .max).get? path = some f) (hg : (maps [n, m] .max).get? path = some g) :
    AgreeExcept (fun i => ∃ a b, m.get? path = some a ∧ n.get? path = some b ∧
      (OrderDecides a b i ∨ OrderDecides b a i)) f g := by
  have hvalue {l : CoverageMap} {a : FileCoverage} (h : l.get? path = some a) : a ∈ l.values :=
    List.mem_map.2 ⟨(path, a), SortedMap.get?_eq_some_iff.1 h, rfl⟩
  cases ha : m.get? path with
  | none =>
    cases hb : n.get? path with
    | none =>
      rw [get?_maps] at hf
      simp [sourcesAt, ha, hb, file?_nil] at hf
    | some b =>
      obtain ⟨hvalid, hdistinct⟩ := hn b (hvalue hb)
      obtain ⟨hnm, hmn⟩ := get?_maps_of_one hb ha hvalid .max
      rw [hmn] at hf
      rw [hnm] at hg
      cases hf
      cases hg
      exact agreeExcept_self hdistinct (by simp)
  | some a =>
    have hva := hm a (hvalue ha)
    cases hb : n.get? path with
    | none =>
      obtain ⟨hmn, hnm⟩ := get?_maps_of_one ha hb hva.1 .max
      rw [hmn] at hf
      rw [hnm] at hg
      cases hf
      cases hg
      exact agreeExcept_self hva.2 (by simp)
    | some b =>
      have hvb := hn b (hvalue hb)
      obtain ⟨p, q, r, hp, hq, hr, hget⟩ :=
        get?_maps_of_pair (validAt_pair ha hb hva.1 hvb.1) .max
      obtain ⟨p', q', r', hp', hq', hr', hget'⟩ :=
        get?_maps_of_pair (validAt_pair hb ha hvb.1 hva.1) .max
      rw [hf, Option.some_inj] at hget
      rw [hg, Option.some_inj] at hget'
      rw [hget, hget']
      simpa using agreeExcept_pair hva hvb hp hq hr hp' hq' hr'

/-- A directive that did not run, and a function that did. -/
def loading : CoverageMap := .ofList [("/a.ts", {
  path := "/a.ts"
  statements := ⟨.ofList [(0, .ofNumbers 1 0 1 12)], .ofList [(0, 0)]⟩
  functions := ⟨.ofList [(0, ⟨"load", .ofNumbers 5 0 5 10, .ofNumbers 5 10 6 1, 5⟩)],
    .ofList [(0, 3)]⟩
  branches := ∅ })]

/-- No statements, and another function that did not run. -/
def saving : CoverageMap := .ofList [("/a.ts", {
  path := "/a.ts"
  statements := ∅
  functions := ⟨.ofList [(0, ⟨"save", .ofNumbers 7 0 7 10, .ofNumbers 7 10 8 1, 7⟩)],
    .ofList [(0, 0)]⟩
  branches := ∅ })]

theorem order_of_maps_sample : (∀ f ∈ loading.values, f.Valid ∧ f.Distinct) ∧
    (∀ f ∈ saving.values, f.Valid ∧ f.Distinct) ∧
    ∃ f g, (maps [loading, saving] .max).get? "/a.ts" = some f ∧
      (maps [saving, loading] .max).get? "/a.ts" = some g ∧
      AgreeExcept (fun i => ∃ a b, loading.get? "/a.ts" = some a ∧ saving.get? "/a.ts" = some b ∧
        (OrderDecides a b i ∨ OrderDecides b a i)) f g := by
  obtain ⟨f, hf⟩ : ∃ f, (maps [loading, saving] .max).get? "/a.ts" = some f :=
    Option.isSome_iff_exists.1 (by decide)
  obtain ⟨g, hg⟩ : ∃ g, (maps [saving, loading] .max).get? "/a.ts" = some g :=
    Option.isSome_iff_exists.1 (by decide)
  exact ⟨by decide, by decide, f, g, hf, hg,
    order_of_maps loading saving (by decide) (by decide) "/a.ts" f g hf hg⟩

/-- The one statement of both results has not run when the functions are those of the second map, and
has when they are those of the first. -/
theorem directive_count_of_swap : (∀ f ∈ loading.values, f.Valid ∧ f.Distinct) ∧
    (∀ f ∈ saving.values, f.Valid ∧ f.Distinct) ∧
    ∃ f g u, (maps [loading, saving] .max).get? "/a.ts" = some f ∧
      (maps [saving, loading] .max).get? "/a.ts" = some g ∧
      f.statements.records.get? 0 = some u ∧ g.statements.records.get? 0 = some u ∧
      f.statements.hits.get? 0 = some 0 ∧ g.statements.hits.get? 0 = some 1 := by
  obtain ⟨f, hf⟩ : ∃ f, (maps [loading, saving] .max).get? "/a.ts" = some f :=
    Option.isSome_iff_exists.1 (by decide)
  obtain ⟨g, hg⟩ : ∃ g, (maps [saving, loading] .max).get? "/a.ts" = some g :=
    Option.isSome_iff_exists.1 (by decide)
  have hidle : ((maps [loading, saving] .max).get? "/a.ts").map (fun f =>
      (f.statements.records.get? 0, f.statements.hits.get? 0)) =
      some (some (.ofNumbers 1 0 1 12), some 0) := by decide
  have hran : ((maps [saving, loading] .max).get? "/a.ts").map (fun f =>
      (f.statements.records.get? 0, f.statements.hits.get? 0)) =
      some (some (.ofNumbers 1 0 1 12), some 1) := by decide
  simp only [hf, Option.map_some, Option.some_inj, Prod.mk.injEq] at hidle
  simp only [hg, Option.map_some, Option.some_inj, Prod.mk.injEq] at hran
  exact ⟨by decide, by decide, f, g, _, hf, hg, hidle.1, hran.1, hidle.2, hran.2⟩

end Merge
end Coverage

import Coverage.Proofs.Merge.Structure

/-! Merging in two goes. A merged prefix stands for its maps: whoever would supply the structure of all
maps supplies it, or has supplied it to the prefix. -/
namespace Coverage

namespace Table.SameShape
variable {ρ η : Type} {t u v : Table ρ η}

theorem symm (h : t.SameShape u) : u.SameShape t := ⟨h.records.symm, h.ids.symm⟩

theorem trans (h : t.SameShape u) (h' : u.SameShape v) : t.SameShape v :=
  ⟨h.records.trans h'.records, h.ids.trans h'.ids⟩

theorem size_eq (h : t.SameShape u) : t.size = u.size := congrArg SortedMap.size h.records

end Table.SameShape

/-- The same records, counts under the same ids, and as many counts for each branch. -/
structure FileCoverage.SameShape (f g : FileCoverage) : Prop where
  statements : f.statements.SameShape g.statements
  functions : f.functions.SameShape g.functions
  branches : f.branches.SameShape g.branches
  arms : ∀ id, (f.branches.hits.get? id).map List.length = (g.branches.hits.get? id).map List.length

theorem FileCoverage.SameShape.rfl {f : FileCoverage} : f.SameShape f :=
  ⟨.rfl, .rfl, .rfl, fun _ => Eq.refl _⟩

namespace Merge
variable {ρ η : Type} {s : Strategy} {path : String} {sources before first rest : List FileCoverage}
  {part : FileCoverage → Table ρ η} {f g : FileCoverage}

/-- Of two suppliers neither is after the other. -/
theorem Split.Supplies.not_after {sources' : List FileCoverage} {p : Split sources}
    {q : Split sources'} (hp : p.Supplies s part) (hq : q.Supplies s part)
    (hafter : q.source ∈ p.after) : p.source ∉ q.before := by
  intro hbefore
  cases s with
  | max => exact Nat.not_lt.2 (hq.1 _ hbefore) (hp.2 _ hafter)
  | add => exact Nat.not_lt.2 (hq.1 _ hbefore) (hp.2 _ hafter)
  | preferFirst =>
    rw [show q.before = [] from hq] at hbefore
    simp at hbefore
  | preferLast =>
    rw [show p.after = [] from hp] at hafter
    simp at hafter

theorem Split.Supplies.source_eq {p q : Split sources} (hp : p.Supplies s part)
    (hq : q.Supplies s part) : p.source = q.source := by
  have hno := hp.not_after hq
  have hno' := hq.not_after hp
  obtain ⟨before, source, after, heq⟩ := p
  obtain ⟨before', source', after', heq'⟩ := q
  rcases List.append_eq_append_iff.1 (heq.symm.trans heq') with ⟨m, hm, hsource⟩ | ⟨m, hm, hsource⟩
  · cases m with
    | nil => exact (List.cons.inj hsource).1
    | cons x m =>
      obtain ⟨rfl, rfl⟩ := List.cons.inj hsource
      exact (hno (by simp) (by simp [hm])).elim
  · cases m with
    | nil => exact (List.cons.inj hsource).1.symm
    | cons x m =>
      obtain ⟨rfl, rfl⟩ := List.cons.inj hsource
      exact (hno' (by simp) (by simp [hm])).elim

/-- A source with as many records as the supplier of a prefix stands for the prefix: it supplies where
this would supply, and otherwise one of the rest does. -/
theorem supplier_of_two_goes {p₀ : Split first} (h₀ : p₀.Supplies s part)
    (hsize : (part g).size = (part p₀.source).size) {p : Split (g :: rest)} (hp : p.Supplies s part)
    {q : Split (first ++ rest)} (hq : q.Supplies s part) :
    p.source = g ∧ q.source = p₀.source ∨ p.source = q.source := by
  obtain ⟨before, source, after, heq⟩ := p
  cases before with
  | nil =>
    obtain ⟨rfl, rfl⟩ := List.cons.inj heq
    have hlist : first ++ rest = p₀.before ++ p₀.source :: (p₀.after ++ rest) := by
      rw [← List.cons_append, ← List.append_assoc, ← p₀.eq]
    have hsupplies : Split.Supplies s part ⟨p₀.before, p₀.source, p₀.after ++ rest, hlist⟩ := by
      cases s with
      | max => exact ⟨h₀.1, List.forall_mem_append.2 ⟨h₀.2, fun o ho => hsize ▸ hp.2 o ho⟩⟩
      | add => exact ⟨h₀.1, List.forall_mem_append.2 ⟨h₀.2, fun o ho => hsize ▸ hp.2 o ho⟩⟩
      | preferFirst => exact h₀
      | preferLast => exact List.append_eq_nil_iff.2 ⟨h₀, hp⟩
    exact .inl ⟨rfl, hq.source_eq hsupplies⟩
  | cons b before =>
    obtain ⟨rfl, rfl⟩ := List.cons.inj heq
    have hlist : first ++ (before ++ source :: after) = (first ++ before) ++ source :: after :=
      (List.append_assoc ..).symm
    -- All of the prefix have at most as many records as its supplier, so at most as many as this one.
    have hfirst (hbefore : ∀ o ∈ g :: before, (part o).size ≤ (part source).size)
        (hmax : ∀ o ∈ first, (part o).size ≤ (part p₀.source).size) :
        ∀ o ∈ first ++ before, (part o).size ≤ (part source).size := by
      have hg := hbefore g List.mem_cons_self
      refine List.forall_mem_append.2 ⟨fun o ho => ?_, fun o ho => hbefore o (List.mem_cons_of_mem _ ho)⟩
      exact Nat.le_trans (hmax o ho) (hsize ▸ hg)
    have hsupplies : Split.Supplies s part ⟨first ++ before, source, after, hlist⟩ := by
      cases s with
      | max => exact ⟨hfirst hp.1 (Split.size_le_source h₀), hp.2⟩
      | add => exact ⟨hfirst hp.1 (Split.size_le_source h₀), hp.2⟩
      | preferFirst => exact (List.cons_ne_nil _ _ hp).elim
      | preferLast => exact hp
    exact .inr (hq.source_eq hsupplies).symm

variable {l l' : List CoverageMap}

/-- Only the valid sources count and, when there are none, the first source. -/
theorem file?_congr {sources' : List FileCoverage}
    (hvalid : sources.filter (·.Valid) = sources'.filter (·.Valid))
    (hhead : sources.head? = sources'.head?) : file? path sources s = file? path sources' s := by
  rw [file?, file?, hvalid, hhead]

theorem sameShape_of_suppliers {t u : Table ρ η} {p₀ : Split first} (h₀ : p₀.Supplies s part)
    (hg : (part g).SameShape (part p₀.source)) {p : Split (g :: rest)} (hp : p.Supplies s part)
    (ht : t.SameShape (part p.source)) {q : Split (first ++ rest)} (hq : q.Supplies s part)
    (hu : u.SameShape (part q.source)) : t.SameShape u := by
  rcases supplier_of_two_goes h₀ hg.size_eq hp hq with ⟨hpg, hqp⟩ | hpq
  · rw [hpg] at ht
    rw [hqp] at hu
    exact ht.trans (hg.trans hu.symm)
  · rw [hpq] at ht
    exact ht.trans hu.symm

theorem sameShape_of_structured (hg : Structured s first g) (hf : Structured s (g :: rest) f)
    {f' : FileCoverage} (hf' : Structured s (first ++ rest) f') : f.SameShape f' := by
  obtain ⟨p₀, hp₀, hgp⟩ := hg.statements
  obtain ⟨q₀, hq₀, hgq⟩ := hg.functions
  obtain ⟨r₀, hr₀, hgr, hgarms⟩ := hg.branches
  obtain ⟨p, hp, hfp⟩ := hf.statements
  obtain ⟨q, hq, hfq⟩ := hf.functions
  obtain ⟨r, hr, hfr, hfarms⟩ := hf.branches
  obtain ⟨p', hp', hfp'⟩ := hf'.statements
  obtain ⟨q', hq', hfq'⟩ := hf'.functions
  obtain ⟨r', hr', hfr', hfarms'⟩ := hf'.branches
  refine ⟨sameShape_of_suppliers hp₀ hgp hp hfp hp' hfp', sameShape_of_suppliers hq₀ hgq hq hfq hq' hfq',
    sameShape_of_suppliers hr₀ hgr hr hfr hr' hfr', fun id => ?_⟩
  rcases supplier_of_two_goes hr₀ hgr.size_eq hr hr' with ⟨hrg, hrr⟩ | hrr
  · rw [hfarms, hrg, hgarms, ← hrr, hfarms']
  · rw [hfarms, hrr, hfarms']

theorem rel_sameShape_rfl (x : Option FileCoverage) : Option.Rel FileCoverage.SameShape x x := by
  cases x with
  | none => exact .none
  | some f => exact .some .rfl

theorem isSome_eq_of_rel {x y : Option FileCoverage} (h : Option.Rel FileCoverage.SameShape x y) :
    x.isSome = y.isSome := by
  cases h <;> rfl

/-- Where the prefix has nothing valid, only its first source can matter. -/
theorem get?_maps_of_none_valid (h : validAt l path = []) (s : Strategy) (l' : List CoverageMap) :
    (maps (maps l s :: l') s).get? path = (maps (l ++ l') s).get? path := by
  rw [get?_maps, get?_maps, sourcesAt_cons, sourcesAt_append, get?_maps, file?_of_none_valid h]
  apply file?_congr
  · have hnone : (sourcesAt l path).filter (·.Valid) = [] := h
    cases hl : sourcesAt l path with
    | nil => rfl
    | cons a r =>
      rw [hl, List.filter_cons] at hnone
      split at hnone
      · simp at hnone
      · next ha => simp [ha, hnone]
  · cases sourcesAt l path <;> rfl

theorem rel_sameShape_of_two_goes (l l' : List CoverageMap) (s : Strategy) (path : String) :
    Option.Rel FileCoverage.SameShape ((maps (maps l s :: l') s).get? path)
      ((maps (l ++ l') s).get? path) := by
  by_cases hnone : validAt l path = []
  · rw [get?_maps_of_none_valid hnone]
    exact rel_sameShape_rfl _
  · obtain ⟨g, hg, hvalid, hgs⟩ := get?_maps_of_valid s hnone
    have hcons := validAt_cons_of_valid (l := l') hg hvalid
    have happend : validAt (l ++ l') path = _ := validAt_append
    have hone : validAt (maps l s :: l') path ≠ [] := by simp [hcons]
    have hall : validAt (l ++ l') path ≠ [] := by simp [happend, hnone]
    obtain ⟨f, hf, _, hfs⟩ := get?_maps_of_valid s hone
    obtain ⟨f', hf', _, hfs'⟩ := get?_maps_of_valid s hall
    rw [hcons] at hfs
    rw [happend] at hfs'
    rw [hf, hf']
    exact .some (sameShape_of_structured hgs hfs hfs')

/-- Merging the merged prefix of a list with the rest gives the paths of merging all at once, and files
of the same shape. -/
theorem shape_of_two_goes (l l' : List CoverageMap) (s : Strategy) :
    (maps (maps l s :: l') s).paths = (maps (l ++ l') s).paths ∧
    ∀ path, Option.Rel FileCoverage.SameShape ((maps (maps l s :: l') s).get? path)
      ((maps (l ++ l') s).get? path) := by
  refine ⟨SortedMap.keys_eq_of_isSome_get? fun path => ?_, rel_sameShape_of_two_goes l l' s⟩
  exact isSome_eq_of_rel (rel_sameShape_of_two_goes l l' s path)

end Merge
end Coverage

import Coverage.Proofs.Merge.Lift
import Coverage.Proofs.Merge.Structure

/-! Under `max` a merged file absorbs the files it was made of. Merged with one of them again it may
supply the structure or take it from that file, which comes to the same. -/
namespace Coverage

/-- Every statement and function has a start of its own, and every branch a signature of its own. -/
structure FileCoverage.Separated (f : FileCoverage) : Prop where
  statements : f.statements.Distinct .statements
  functions : f.functions.Distinct .functions
  branches : (f.branches.records.entries.map fun e => e.2.signature).Nodup

instance (f : FileCoverage) : Decidable f.Separated :=
  decidable_of_iff (f.statements.Distinct .statements ∧ f.functions.Distinct .functions ∧
      (f.branches.records.entries.map fun e => e.2.signature).Nodup)
    ⟨fun h => ⟨h.1, h.2.1, h.2.2⟩, fun h => ⟨h.statements, h.functions, h.branches⟩⟩

namespace Merge
variable {ρ η ω : Type} {path : String} {a b f m : FileCoverage}
  {sources sources' others : List FileCoverage} {part : FileCoverage → Table ρ η}

open Matching

theorem lifted_countDirective (others : List FileCoverage) (f : FileCoverage) :
    LiftedBy (fun h => [h]) (ruled others f) f.statements (countDirective others f).statements where
  records := records_countDirective
  hits _ := get?_hits_countDirective
  atMost i h := by
    refine ⟨rfl, fun k hk => ?_⟩
    obtain rfl : k = 0 := by simpa using hk
    exact le_ruled h
  unrecorded i h hi := by
    refine if_neg fun hc => ?_
    obtain ⟨u, hu, _⟩ := hc.2.directive.starts
    simp [hi] at hu

/-- Where all others have the same statements none of them lacks a directive. -/
theorem countDirective_of_shared (h : ∀ o ∈ others, o.statements.records = f.statements.records) :
    countDirective others f = f := by
  refine countDirective_of_not_runs fun i hruns => ?_
  obtain ⟨o, ho, hno⟩ := hruns.absent
  obtain ⟨u, hu, hstart⟩ := hruns.directive.starts
  rw [hasStatementOnLine_of_start ((h o ho).symm ▸ hu) hstart] at hno
  simp at hno

/-- Who supplies and who else is there when the file `m`, for which `p` was the split of the sources, is
merged again. -/
inductive Again (m : FileCoverage) (p : Split sources) (q : Split sources') : Prop
  /-- The file takes the place of its supplier. -/
  | replaced {o : FileCoverage} (supplier : q.source = m) (made : p.others = [o])
    (others : q.others = [o])
  /-- The file meets its supplier and supplies. -/
  | before (supplier : q.source = m) (others : q.others = [p.source])
  /-- The file meets its supplier, which supplies once more. -/
  | after (supplier : q.source = p.source) (others : q.others = [m])

section Table
variable {kind : RecordKind ρ η ω} {arms : η → List Hits} {g : Id → η → η} {p : Split sources}
  {q : Split sources'}

theorem table_again [Inhabited η] (hk : kind.Armed arms) (h : Again m p q)
    (hlift : LiftedBy arms g (p.table kind .max part) (part m))
    (hown : TakesOwn kind (part m) (part p.source)) (hown' : TakesOwn kind (part p.source) (part m)) :
    q.table kind .max part = part m := by
  obtain ⟨_, hraised⟩ := lifted_raised (u := part p.source) hk (p.others.map part)
  have hsource := hraised.trans hlift
  cases h with
  | replaced hq hpo hqo =>
    rw [Split.table, hpo] at hlift
    rw [Split.table, hq, hqo]
    exact raised_again hk hlift
  | before hq hqo =>
    rw [Split.table, hq, hqo]
    exact raised_of_lower hk hsource hown
  | after hq hqo =>
    rw [Split.table, hq, hqo]
    exact raised_of_higher hk hsource hown'

theorem table_again_plain {kind : RecordKind ρ Hits Unit} {part : FileCoverage → Table ρ Hits}
    {g : Id → Hits → Hits} (hk : kind.Plain) (h : Again m p q)
    (hlift : LiftedBy (fun h => [h]) g (p.table kind .max part) (part m))
    (hd : (part p.source).Distinct kind) : q.table kind .max part = part m := by
  have hrecords : (part m).records = (part p.source).records := by
    rw [hlift.records, Split.records_table]
  have hdm : (part m).Distinct kind := by rwa [Table.Distinct, hrecords]
  exact table_again hk.armed h hlift (takesOwn_of_distinct hk.chooses hrecords hd)
    (takesOwn_of_distinct hk.chooses hrecords.symm hdm)

theorem countDirective_of_again (h : Again m p q) (hm : m = countDirective p.others f)
    (hrecords : m.statements.records = p.source.statements.records) :
    countDirective q.others m = m := by
  cases h with
  | replaced _ hpo hqo =>
    rw [hqo, ← hpo, hm, countDirective_again]
  | before _ hqo =>
    rw [hqo]
    exact countDirective_of_shared (by simpa using hrecords.symm)
  | after _ hqo =>
    rw [hqo]
    exact countDirective_of_shared (by simp)

end Table

/-- The second sources are the file made of the first and one of these, whatever the kind of record. -/
def MergedAgain (sources sources' : List FileCoverage) (m : FileCoverage) : Prop :=
  ∀ {ρ η : Type} (part : FileCoverage → Table ρ η) (p : Split sources) (q : Split sources'),
    p.Supplies .max part → q.Supplies .max part → (part m).records = (part p.source).records →
      Again m p q

theorem mergedAgain_left : MergedAgain [a, b] [m, b] m := by
  intro ρ η part p q hp hq hrecords
  have hsize : (part m).size = (part p.source).size := congrArg SortedMap.size hrecords
  rcases supplies_pair hp with ⟨hps, hpo, hpn⟩ | ⟨hps, hpo, hpn⟩ <;>
    rcases supplies_pair hq with ⟨hqs, hqo, hqn⟩ | ⟨hqs, hqo, hqn⟩
  · exact .replaced hqs hpo hqo
  · rw [hps] at hsize
    omega
  · rw [hps] at hsize
    omega
  · exact .after (hqs.trans hps.symm) hqo

theorem mergedAgain_right : MergedAgain [a, b] [a, m] m := by
  intro ρ η part p q hp hq hrecords
  have hsize : (part m).size = (part p.source).size := congrArg SortedMap.size hrecords
  have hmax := Split.size_le_source hp a (by simp)
  rcases supplies_pair hq with ⟨hqs, hqo, hqn⟩ | ⟨hqs, hqo, hqn⟩
  · omega
  · rcases supplies_pair hp with ⟨hps, hpo, hpn⟩ | ⟨hps, hpo, hpn⟩
    · exact .before hqs (by rw [hqo, hps])
    · exact .replaced hqs hpo hqo

theorem mergedAgain_self : MergedAgain [a] [a, a] a := by
  intro ρ η part p q hp hq hrecords
  have hps : p.source = a := List.mem_singleton.1 p.source_mem
  rcases supplies_pair hq with ⟨hqs, hqo, hqn⟩ | ⟨hqs, hqo, hqn⟩
  · omega
  · exact .before hqs (by rw [hqo, hps])

/-- The file with the records of `p`, `q` and `r` and the highest counts, after the rule for
directives. -/
structure Assembled (path : String) (m : FileCoverage) (p q r : Split sources) : Prop where
  eq : m = countDirective p.others (assemble path .max p q r)

namespace Assembled
variable {p q r : Split sources} {p' q' r' : Split sources'}

theorem path_eq (h : Assembled path m p q r) : m.path = path := by
  rw [h.eq, countDirective_path, assemble]

theorem functions_eq (h : Assembled path m p q r) :
    m.functions = q.table .functions .max (·.functions) := by
  rw [h.eq, countDirective_functions, assemble_functions]

theorem branches_eq (h : Assembled path m p q r) :
    m.branches = r.table .branches .max (·.branches) := by
  rw [h.eq, countDirective_branches, assemble_branches]

theorem lifted (h : Assembled path m p q r) : LiftedBy (fun h => [h])
    (ruled p.others (assemble path .max p q r)) (p.table .statements .max (·.statements))
    m.statements := by
  rw [h.eq]
  exact lifted_countDirective p.others (assemble path .max p q r)

theorem valid (h : Assembled path m p q r) (hsources : ∀ f ∈ sources, f.Valid) : m.Valid := by
  rw [h.eq]
  exact valid_countDirective (valid_assemble hsources p q r)

theorem records_statements (h : Assembled path m p q r) :
    m.statements.records = p.source.statements.records := by
  rw [h.lifted.records, Split.records_table]

theorem records_functions (h : Assembled path m p q r) :
    m.functions.records = q.source.functions.records := by
  rw [h.functions_eq, Split.records_table]

theorem records_branches (h : Assembled path m p q r) :
    m.branches.records = r.source.branches.records := by
  rw [h.branches_eq, Split.records_table]

theorem branches_again (h : Assembled path m p q r)
    (hsources : ∀ f ∈ sources, f.Valid ∧ f.Separated) (hagain : Again m r r') :
    r'.table .branches .max (·.branches) = m.branches := by
  obtain ⟨hvalid, hseparated⟩ := hsources _ r.source_mem
  have harms := (FileCoverage.valid_iff.1 hvalid).2.2
  have harmsm := (FileCoverage.valid_iff.1 (h.valid fun f hf => (hsources f hf).1)).2.2
  have hrecords := h.records_branches
  exact table_again RecordKind.armed_branches hagain (.of_eq h.branches_eq)
    (takesOwn_branches harmsm harms hrecords hseparated.branches)
    (takesOwn_branches harms harmsm hrecords.symm (hrecords ▸ hseparated.branches))

/-- Every kind of record is merged again, so the file is the same. -/
theorem eq_of_again (h : Assembled path m p q r) (hsources : ∀ f ∈ sources, f.Valid ∧ f.Separated)
    (hp : Again m p p') (hq : Again m q q') (hr : Again m r r') (hf : Assembled path f p' q' r') :
    f = m := by
  have hassemble : assemble path .max p' q' r' = m := by
    rw [assemble, h.branches_again hsources hr, ← h.path_eq,
      table_again_plain RecordKind.plain_statements hp h.lifted
        (hsources _ p.source_mem).2.statements,
      table_again_plain RecordKind.plain_functions hq (.of_eq h.functions_eq)
        (hsources _ q.source_mem).2.functions]
  rw [hf.eq, hassemble]
  exact countDirective_of_again hp h.eq h.records_statements

end Assembled

theorem assembled_single (hpath : a.path = path) :
    Assembled path a (.single a) (.single a) (.single a) := by
  have hassemble : assemble path .max (.single a) (.single a) (.single a) = a := by
    rw [← hpath]
    rfl
  refine ⟨?_⟩
  rw [hassemble]
  refine (countDirective_of_not_runs fun i hruns => ?_).symm
  obtain ⟨o, ho, _⟩ := hruns.absent
  simp [Split.single, Split.others] at ho

/-- The file that the suppliers `p`, `q` and `r` give under `max`. -/
structure Made (path : String) (m : FileCoverage) (p q r : Split sources) : Prop where
  statements : p.Supplies .max (·.statements)
  functions : q.Supplies .max (·.functions)
  branches : r.Supplies .max (·.branches)
  eq : m = countDirective p.others (assemble path .max p q r)

theorem Made.assembled {p q r : Split sources} (h : Made path m p q r) :
    Assembled path m p q r := ⟨h.eq⟩

/-- The file that the sources give under `max`. -/
def MadeOf (path : String) (sources : List FileCoverage) (m : FileCoverage) : Prop :=
  ∃ p q r : Split sources, Made path m p q r

theorem madeOf_single (hpath : a.path = path) : MadeOf path [a] a :=
  ⟨.single a, .single a, .single a, single_supplies _ _ a, single_supplies _ _ a,
    single_supplies _ _ a, (assembled_single hpath).eq⟩

/-- A file merged again with what it was made of stays as it is. -/
theorem eq_of_mergedAgain (hsources : ∀ f ∈ sources, f.Valid ∧ f.Separated)
    (hm : MadeOf path sources m) (hagain : MergedAgain sources sources' m)
    (hf : MadeOf path sources' f) : f = m := by
  obtain ⟨p, q, r, hm⟩ := hm
  obtain ⟨p', q', r', hf⟩ := hf
  have h := hm.assembled
  have hp : Again m p p' := hagain _ p p' hm.statements hf.statements h.records_statements
  have hq : Again m q q' := hagain _ q q' hm.functions hf.functions h.records_functions
  have hr : Again m r r' := hagain _ r r' hm.branches hf.branches h.records_branches
  exact h.eq_of_again hsources hp hq hr hf.assembled

section Maps
variable {l : List CoverageMap} {k n : CoverageMap}

theorem exists_madeOf (h : 2 ≤ (validAt l path).length) :
    ∃ f, (maps l .max).get? path = some f ∧ MadeOf path (validAt l path) f := by
  obtain ⟨p, q, r, hp, hq, hr, hget⟩ := get?_maps_of_two_valid .max h
  exact ⟨_, hget, p, q, r, hp, hq, hr, rfl⟩

theorem get?_maps_again (hsources : ∀ f ∈ sources, f.Valid ∧ f.Separated)
    (hm : MadeOf path sources m) (hl : validAt l path = sources') (htwo : 2 ≤ sources'.length)
    (hagain : MergedAgain sources sources' m) : (maps l .max).get? path = some m := by
  subst hl
  obtain ⟨f, hget, hf⟩ := exists_madeOf htwo
  rw [hget, eq_of_mergedAgain hsources hm hagain hf]

/-- One valid file stays as it is, also when it is merged with itself. -/
theorem get?_maps_of_copies (hf : f.Valid ∧ f.Separated) (hpath : f.path = path)
    (hl : validAt l path = [f] ∨ validAt l path = [f, f]) : (maps l .max).get? path = some f := by
  rcases hl with hl | hl
  · rw [get?_maps]
    exact file?_of_one_valid hl
  · have hsources : ∀ g ∈ [f], g.Valid ∧ g.Separated := by simpa using hf
    exact get?_maps_again hsources (madeOf_single hpath) hl (Nat.le_refl _) mergedAgain_self

theorem validAt_pair_eq (k n : CoverageMap) :
    validAt [k, n] path = validAt [k] path ++ validAt [n] path := validAt_append (l := [k])

/-- A merged map with a valid file holds it wherever it stands. -/
theorem validAt_merged (hget : k.get? path = some f) (hf : f.Valid) :
    validAt [k, n] path = f :: validAt [n] path ∧ validAt [n, k] path = validAt [n] path ++ [f] := by
  refine ⟨validAt_cons_of_valid hget hf, ?_⟩
  rw [validAt_pair_eq, validAt_cons_of_valid hget hf]
  rfl

/-- At this path a second merge with either map leaves what the first has made. -/
def Absorbs (k n : CoverageMap) (path : String) : Prop :=
  (maps [maps [k, n] .max, n] .max).get? path = (maps [k, n] .max).get? path ∧
  (maps [k, maps [k, n] .max] .max).get? path = (maps [k, n] .max).get? path

theorem absorbs_of_none_valid (hk : validAt [k] path = []) (hn : validAt [n] path = []) :
    Absorbs k n path := by
  have hpair {k n : CoverageMap} (hk : validAt [k] path = []) (hn : validAt [n] path = []) :
      (maps [k, n] .max).get? path = (k.get? path).or (n.get? path) := by
    have hnone : validAt [k, n] path = [] := by rw [validAt_pair_eq, hk, hn, List.append_nil]
    rw [get?_maps, file?_of_none_valid hnone, sourcesAt_cons, sourcesAt_cons]
    cases k.get? path <;> cases n.get? path <;> rfl
  have hmerged : validAt [maps [k, n] .max] path = [] := by
    rw [validAt, sourcesAt_cons, hpair hk hn]
    rw [validAt, sourcesAt_cons] at hk hn
    cases hx : k.get? path with
    | none => simpa using hn
    | some f => simpa [hx] using hk
  rw [Absorbs, hpair hmerged hn, hpair hk hmerged, hpair hk hn]
  cases k.get? path <;> cases n.get? path <;> exact ⟨rfl, rfl⟩

theorem absorbs_of_one_valid (h : validAt [k, n] path = [f]) (hf : f.Valid ∧ f.Separated)
    (hpath : f.path = path) : Absorbs k n path := by
  have hget := get?_maps_of_copies hf hpath (.inl h)
  obtain ⟨hleft, -⟩ := validAt_merged (n := n) hget hf.1
  obtain ⟨-, hright⟩ := validAt_merged (n := k) hget hf.1
  rw [validAt_pair_eq] at h
  rw [Absorbs, hget]
  rcases List.append_eq_singleton_iff.1 h with ⟨hk, hn⟩ | ⟨hk, hn⟩
  · rw [hn] at hleft
    rw [hk] at hright
    exact ⟨get?_maps_of_copies hf hpath (.inr hleft), get?_maps_of_copies hf hpath (.inl hright)⟩
  · rw [hn] at hleft
    rw [hk] at hright
    exact ⟨get?_maps_of_copies hf hpath (.inl hleft), get?_maps_of_copies hf hpath (.inr hright)⟩

theorem absorbs_of_two_valid (hk : validAt [k] path = [a]) (hn : validAt [n] path = [b])
    (hsources : ∀ f ∈ [a, b], f.Valid ∧ f.Separated) : Absorbs k n path := by
  have hkn : validAt [k, n] path = [a, b] := by
    rw [validAt_pair_eq, hk, hn]
    rfl
  have htwo : 2 ≤ (validAt [k, n] path).length := by simp [hkn]
  obtain ⟨f, hget, hf⟩ := exists_madeOf htwo
  rw [hkn] at hf
  obtain ⟨p, q, r, hmade⟩ := hf
  have hvalid := hmade.assembled.valid fun f hf => (hsources f hf).1
  obtain ⟨hleft, -⟩ := validAt_merged (n := n) hget hvalid
  obtain ⟨-, hright⟩ := validAt_merged (n := k) hget hvalid
  rw [hn] at hleft
  rw [hk] at hright
  rw [Absorbs, hget]
  exact ⟨get?_maps_again hsources ⟨p, q, r, hmade⟩ hleft (Nat.le_refl _) mergedAgain_left,
    get?_maps_again hsources ⟨p, q, r, hmade⟩ hright (Nat.le_refl _) mergedAgain_right⟩

theorem validAt_single (m : CoverageMap) (path : String) :
    validAt [m] path = [] ∨ ∃ f, m.get? path = some f ∧ f.Valid ∧ validAt [m] path = [f] := by
  cases hm : m.get? path with
  | none => exact .inl (by simp [validAt, sourcesAt, hm])
  | some f =>
    by_cases hf : f.Valid
    · exact .inr ⟨f, rfl, hf, validAt_cons_of_valid hm hf⟩
    · exact .inl (by simp [validAt, sourcesAt, hm, hf])

theorem absorbs (hk : ∀ f, k.get? path = some f → f.path = path ∧ (f.Valid → f.Separated))
    (hn : ∀ f, n.get? path = some f → f.path = path ∧ (f.Valid → f.Separated)) :
    Absorbs k n path := by
  have hkn : validAt [k, n] path = _ := validAt_pair_eq k n
  rcases validAt_single k path with hk₀ | ⟨a, ha, hva, hka⟩ <;>
    rcases validAt_single n path with hn₀ | ⟨b, hb, hvb, hnb⟩
  · exact absorbs_of_none_valid hk₀ hn₀
  · obtain ⟨hpath, hsb⟩ := hn b hb
    rw [hk₀, hnb] at hkn
    exact absorbs_of_one_valid hkn ⟨hvb, hsb hvb⟩ hpath
  · obtain ⟨hpath, hsa⟩ := hk a ha
    rw [hka, hn₀] at hkn
    exact absorbs_of_one_valid hkn ⟨hva, hsa hva⟩ hpath
  · refine absorbs_of_two_valid hka hnb ?_
    simpa using ⟨⟨hva, (hk a ha).2 hva⟩, hvb, (hn b hb).2 hvb⟩

/-- Merging a merged map with one of the two maps it was made of changes nothing. Files that are not
valid need not be separated. -/
theorem absorb_of_maps (k n : CoverageMap)
    (hk : ∀ e ∈ k.entries, e.2.path = e.1 ∧ (e.2.Valid → e.2.Separated))
    (hn : ∀ e ∈ n.entries, e.2.path = e.1 ∧ (e.2.Valid → e.2.Separated)) :
    maps [maps [k, n] .max, n] .max = maps [k, n] .max ∧
    maps [k, maps [k, n] .max] .max = maps [k, n] .max := by
  have habsorbs (path : String) : Absorbs k n path :=
    absorbs (fun f hf => hk (path, f) (SortedMap.get?_eq_some_iff.1 hf))
      (fun f hf => hn (path, f) (SortedMap.get?_eq_some_iff.1 hf))
  constructor
  · exact SortedMap.ext_get? fun path => (habsorbs path).1
  · exact SortedMap.ext_get? fun path => (habsorbs path).2

theorem absorb_of_maps_sample : ∃ k n, sample.take 2 = [k, n] ∧
    (∀ e ∈ k.entries, e.2.path = e.1 ∧ (e.2.Valid → e.2.Separated)) ∧
    (∀ e ∈ n.entries, e.2.path = e.1 ∧ (e.2.Valid → e.2.Separated)) ∧
    maps [maps [k, n] .max, n] .max = maps [k, n] .max ∧
    maps [k, maps [k, n] .max] .max = maps [k, n] .max :=
  ⟨_, _, rfl, by decide, by decide, absorb_of_maps _ _ (by decide) (by decide)⟩

end Maps

end Merge
end Coverage

import Coverage.Proofs.Fixups.Passes

/-! Which function stays of those that are declared at one place: the one with the most hits, of these one
whose body is apart from its declaration, and of these the one with the lowest id. -/
namespace Coverage.Passes

variable {f g : FileCoverage} {start : Location} {id i : Id} {r s : FunctionSite}

abbrev Row := Id × FunctionSite × Hits

/-- The body starts on another line than the declaration. -/
def Apart (r : FunctionSite) : Prop := r.body.start.line ≠ r.declaration.start.line

/-- The record of the function, which is declared at the given place. -/
structure DeclaredAt (f : FileCoverage) (start : Location) (id : Id) (r : FunctionSite) : Prop where
  recorded : f.functions.records.get? id = some r
  place : r.declaration.start = start

/-- Of the functions declared at one place this one has the most hits, of these it is apart if any of them
is, and of those that are left it has the lowest id. -/
structure IsKeeper (f : FileCoverage) (start : Location) (id : Id) (r : FunctionSite) : Prop where
  declared : DeclaredAt f start id r
  hits : ∀ i s, DeclaredAt f start i s → f.functions.count i ≤ f.functions.count id
  apart : ∀ i s, DeclaredAt f start i s → f.functions.count i = f.functions.count id → Apart s → Apart r
  lowest : ∀ i s, DeclaredAt f start i s → f.functions.count i = f.functions.count id →
    (Apart s ↔ Apart r) → id ≤ i

theorem IsKeeper.unique (h : IsKeeper f start id r) (h' : IsKeeper f start i s) : id = i := by
  have hcount : f.functions.count i = f.functions.count id :=
    UInt64.le_antisymm (h.hits i s h'.declared) (h'.hits id r h.declared)
  have hapart : Apart s ↔ Apart r := by
    constructor
    · intro hs
      exact h.apart i s h'.declared hcount hs
    · intro hr
      exact h'.apart id r h.declared hcount.symm hr
  apply UInt32.le_antisymm
  · exact h.lowest i s h'.declared hcount hapart
  · exact h'.lowest id r h.declared hcount.symm hapart.symm

section Ranking
variable {a b c : Row} {l : List Row}

theorem outranks_iff {x y : FunctionSite × Hits} :
    outranks x y = true ↔ y.2 < x.2 ∨ (y.2 = x.2 ∧ Apart x.1 ∧ ¬ Apart y.1) := by
  simp [outranks, Apart, and_assoc]

theorem not_outranks_self (x : FunctionSite × Hits) : outranks x x = false := by
  rw [← Bool.not_eq_true, outranks_iff]
  rintro (hlt | ⟨_, ha, hn⟩)
  · exact UInt64.lt_irrefl _ hlt
  · exact hn ha

/-- Not to outrank carries over from one function to the next. -/
theorem not_outranks_trans {x y z : FunctionSite × Hits} (hxy : outranks x y = false)
    (hyz : outranks y z = false) : outranks x z = false := by
  rw [← Bool.not_eq_true, outranks_iff] at *
  simp only [not_or, not_and, UInt64.not_lt] at *
  refine ⟨UInt64.le_trans hxy.1 hyz.1, ?_⟩
  intro heq hx
  have hzy : z.2 = y.2 := UInt64.le_antisymm (heq ▸ hxy.1) hyz.1
  exact hyz.2 hzy (Classical.not_not.1 (hxy.2 (hzy.symm.trans heq) hx))

theorem not_outranks_of_outranks {x y : FunctionSite × Hits} (h : outranks x y = true) :
    outranks y x = false := by
  rw [← Bool.not_eq_true, outranks_iff]
  rcases outranks_iff.1 h with hlt | ⟨heq, hx, hy⟩
  · rintro (hgt | ⟨heq, _⟩)
    · exact UInt64.lt_asymm hlt hgt
    · rw [heq] at hlt
      exact UInt64.lt_irrefl _ hlt
  · rintro (hgt | ⟨_, hy', _⟩)
    · rw [heq] at hgt
      exact UInt64.lt_irrefl _ hgt
    · exact hy hy'

/-- No row outranks the best one, and of the rows that it does not outrank it has the lowest id. -/
theorem best?_spec (hl : l.Pairwise fun a b => a.1 < b.1) (h : best? l = some a) :
    ∀ b ∈ l, outranks b.2 a.2 = false ∧ (outranks a.2 b.2 = false → a.1 ≤ b.1) := by
  induction l generalizing a with
  | nil => simp [best?] at h
  | cons d l ih =>
    obtain ⟨hd, hl⟩ := List.pairwise_cons.1 hl
    rw [best?] at h
    cases hb : best? l with
    | none =>
      have hnil := best?_eq_none_iff.1 hb
      obtain rfl : d = a := by simpa [hb] using h
      intro b hmem
      obtain rfl : b = d := by simpa [hnil] using hmem
      exact ⟨not_outranks_self _, fun _ => UInt32.le_refl _⟩
    | some e =>
      have he := ih hl hb
      rw [hb] at h
      by_cases hed : outranks e.2 d.2 = true
      · obtain rfl : e = a := by simpa [hed] using h
        intro b hmem
        rcases List.mem_cons.1 hmem with rfl | hmem
        · exact ⟨not_outranks_of_outranks hed, fun hno => by simp [hed] at hno⟩
        · exact he b hmem
      · rw [Bool.not_eq_true] at hed
        obtain rfl : d = a := by simpa [hed] using h
        intro b hmem
        rcases List.mem_cons.1 hmem with rfl | hmem
        · exact ⟨not_outranks_self _, fun _ => UInt32.le_refl _⟩
        · exact ⟨not_outranks_trans (he b hmem).1 hed, fun _ => UInt32.le_of_lt (hd b hmem)⟩

end Ranking

section Keepers

theorem pairwise_rows (t : Table FunctionSite Hits) : t.rows.Pairwise fun a b => a.1 < b.1 :=
  List.pairwise_map.2 t.records.pairwise_entries

theorem mem_group {row : Row} :
    (row ∈ f.functions.rows.filter fun row => row.2.1.declaration.start == start) ↔
      DeclaredAt f start row.1 row.2.1 ∧ row.2.2 = f.functions.count row.1 := by
  rw [List.mem_filter, Table.mem_rows, beq_iff_eq]
  constructor
  · rintro ⟨⟨hr, hc⟩, hp⟩
    exact ⟨⟨hr, hp⟩, hc⟩
  · rintro ⟨⟨hr, hp⟩, hc⟩
    exact ⟨⟨hr, hc⟩, hp⟩

theorem mem_group_of_declaredAt (h : DeclaredAt f start id r) :
    (id, r, f.functions.count id) ∈
      f.functions.rows.filter fun row => row.2.1.declaration.start == start :=
  mem_group.2 ⟨h, rfl⟩

theorem exists_keeper? (h : DeclaredAt f start i s) : ∃ id, keeper? f start = some id := by
  rw [← Option.isSome_iff_exists, ← Option.ne_none_iff_isSome]
  intro hk
  have hnil := best?_eq_none_iff.1 (Option.map_eq_none_iff.1 hk)
  have hmem := mem_group_of_declaredAt h
  simp [hnil] at hmem

theorem exists_isKeeper_of_keeper? (h : keeper? f start = some id) : ∃ r, IsKeeper f start id r := by
  obtain ⟨⟨j, r, n⟩, hbest, hj⟩ := Option.map_eq_some_iff.1 h
  obtain rfl : j = id := hj
  obtain ⟨hdeclared, hn⟩ := mem_group.1 (mem_of_best? hbest)
  obtain rfl : n = f.functions.count j := hn
  have hspec := best?_spec ((pairwise_rows f.functions).filter _) hbest
  refine ⟨r, hdeclared, ?_, ?_, ?_⟩
  · intro i s hi
    have hno := (hspec _ (mem_group_of_declaredAt hi)).1
    rw [← Bool.not_eq_true, outranks_iff, not_or, UInt64.not_lt] at hno
    exact hno.1
  · intro i s hi hcount hs
    have hno := (hspec _ (mem_group_of_declaredAt hi)).1
    rw [← Bool.not_eq_true, outranks_iff, not_or] at hno
    by_contra hr
    exact hno.2 ⟨hcount.symm, hs, hr⟩
  · intro i s hi hcount hs
    apply (hspec _ (mem_group_of_declaredAt hi)).2
    rw [← Bool.not_eq_true, outranks_iff]
    rintro (hlt | ⟨_, hr, hs'⟩)
    · simp only [hcount] at hlt
      exact UInt64.lt_irrefl _ hlt
    · exact hs' (hs.2 hr)

/-- A place where a function is declared has a keeper. -/
theorem exists_isKeeper (h : DeclaredAt f start i s) : ∃ id r, IsKeeper f start id r := by
  obtain ⟨id, hid⟩ := exists_keeper? h
  exact ⟨id, exists_isKeeper_of_keeper? hid⟩

theorem keeper?_eq_some_iff : keeper? f start = some id ↔ ∃ r, IsKeeper f start id r := by
  constructor
  · exact exists_isKeeper_of_keeper?
  · rintro ⟨r, hr⟩
    obtain ⟨i, hi⟩ := exists_keeper? hr.declared
    obtain ⟨s, hs⟩ := exists_isKeeper_of_keeper? hi
    rw [hi, hs.unique hr]

end Keepers

theorem mem_duplicateFunctions_iff (h : DeclaredAt f start id r) :
    id ∈ duplicateFunctions f ↔ ¬ IsKeeper f start id r := by
  rw [mem_duplicateFunctions]
  constructor
  · rintro ⟨s, hs, hne⟩ hkeeper
    obtain rfl : r = s := Option.some.inj (h.recorded.symm.trans hs)
    rw [h.place] at hne
    exact hne (keeper?_eq_some_iff.2 ⟨r, hkeeper⟩)
  · intro hno
    refine ⟨r, h.recorded, ?_⟩
    rw [h.place]
    intro hkeeper
    obtain ⟨s, hs⟩ := keeper?_eq_some_iff.1 hkeeper
    obtain rfl : r = s := Option.some.inj (h.recorded.symm.trans hs.declared.recorded)
    exact hno hs

/-- What is left are the keepers. -/
theorem declaredAt_eraseDuplicateFunctions :
    DeclaredAt (eraseDuplicateFunctions f) start id r ↔ IsKeeper f start id r := by
  have hget : (eraseDuplicateFunctions f).functions.records.get? id =
      if id ∈ duplicateFunctions f then none else f.functions.records.get? id :=
    Table.get?_records_eraseAll
  constructor
  · rintro ⟨hr, hp⟩
    rw [hget] at hr
    by_cases hd : id ∈ duplicateFunctions f
    · simp [hd] at hr
    · rw [if_neg hd] at hr
      rw [mem_duplicateFunctions_iff ⟨hr, hp⟩, Classical.not_not] at hd
      exact hd
  · intro h
    have hstays : id ∉ duplicateFunctions f := fun hd => (mem_duplicateFunctions_iff h.declared).1 hd h
    refine ⟨?_, h.declared.place⟩
    rw [hget, if_neg hstays]
    exact h.declared.recorded

/-- The file `g` is `f` with one function for each place that has any, of which `n` were too many. -/
structure Deduplicated (f g : FileCoverage) (n : Nat) : Prop where
  distinct : ∀ start id r i s, DeclaredAt g start id r → DeclaredAt g start i s → id = i
  present : ∀ start id r, DeclaredAt f start id r → ∃ i s, DeclaredAt g start i s
  keepers : ∀ start id r, DeclaredAt g start id r ↔ IsKeeper f start id r
  /-- A function stays with its record and its count or goes with both. -/
  kept : f.functions.Kept g.functions
  path : g.path = f.path
  statements : g.statements = f.statements
  branches : g.branches = f.branches
  erased : f.functions.size = g.functions.size + n

/-- Of the functions declared at one place exactly the keeper stays, and all else is as it was. -/
theorem deduplicated_of_functions (f : FileCoverage) :
    Deduplicated f (eraseDuplicateFunctions f) (duplicateFunctions f).length where
  distinct start id r i s hr hs :=
    (declaredAt_eraseDuplicateFunctions.1 hr).unique (declaredAt_eraseDuplicateFunctions.1 hs)
  present start id r h := by
    obtain ⟨i, s, hs⟩ := exists_isKeeper h
    exact ⟨i, s, declaredAt_eraseDuplicateFunctions.2 hs⟩
  keepers start id r := declaredAt_eraseDuplicateFunctions
  kept := Table.kept_eraseAll duplicateFunctions_sublist
  path := rfl
  statements := rfl
  branches := rfl
  erased := Table.size_eraseAll duplicateFunctions_sublist

end Coverage.Passes

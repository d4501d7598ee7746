import Coverage.Passes
import Coverage.Proofs.Fixups.Erasure

/-! What each pass names and what it leaves. A pass names nothing more in its own result, also after
other functions or branches have been erased from it. -/
namespace Coverage.Passes

variable {f : FileCoverage} {t : Text} {id : Id} {ids : List Id} {d : Span} {h : Hits}

section Reconciliation

theorem declarationHits?_eq_none_iff : declarationHits? f d = none ↔
    ∀ row ∈ f.functions.rows, row.2.1.declaration = d → row.2.2 = 0 := by
  simp only [declarationHits?, Option.map_eq_none_iff, List.find?_eq_none, Bool.and_eq_true,
    bne_iff_ne, beq_iff_eq, not_and]
  exact forall₂_congr fun row _ =>
    ⟨fun hrow hd => Classical.not_not.1 fun h0 => hrow h0 hd, fun hrow h0 hd => h0 (hrow hd)⟩

theorem ne_zero_of_declarationHits? (hd : declarationHits? f d = some h) : h ≠ 0 := by
  obtain ⟨row, hrow, rfl⟩ := Option.map_eq_some_iff.1 hd
  have := List.find?_some hrow
  simp only [Bool.and_eq_true, bne_iff_ne] at this
  exact this.1

/-- Only a statement with a count of zero takes over another. -/
theorem of_reconciledHits? (hr : reconciledHits? f id = some h) :
    f.statements.hits.get? id = some 0 ∧ id ∈ f.statements.ids ∧ h ≠ 0 := by
  rw [reconciledHits?] at hr
  split at hr
  · next hzero =>
    obtain ⟨d, hrecord, hd⟩ := Option.bind_eq_some_iff.1 hr
    exact ⟨hzero, Table.mem_ids_of_get? hrecord, ne_zero_of_declarationHits? hd⟩
  · simp at hr

theorem get?_hits_reconcileStatements : (reconcileStatements f).statements.hits.get? id =
    (f.statements.hits.get? id).map fun h => (reconciledHits? f id).getD h :=
  SortedMap.get?_mapWithKey _

theorem mem_unreconciledStatements :
    id ∈ unreconciledStatements f ↔ (reconciledHits? f id).isSome = true := by
  rw [unreconciledStatements, List.mem_filter]
  refine ⟨And.right, fun hsome => ⟨?_, hsome⟩⟩
  obtain ⟨h, hh⟩ := Option.isSome_iff_exists.1 hsome
  exact (of_reconciledHits? hh).2.1

/-- A zero that is left had no function to take a count from. -/
theorem reconciledHits?_reconcileStatements : reconciledHits? (reconcileStatements f) id = none := by
  rw [reconciledHits?]
  split
  · next hzero =>
    rw [get?_hits_reconcileStatements] at hzero
    obtain ⟨h, hh, hget⟩ := Option.map_eq_some_iff.1 hzero
    cases hr : reconciledHits? f id with
    | some h' =>
      rw [hr] at hget
      exact ((of_reconciledHits? hr).2.2 hget).elim
    | none =>
      obtain rfl : h = 0 := by simpa [hr] using hget
      rwa [reconciledHits?, if_pos hh] at hr
  · rfl

theorem reconciledHits?_eraseFunctions (hr : reconciledHits? f id = none) :
    reconciledHits? (f.eraseFunctions ids) id = none := by
  rw [reconciledHits?] at hr ⊢
  split
  · next hzero =>
    have hzero : f.statements.hits.get? id = some 0 := hzero
    rw [if_pos hzero, Option.bind_eq_none_iff] at hr
    rw [Option.bind_eq_none_iff]
    intro d hd
    have hnone := declarationHits?_eq_none_iff.1 (hr d hd)
    refine declarationHits?_eq_none_iff.2 fun row hrow => hnone row ?_
    exact (Table.mem_rows_eraseAll.1 hrow).1
  · rfl

theorem reconciledHits?_eraseBranches :
    reconciledHits? (f.eraseBranches ids) id = reconciledHits? f id := rfl

theorem reconcileStatements_eq_self (h : ∀ id, reconciledHits? f id = none) :
    reconcileStatements f = f := by
  have hhits : (f.statements.hits.mapWithKey fun id h => (reconciledHits? f id).getD h) =
      f.statements.hits := by
    refine SortedMap.ext_get? fun id => ?_
    rw [SortedMap.get?_mapWithKey, h id]
    simp
  rw [reconcileStatements, hhits]

theorem unreconciledStatements_eq_nil (h : ∀ id, reconciledHits? f id = none) :
    unreconciledStatements f = [] := by
  rw [List.eq_nil_iff_forall_not_mem]
  intro id hid
  rw [mem_unreconciledStatements, h id] at hid
  simp at hid

end Reconciliation

section Duplicates

theorem best?_eq_none_iff {l : List (Id × FunctionSite × Hits)} : best? l = none ↔ l = [] := by
  cases l with
  | nil => simp [best?]
  | cons a r =>
    rw [best?]
    split
    · simp
    · split <;> simp

theorem mem_of_best? {l : List (Id × FunctionSite × Hits)} {a : Id × FunctionSite × Hits}
    (h : best? l = some a) : a ∈ l := by
  induction l generalizing a with
  | nil => simp [best?] at h
  | cons b r ih =>
    rw [best?] at h
    split at h
    · obtain rfl : b = a := by simpa using h
      exact List.mem_cons_self
    · next c hc =>
      split at h
      · obtain rfl : c = a := by simpa using h
        exact List.mem_cons_of_mem _ (ih hc)
      · obtain rfl : b = a := by simpa using h
        exact List.mem_cons_self

/-- No two functions are declared at one place. -/
def DeclaredOnce (f : FileCoverage) : Prop :=
  ∀ a ∈ f.functions.rows, ∀ b ∈ f.functions.rows,
    a.2.1.declaration.start = b.2.1.declaration.start → a.1 = b.1

theorem duplicateFunctions_sublist : (duplicateFunctions f).Sublist f.functions.ids := by
  rw [← Table.map_fst_rows]
  exact List.filter_sublist.map _

theorem mem_duplicateFunctions : id ∈ duplicateFunctions f ↔
    ∃ r, f.functions.records.get? id = some r ∧ keeper? f r.declaration.start ≠ some id := by
  rw [duplicateFunctions, List.mem_map]
  constructor
  · rintro ⟨⟨_, r, n⟩, hrow, rfl⟩
    obtain ⟨hmem, hne⟩ := List.mem_filter.1 hrow
    exact ⟨r, (Table.mem_rows.1 hmem).1, bne_iff_ne.1 hne⟩
  · rintro ⟨r, hr, hne⟩
    exact ⟨(id, r, f.functions.count id), List.mem_filter.2 ⟨Table.mem_rows.2 ⟨hr, rfl⟩, bne_iff_ne.2 hne⟩, rfl⟩

/-- What stays is the keeper of its place, and a place has only one. -/
theorem declaredOnce_eraseDuplicateFunctions : DeclaredOnce (eraseDuplicateFunctions f) := by
  have hkeeper : ∀ row ∈ (eraseDuplicateFunctions f).functions.rows,
      keeper? f row.2.1.declaration.start = some row.1 := by
    intro row hrow
    obtain ⟨hmem, hstays⟩ := Table.mem_rows_eraseAll.1 hrow
    by_contra hk
    exact hstays (mem_duplicateFunctions.2 ⟨_, (Table.mem_rows.1 hmem).1, hk⟩)
  intro a ha b hb hstart
  have hk := hkeeper a ha
  rw [hstart, hkeeper b hb] at hk
  exact (Option.some.inj hk).symm

theorem DeclaredOnce.eraseFunctions (h : DeclaredOnce f) : DeclaredOnce (f.eraseFunctions ids) :=
  fun a ha b hb => h a (Table.mem_rows_eraseAll.1 ha).1 b (Table.mem_rows_eraseAll.1 hb).1

theorem duplicateFunctions_of_declaredOnce (h : DeclaredOnce f) : duplicateFunctions f = [] := by
  rw [duplicateFunctions, List.map_eq_nil_iff, List.filter_eq_nil_iff]
  intro row hrow
  have hgroup : row ∈ f.functions.rows.filter fun r =>
      r.2.1.declaration.start == row.2.1.declaration.start := by simpa using hrow
  rw [keeper?]
  cases hbest : best? (f.functions.rows.filter fun r =>
      r.2.1.declaration.start == row.2.1.declaration.start) with
  | none =>
    rw [best?_eq_none_iff.1 hbest] at hgroup
    simp at hgroup
  | some a =>
    obtain ⟨ha, hstart⟩ := List.mem_filter.1 (mem_of_best? hbest)
    have hid : a.1 = row.1 := h a ha row hrow (by simpa using hstart)
    simp [hid]

end Duplicates
end Coverage.Passes

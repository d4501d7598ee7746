import Coverage.Proofs.Document.RoundTrip
import Coverage.Proofs.Invariants.Stable

/-! Maps that can be written stay so under every operation: files stay valid, structure is rebuilt with
kinds that have a name, and names of files follow their keys. -/
namespace Coverage

namespace Table
variable {ρ η : Type} {t u : Table ρ η} {id : Id} {r : ρ}

theorem SameShape.counted (h : t.SameShape u) (hu : u.Counted) : t.Counted := by
  intro id hid
  rw [Table.ids, h.records] at hid
  rw [← SortedMap.mem_keys_iff, h.ids, SortedMap.mem_keys_iff]
  exact hu id hid

/-- A record of a table to which records were added is one of these or was there before. -/
theorem of_get?_records_addAll {l : List (ρ × η)} (h : (t.addAll l).records.get? id = some r) :
    t.records.get? id = some r ∨ ∃ e ∈ l, e.1 = r := by
  rw [addAll] at h
  induction l generalizing t with
  | nil => exact .inl h
  | cons e l ih =>
    rcases ih h with h | ⟨d, hd, hr⟩
    · have h : (t.records.insert t.nextId e.1).get? id = some r := h
      rw [SortedMap.get?_insert] at h
      split at h
      · exact .inr ⟨e, List.mem_cons_self, Option.some.inj h⟩
      · exact .inl h
    · exact .inr ⟨d, List.mem_cons_of_mem _ hd, hr⟩

end Table

namespace FileCoverage
variable {f : FileCoverage} {t u : Table BranchSite (List Hits)}

theorem ArmsCounted.of_sameShape (hu : ArmsCounted u) (h : t.SameShape u)
    (hlen : ∀ id, (t.hits.get? id).map List.length = (u.hits.get? id).map List.length) :
    ArmsCounted t := by
  intro id b hb
  rw [h.records] at hb
  obtain ⟨c, hc, harms⟩ := hu id b hb
  have hmap := hlen id
  rw [hc, Option.map_some, Option.map_eq_some_iff] at hmap
  obtain ⟨d, hd, hdc⟩ := hmap
  exact ⟨d, hd, hdc.trans harms⟩

theorem stable_valid : Stable Valid where
  composed := by
    rintro sources f hsources ⟨⟨a, ha, hsa⟩, ⟨b, hb, hsb⟩, ⟨c, hc, hsc, hlen⟩⟩
    refine valid_iff.2 ⟨hsa.counted ?_, hsb.counted ?_, ArmsCounted.of_sameShape ?_ hsc hlen⟩
    · exact (valid_iff.1 (hsources a ha)).1
    · exact (valid_iff.1 (hsources b hb)).2.1
    · exact (valid_iff.1 (hsources c hc)).2.2
  eraseFunctions _ _ := valid_eraseFunctions
  eraseBranches _ _ := valid_eraseBranches
  fill _ t marks h := valid_fill h t marks

theorem isCanonical_of_branch? {t : Text} {starts : List Nat} {mark : Syntax.Mark} {b : BranchSite}
    (h : Backfill.branch? t starts mark = some b) : b.kind.IsCanonical := by
  cases mark with
  | statement e => simp [Backfill.branch?] at h
  | choice e consequence alternative =>
    obtain rfl := Option.some.inj h
    exact BranchKind.isCanonical_ofTag "if"
  | conditional e consequence alternative =>
    obtain rfl := Option.some.inj h
    exact BranchKind.isCanonical_ofTag "cond-expr"
  | binary e left operator right =>
    rw [Backfill.branch?] at h
    split at h
    · obtain rfl := Option.some.inj h
      exact BranchKind.isCanonical_ofTag "binary-expr"
    · simp at h

theorem stable_kindsCanonical : Stable KindsCanonical where
  composed := by
    rintro sources f hsources ⟨-, -, g, hg, hshape, -⟩ id b hb
    rw [hshape.records] at hb
    exact hsources g hg id b hb
  eraseFunctions _ _ := id
  eraseBranches := by
    intro f ids h id b hb
    rw [eraseBranches, Table.get?_records_eraseAll] at hb
    split at hb
    · simp at hb
    · exact h id b hb
  fill := by
    intro f t marks h id b hb
    rcases Table.of_get?_records_addAll hb with hb | ⟨e, he, rfl⟩
    · exact h id b hb
    · obtain ⟨c, hc, rfl⟩ := List.mem_map.1 he
      split at hc
      · obtain ⟨mark, -, hmark⟩ := List.mem_filterMap.1 hc
        exact isCanonical_of_branch? hmark
      · simp at hc

end FileCoverage

namespace Fixups
variable {f : FileCoverage} {source : Option String} {backfill : Bool} {x y : Fixed}

theorem path_rebuilt [Syntax.Parser] (h : rebuilt backfill source x = .ok y) : y.1.path = x.1.path := by
  cases source with
  | none => rw [Except.ok.inj h]
  | some s =>
    cases backfill with
    | false => rw [Except.ok.inj h]
    | true =>
      have h : backfilled s.toList x = .ok y := h
      rcases backfilled_cases s.toList x with ⟨-, he⟩ | ⟨-, -, he⟩ | ⟨o, -, -, he⟩
      · rw [Except.ok.inj (he.symm.trans h)]
      · simp [he] at h
      · rw [← Except.ok.inj (he.symm.trans h)]
        rfl

theorem path_fileOrSame [Syntax.Parser] : (fileOrSame backfill source f).1.path = f.path := by
  rcases fileOrSame_cases backfill source f with ⟨x, hx, -, -, he⟩ | ⟨-, he⟩
  · rw [he, path_rebuilt hx, path_cleaned]
  · rw [he]

end Fixups

namespace CoverageMap
variable {m base additional : CoverageMap} {l : List CoverageMap}

open FileCoverage

theorem Writable.valid (h : m.Writable) : m.Every Valid := fun path f hf => (h path f hf).valid
theorem Writable.kinds (h : m.Writable) : m.Every KindsCanonical := fun path f hf => (h path f hf).kinds

/-- Files under their own names can be written if they are valid and have kinds that can be. -/
theorem writable_of_named (hvalid : m.Every Valid) (hkinds : m.Every KindsCanonical) (hnamed : m.Named) :
    m.Writable :=
  fun path f hf => ⟨hvalid path f hf, .inr (hnamed path f hf), hkinds path f hf⟩

theorem Writable.normalizeMap (h : m.Writable) : (Keys.normalizeMap m).Writable :=
  writable_of_named (stable_valid.normalizeMap h.valid) (stable_kindsCanonical.normalizeMap h.kinds)
    (named_normalizeMap m)

theorem Writable.apply [Syntax.Parser] (h : m.Writable) (sources : Sources) (backfill : Bool) :
    (Fixups.apply m sources backfill).1.Writable := by
  intro path f hf
  rw [Fixups.get?_apply] at hf
  obtain ⟨g, hg, rfl⟩ := Option.map_eq_some_iff.1 hf
  obtain ⟨hvalid, hpath, hkinds⟩ := h path g hg
  refine ⟨stable_valid.fileOrSame hvalid, ?_, stable_kindsCanonical.fileOrSame hkinds⟩
  rwa [Fixups.path_fileOrSame]

end CoverageMap
end Coverage

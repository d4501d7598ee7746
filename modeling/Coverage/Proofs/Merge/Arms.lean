import Coverage.Proofs.Merge.Counts

/-! Counts as lists of arms, where a single count is one arm. What holds of every way to combine counts,
and of the greater of two, is said once for arms and carried over to each kind of record. -/
namespace Coverage

namespace Hits
variable {a b : Hits}

theorem add_right_comm (a b c : Hits) : (a.add b).add c = (a.add c).add b := by
  apply UInt64.toNat_inj.1
  simp only [toNat_add]
  omega

theorem max_right_comm (a b c : Hits) : max (max a b) c = max (max a c) b := by
  apply UInt64.toNat_inj.1
  simp only [toNat_max]
  omega

theorem max_eq_left (h : b ≤ a) : max a b = a := by
  apply UInt64.toNat_inj.1
  rw [UInt64.le_iff_toNat_le] at h
  rw [toNat_max]
  omega

theorem max_eq_right (h : a ≤ b) : max a b = b := by
  rw [Hits.max_comm, max_eq_left h]

theorem le_max_left (a b : Hits) : a ≤ max a b := by
  rw [UInt64.le_iff_toNat_le, toNat_max]
  omega

theorem le_max_right (a b : Hits) : b ≤ max a b := by
  rw [Hits.max_comm]
  exact le_max_left b a

end Hits

theorem Strategy.combine_right_comm (s : Strategy) (a b c : Hits) :
    s.combine (s.combine a b) c = s.combine (s.combine a c) b := by
  by_cases hs : s = .add
  · subst hs
    exact Hits.add_right_comm a b c
  · rw [Merge.combine_eq_max hs]
    exact Hits.max_right_comm a b c

namespace Matching
variable {a b c : List Hits}

theorem ext_getD (hlen : a.length = b.length) (h : ∀ i < a.length, a.getD i 0 = b.getD i 0) :
    a = b := by
  apply List.ext_getElem hlen
  intro i hi hi'
  simpa [hi, hi'] using h i hi

theorem combineArms_right_comm {combine : Hits → Hits → Hits}
    (h : ∀ x y z, combine (combine x y) z = combine (combine x z) y) (a b c : List Hits) :
    combineArms combine (combineArms combine a b) c =
      combineArms combine (combineArms combine a c) b := by
  apply ext_getD
  · simp only [length_combineArms]
  · intro i hi
    simp only [length_combineArms] at hi
    have hb : i < (combineArms combine a b).length := by rwa [length_combineArms]
    have hc : i < (combineArms combine a c).length := by rwa [length_combineArms]
    rw [getD_combineArms combine hb, getD_combineArms combine hc, getD_combineArms combine hi,
      getD_combineArms combine hi, h]

/-- As many arms, each with a count at most as high. -/
structure AtMost (a b : List Hits) : Prop where
  length : a.length = b.length
  getD : ∀ i < a.length, a.getD i 0 ≤ b.getD i 0

theorem AtMost.rfl : AtMost a a := ⟨Eq.refl _, fun _ _ => UInt64.le_refl _⟩

theorem AtMost.trans (h : AtMost a b) (h' : AtMost b c) : AtMost a c where
  length := h.length.trans h'.length
  getD i hi := UInt64.le_trans (h.getD i hi) (h'.getD i (h.length ▸ hi))

theorem atMost_combineArms (a b : List Hits) : AtMost a (combineArms max a b) where
  length := (length_combineArms max a b).symm
  getD i hi := by
    rw [getD_combineArms max hi]
    exact Hits.le_max_left _ _

theorem AtMost.max_right (h : AtMost a b) : combineArms max a b = b := by
  apply ext_getD
  · rw [length_combineArms, h.length]
  · intro i hi
    rw [length_combineArms] at hi
    rw [getD_combineArms max hi, Hits.max_eq_right (h.getD i hi)]

theorem AtMost.max_left (h : AtMost a b) : combineArms max b a = b := by
  apply ext_getD
  · rw [length_combineArms]
  · intro i hi
    rw [length_combineArms] at hi
    rw [getD_combineArms max hi, Hits.max_eq_left (h.getD i (h.length ▸ hi))]

/-- What has been combined with some counts gains nothing from them again. -/
theorem AtMost.max_again (h : AtMost (combineArms max a b) c) : combineArms max c b = c := by
  apply ext_getD
  · rw [length_combineArms]
  · intro i hi
    rw [length_combineArms] at hi
    have hia : i < (combineArms max a b).length := h.length ▸ hi
    have hle := h.getD i hia
    rw [length_combineArms] at hia
    rw [getD_combineArms max hia] at hle
    rw [getD_combineArms max hi, Hits.max_eq_left (UInt64.le_trans (Hits.le_max_right _ _) hle)]

end Matching

/-- Counts of this kind are told apart by their arms and combined arm by arm, and only their number
matters for what a record looks for. -/
structure RecordKind.Armed {ρ η ω : Type} (kind : RecordKind ρ η ω) (arms : η → List Hits) :
    Prop where
  injective : Function.Injective arms
  wish : ∀ r a b, (arms a).length = (arms b).length → kind.wish r a = kind.wish r b
  combine : ∀ f a b, arms (kind.combine f a b) = Matching.combineArms f (arms a) (arms b)

namespace RecordKind
variable {ρ η ω : Type} {kind : RecordKind ρ η ω} {arms : η → List Hits}

theorem Plain.armed {kind : RecordKind ρ Hits Unit} (h : kind.Plain) : kind.Armed fun h => [h] where
  injective _ _ hab := (List.cons.inj hab).1
  wish _ _ _ _ := rfl
  combine f a b := by
    rw [h.combine]
    rfl

theorem armed_branches : RecordKind.branches.Armed id where
  injective _ _ h := h
  wish b _ _ h := congrArg (b.kind, ·) h
  combine _ _ _ := rfl

theorem Armed.combine_right_comm (h : kind.Armed arms) (s : Strategy) (x y z : η) :
    kind.combine s.combine (kind.combine s.combine x y) z =
      kind.combine s.combine (kind.combine s.combine x z) y := by
  apply h.injective
  simp only [h.combine]
  exact Matching.combineArms_right_comm s.combine_right_comm _ _ _

end RecordKind
end Coverage

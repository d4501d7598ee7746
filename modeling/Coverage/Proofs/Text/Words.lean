import Coverage.Text.Blank

/-! Words found in a text. -/
namespace Coverage.Text

variable {w t r : Text}

theorem dropWord?_eq_some_iff : dropWord? w t = some r ↔ t = w ++ r := by
  induction w generalizing t with
  | nil => simp [dropWord?, eq_comm]
  | cons c w ih =>
    cases t with
    | nil => simp [dropWord?]
    | cons d t =>
      rw [dropWord?]
      by_cases h : c = d
      · simp [h, ih]
      · simp [h, Ne.symm h]

theorem isSome_dropWord? : (dropWord? w t).isSome = true ↔ w <+: t := by
  rw [Option.isSome_iff_exists]
  exact exists_congr fun r => dropWord?_eq_some_iff.trans eq_comm

theorem hasWord_iff : hasWord w t = true ↔ w <:+: t := by
  rw [hasWord]
  induction t with
  | nil =>
    rw [after?, isSome_dropWord?, List.infix_nil, List.prefix_nil]
  | cons c t ih =>
    rw [after?, List.infix_cons_iff, ← ih, ← isSome_dropWord?]
    cases dropWord? w (c :: t) <;> simp

section Places
variable {c d : Char} {x y : Text}

theorem after?_of_start (h : w <+: t) : after? w t = dropWord? w t := by
  obtain ⟨r, hr⟩ := Option.isSome_iff_exists.1 (isSome_dropWord?.2 h)
  cases t with
  | nil => rfl
  | cons c t => rw [after?, hr]; rfl

theorem after?_of_not_start (h : ¬ w <+: c :: t) : after? w (c :: t) = after? w t := by
  have hnone : dropWord? w (c :: t) = none := by
    rwa [← Option.not_isSome_iff_eq_none, isSome_dropWord?]
  rw [after?, hnone]
  rfl

theorem after?_eq_none_iff : after? w t = none ↔ ¬ w <:+: t := by
  rw [← hasWord_iff, hasWord, Option.not_isSome_iff_eq_none]

/-- A word that stands in a text stands there a first time. -/
theorem exists_first (hw : w ≠ []) (h : w <:+: t) : ∃ a b, t = a ++ w ++ b ∧ ¬ w <:+: a := by
  induction t with
  | nil => exact absurd (List.infix_nil.1 h) hw
  | cons c t ih =>
    by_cases hstart : w <+: c :: t
    · obtain ⟨b, hb⟩ := hstart
      exact ⟨[], b, hb.symm, fun hnil => hw (List.infix_nil.1 hnil)⟩
    · obtain ⟨a, b, rfl, ha⟩ := ih ((List.infix_cons_iff.1 h).resolve_left hstart)
      refine ⟨c :: a, b, rfl, fun hfirst => ?_⟩
      rcases List.infix_cons_iff.1 hfirst with hlead | hinfix
      · rw [← List.cons_append, ← List.cons_append, List.append_assoc] at hstart
        exact hstart (hlead.trans (List.prefix_append _ _))
      · exact ha hinfix

/-- What is in front of the first place of a character does not matter. -/
theorem after?_singleton_append (hx : c ∉ x) : after? [c] (x ++ c :: y) = some y := by
  induction x with
  | nil =>
    exact (after?_of_start (List.prefix_append [c] y)).trans (dropWord?_eq_some_iff.2 rfl)
  | cons a x ih =>
    rw [List.cons_append, after?_of_not_start]
    · exact ih fun h => hx (List.mem_cons_of_mem _ h)
    · rw [List.prefix_cons_iff]
      rintro (h | ⟨_, hac, -⟩)
      · simp at h
      · exact hx (by simp_all)

/-- Nor does a text in which a word of two characters does not start. -/
theorem after?_pair_append (hx : ¬ [c, d] <:+: x) (hy : x.getLast? ≠ some c ∨ y.head? ≠ some d) :
    after? [c, d] (x ++ y) = after? [c, d] y := by
  induction x with
  | nil => rfl
  | cons a x ih =>
    have hstart : ¬ [c, d] <+: a :: (x ++ y) := by
      rintro ⟨r, hr⟩
      obtain ⟨rfl, hrest⟩ := List.cons.inj hr
      cases x with
      | nil =>
        obtain rfl : d :: r = y := hrest
        simp at hy
      | cons b x =>
        obtain ⟨rfl, -⟩ := List.cons.inj hrest
        exact hx (List.prefix_append [c, d] x).isInfix
    rw [List.cons_append, after?_of_not_start hstart]
    refine ih (fun h => hx (List.infix_cons h)) ?_
    cases x with
    | nil => simp
    | cons b x => simpa using hy

end Places
end Coverage.Text

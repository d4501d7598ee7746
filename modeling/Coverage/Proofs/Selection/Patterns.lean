import Coverage.Selection
import Mathlib.Data.List.Forall2
import Mathlib.Data.List.TakeWhile

/-!
What patterns stand for. A text is in the language of a pattern by the meaning of its characters, and
matching decides that language: the row of each part of a pattern tells which suffixes of the text are
in the language of that part.
-/
namespace Coverage.Pattern

/-- A star stands for any text, a question mark for one character and every other character for itself. -/
inductive Denotes : Text → Text → Prop
  | nil : Denotes [] []
  | star {p t : Text} (s : Text) (h : Denotes p t) : Denotes ('*' :: p) (s ++ t)
  | any {p t : Text} (d : Char) (h : Denotes p t) : Denotes ('?' :: p) (d :: t)
  | literal {p t : Text} {c : Char} (hstar : c ≠ '*') (hany : c ≠ '?') (h : Denotes p t) :
    Denotes (c :: p) (c :: t)

variable {p t : Text} {c d : Char}

@[simp] theorem denotes_nil_iff : Denotes [] t ↔ t = [] := by
  constructor
  · intro h
    cases h
    rfl
  · rintro rfl
    exact .nil

@[simp] theorem denotes_cons_nil_iff : Denotes (c :: p) [] ↔ c = '*' ∧ Denotes p [] := by
  constructor
  · intro h
    generalize ht : ([] : Text) = t at h
    cases h with
    | star s h =>
      obtain ⟨rfl, rfl⟩ := List.append_eq_nil_iff.1 ht.symm
      exact ⟨rfl, h⟩
    | any | literal => simp at ht
  · rintro ⟨rfl, h⟩
    exact .star [] h

/-- A star stands for nothing or takes one more character. -/
theorem denotes_star_cons_iff :
    Denotes ('*' :: p) (d :: t) ↔ Denotes p (d :: t) ∨ Denotes ('*' :: p) t := by
  constructor
  · intro h
    generalize ht : d :: t = u at h
    cases h with
    | star s h =>
      cases s with
      | nil => exact .inl (by simpa [ht] using h)
      | cons e s =>
        obtain ⟨rfl, rfl⟩ := List.cons.inj ht
        exact .inr (.star s h)
    | literal hstar => exact absurd rfl hstar
  · rintro (h | h)
    · exact .star [] h
    · generalize hp : '*' :: p = q at h
      cases h with
      | nil | any => simp at hp
      | star s h =>
        obtain rfl := (List.cons.inj hp).2
        exact .star (d :: s) h
      | literal hstar => exact absurd (List.cons.inj hp).1.symm hstar

theorem denotes_cons_iff (hstar : c ≠ '*') :
    Denotes (c :: p) (d :: t) ↔ (c = '?' ∨ c = d) ∧ Denotes p t := by
  constructor
  · intro h
    generalize ht : d :: t = u at h
    cases h with
    | star => exact absurd rfl hstar
    | any _ h =>
      obtain ⟨-, rfl⟩ := List.cons.inj ht
      exact ⟨.inl rfl, h⟩
    | literal _ _ h =>
      obtain ⟨rfl, rfl⟩ := List.cons.inj ht
      exact ⟨.inr rfl, h⟩
  · rintro ⟨hc, h⟩
    by_cases hany : c = '?'
    · subst hany
      exact .any d h
    · obtain rfl := hc.resolve_left hany
      exact .literal hstar hany h

section Rows

/-- One answer for each suffix of a text, whether it has a property. -/
def Answers (P : Text → Prop) (l : List Bool) (t : Text) : Prop :=
  List.Forall₂ (fun b s => b = true ↔ P s) l t.tails

variable {P : Text → Prop} {l : List Bool}

theorem Answers.head (h : Answers P l t) : l.headD false = true ↔ P t := by
  cases t with
  | nil | cons =>
    obtain ⟨_, _, hb, -, rfl⟩ := List.forall₂_cons_right_iff.1 h
    exact hb

theorem answers_lastRow (t : Text) : Answers (Denotes []) (lastRow t) t := by
  induction t with
  | nil => exact .cons (by simp) .nil
  | cons d t ih => exact .cons (by simp) ih

theorem answers_row (c : Char) (h : Answers (Denotes p) l t) :
    Answers (Denotes (c :: p)) (row c l t) t := by
  induction t generalizing l with
  | nil =>
    obtain ⟨here, _, hhere, hrest, rfl⟩ := List.forall₂_cons_right_iff.1 h
    obtain rfl := List.forall₂_nil_right_iff.1 hrest
    exact .cons (by simp [hhere]) .nil
  | cons d t ih =>
    obtain ⟨here, rest, hhere, hrest, rfl⟩ := List.forall₂_cons_right_iff.1 h
    refine .cons ?_ (ih hrest)
    -- a star may take one more character, which the row itself answers for the rest of the text
    by_cases hstar : c = '*'
    · subst hstar
      rw [if_pos rfl, Bool.or_eq_true, hhere, (ih hrest).head, denotes_star_cons_iff]
    · rw [if_neg hstar, Bool.and_eq_true, Answers.head hrest, denotes_cons_iff hstar]
      simp

theorem answers_rows (p t : Text) : Answers (Denotes p) (rows p t) t := by
  induction p with
  | nil => exact answers_lastRow t
  | cons c p ih => exact answers_row c ih

theorem matchesText_iff : matchesText p t = true ↔ Denotes p t := (answers_rows p t).head

instance : Decidable (Denotes p t) := decidable_of_iff (matchesText p t = true) matchesText_iff

end Rows

section Parts

/-- What stands behind the last slash of a text, or all of it if there is no slash. -/
def IsLastPart (t part : Text) : Prop :=
  '/' ∉ part ∧ (t = part ∨ ∃ lead, t = lead ++ '/' :: part)

theorem IsLastPart.eq {part : Text} (h : IsLastPart t part) :
    part = (t.reverse.takeWhile (· != '/')).reverse := by
  obtain ⟨hpart, ht⟩ := h
  have hall : ∀ c ∈ part.reverse, (c != '/') = true := by
    intro c hc
    rw [bne_iff_ne]
    rintro rfl
    exact hpart (List.mem_reverse.1 hc)
  rcases ht with rfl | ⟨lead, rfl⟩
  · rw [List.takeWhile_eq_self_iff.2 hall, List.reverse_reverse]
  · rw [List.reverse_append, List.reverse_cons, List.append_assoc,
      List.takeWhile_append_of_pos hall]
    simp

theorem isLastPart_splitAt (t : Text) : IsLastPart t ((Text.splitAt '/' t).getLastD []) := by
  induction t with
  | nil => exact ⟨by simp [Text.splitAt], .inl rfl⟩
  | cons c t ih =>
    have ht := @Text.intercalate_splitAt '/' t
    rw [Text.splitAt, List.foldr_cons, ← Text.splitAt]
    cases hs : Text.splitAt '/' t with
    | nil => exact absurd hs Text.splitAt_ne_nil
    | cons p ps =>
      rw [hs] at ih ht
      obtain ⟨hpart, hcases⟩ := ih
      split
      · next hc =>
        subst hc
        refine ⟨hpart, .inr ?_⟩
        rcases hcases with heq | ⟨lead, heq⟩
        · exact ⟨[], congrArg _ heq⟩
        · exact ⟨'/' :: lead, congrArg _ heq⟩
      · next hc =>
        cases ps with
        | nil =>
          obtain rfl : p = t := by rwa [List.intercalate_singleton] at ht
          exact ⟨by simpa [Ne.symm hc] using hpart, .inl rfl⟩
        | cons q qs =>
          have hmem : '/' ∈ t := by
            rw [← ht, List.intercalate_cons_cons]
            simp
          rcases hcases with heq | ⟨lead, heq⟩
          · rw [heq] at hmem
            exact absurd hmem hpart
          · exact ⟨hpart, .inr ⟨c :: lead, congrArg _ heq⟩⟩

theorem isLastPart_iff {part : Text} {name : String} :
    IsLastPart name.toList part ↔ lastPart name = part := by
  constructor
  · intro h
    rw [h.eq, lastPart, (isLastPart_splitAt _).eq]
  · rintro rfl
    exact isLastPart_splitAt _

/-- A pattern names a file by its whole name, if the pattern has a slash, or else by the last part of
the name; wildcards stand for what they denote. -/
inductive Names (p name : String) : Prop
  | exact (hpath : '/' ∈ p.toList) (hplain : '*' ∉ p.toList ∧ '?' ∉ p.toList) (h : p = name)
  | whole (hpath : '/' ∈ p.toList) (hwild : '*' ∈ p.toList ∨ '?' ∈ p.toList)
    (h : Denotes p.toList name.toList)
  | last (hpart : '/' ∉ p.toList) {part : Text} (hlast : IsLastPart name.toList part)
    (h : Denotes p.toList part)

theorem isWild_iff {p : String} : isWild p = true ↔ '*' ∈ p.toList ∨ '?' ∈ p.toList := by
  simp only [isWild, List.any_eq_true, Bool.or_eq_true, beq_iff_eq]
  grind

theorem isPath_iff {p : String} : isPath p = true ↔ '/' ∈ p.toList := List.contains_iff_mem

theorem matchesName_iff {p name : String} : matchesName p name = true ↔ Names p name := by
  rw [matchesName]
  by_cases hpath : isPath p = true
  · rw [if_pos hpath]
    by_cases hwild : isWild p = true
    · rw [if_pos hwild, matchesText_iff]
      refine ⟨.whole (isPath_iff.1 hpath) (isWild_iff.1 hwild), fun h => ?_⟩
      cases h with
      | exact _ hplain => grind [isWild_iff]
      | whole _ _ h => exact h
      | last hpart => exact absurd (isPath_iff.1 hpath) hpart
    · rw [if_neg hwild, beq_iff_eq]
      have hplain : '*' ∉ p.toList ∧ '?' ∉ p.toList := not_or.1 (mt isWild_iff.2 hwild)
      refine ⟨.exact (isPath_iff.1 hpath) hplain, fun h => ?_⟩
      cases h with
      | exact _ _ h => exact h
      | whole _ hwild' => exact absurd (isWild_iff.2 hwild') hwild
      | last hpart => exact absurd (isPath_iff.1 hpath) hpart
  · rw [if_neg hpath, matchesText_iff]
    refine ⟨.last (mt isPath_iff.2 hpath) (isLastPart_iff.2 rfl), fun h => ?_⟩
    cases h with
    | exact hslash | whole hslash => exact absurd (isPath_iff.2 hslash) hpath
    | last _ hlast h => rwa [isLastPart_iff.1 hlast]

instance {p name : String} : Decidable (Names p name) :=
  decidable_of_iff (matchesName p name = true) matchesName_iff

end Parts
end Coverage.Pattern

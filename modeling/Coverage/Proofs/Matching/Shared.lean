import Coverage.Matching

/-! Matching where queries may share a record: each query is answered as if it were alone. -/
namespace Coverage.Matching

variable {ρ η ω α : Type} {pick : ω → List (Candidate α) → Option (Candidate α)}
  {all : List (Candidate α)} {near : Location → Location → Bool} {claimed : List Nat}
  {exclusive : Bool} {q : Query ω} {c : Candidate α} {l : List (Query ω × Option (Candidate α))}

/-- A value that is nowhere repeated picks out its one element. -/
theorem filter_eq_singleton {α β : Type} [BEq β] [LawfulBEq β] {g : α → β} {l : List α} {a : α}
    (hn : (l.map g).Nodup) (ha : a ∈ l) : l.filter (fun b => g b == g a) = [a] := by
  induction l with
  | nil => simp at ha
  | cons b l ih =>
    simp only [List.map_cons, List.nodup_cons, List.mem_map, not_exists, not_and] at hn
    rcases List.mem_cons.1 ha with rfl | hal
    · simp only [List.filter_cons, BEq.rfl, if_true, List.cons.injEq, true_and,
        List.filter_eq_nil_iff, beq_iff_eq]
      exact hn.1
    · have hne : g b ≠ g a := fun he => hn.1 a hal he.symm
      simp [hne, ih hn.2 hal]

/-- A choice is one of the candidates, and there is one unless there are no candidates. -/
structure Chooses (pick : ω → List (Candidate α) → Option (Candidate α)) : Prop where
  mem : ∀ {w l c}, pick w l = some c → c ∈ l
  eq_nil : ∀ {w l}, pick w l = none → l = []

theorem Chooses.pick_nil (h : Chooses pick) (w : ω) : pick w [] = none := by
  cases hc : pick w [] with
  | none => rfl
  | some c => simpa using h.mem hc

theorem pickHighest_eq_none {l : List (Candidate (ρ × Hits))} (h : pickHighest l = none) :
    l = [] := by
  cases l with
  | nil => rfl
  | cons c r =>
    rw [pickHighest] at h
    split at h
    · simp at h
    · split at h <;> simp at h

theorem mem_of_pickHighest {l : List (Candidate (ρ × Hits))} {c : Candidate (ρ × Hits)}
    (h : pickHighest l = some c) : c ∈ l := by
  induction l generalizing c with
  | nil => simp [pickHighest] at h
  | cons d r ih =>
    rw [pickHighest] at h
    split at h
    · simp_all
    · next e he =>
      split at h
      · simp_all
      · cases h
        exact List.mem_cons_of_mem _ (ih he)

theorem chooses_highest : Chooses fun (_ : Unit) (l : List (Candidate (ρ × Hits))) => pickHighest l :=
  ⟨mem_of_pickHighest, pickHighest_eq_none⟩

theorem chooses_branch : Chooses pickBranch where
  mem := by
    intro w l c h
    simp only [pickBranch, Option.orElse_eq_orElse, Option.orElse_eq_or, Option.or_eq_some_iff] at h
    rcases h with h | ⟨_, h | ⟨_, h⟩⟩
    · exact List.mem_of_find?_eq_some h
    · exact List.mem_of_find?_eq_some h
    · exact List.mem_of_head? h
  eq_nil := by
    intro w l h
    simp only [pickBranch, Option.orElse_eq_orElse, Option.orElse_eq_or, Option.or_eq_none_iff] at h
    exact List.head?_eq_none_iff.1 h.2.2

/-- What a query finds when no record is claimed: an exact start before one of the line. -/
def alone (pick : ω → List (Candidate α) → Option (Candidate α)) (all : List (Candidate α))
    (q : Query ω) : Option (Candidate α) :=
  (pick q.wish (unclaimed sameStart all [] q.start)).or
    (pick q.wish (unclaimed sameLine all [] q.start))

theorem round_some (c : Candidate α) (r : List (Query ω × Option (Candidate α))) :
    round pick all exclusive near claimed ((q, some c) :: r) =
      ((round pick all exclusive near claimed r).1,
        (q, some c) :: (round pick all exclusive near claimed r).2) := rfl

theorem round_shared (l : List (Query ω × Option (Candidate α))) :
    round pick all false near [] l =
      ([], l.map fun e => (e.1, e.2.or (pick e.1.wish (unclaimed near all [] e.1.start)))) := by
  induction l with
  | nil => rfl
  | cons e r ih =>
    obtain ⟨q, _ | c⟩ := e
    · simp [round, ih]
    · simp [round, ih]

theorem assign_shared (qs : List (Query ω)) :
    assign pick all false qs = qs.map (alone pick all) := by
  simp [assign, round_shared, alone, Function.comp_def]

end Coverage.Matching

import Coverage.Proofs.Matching.Exclusive

/-! A query with a candidate of its own takes it, whatever other candidates share its start. When
matching is exclusive, only an earlier query of the same start can be there first. -/
namespace Coverage.Matching

variable {ω α : Type} {pick : ω → List (Candidate α) → Option (Candidate α)}
  {all : List (Candidate α)} {near : Location → Location → Bool} {claimed : List Nat}
  {q : Query ω} {c : Candidate α} {l : List (Query ω × Option (Candidate α))}

/-- The candidate starts where the query does, and the query takes it whenever it is open. -/
structure Own (pick : ω → List (Candidate α) → Option (Candidate α)) (all : List (Candidate α))
    (q : Query ω) (c : Candidate α) : Prop where
  mem : c ∈ all
  start : c.start = q.start
  takes : ∀ claimed, c.index ∉ claimed →
    pick q.wish (unclaimed sameStart all claimed q.start) = some c

theorem eq_of_index_eq (hall : (all.map (·.index)).Nodup) {d : Candidate α} (hc : c ∈ all)
    (hd : d ∈ all) (h : c.index = d.index) : c = d := by
  have hone := filter_eq_singleton hall hd
  have hmem : c ∈ [d] := by
    rw [← hone, List.mem_filter]
    exact ⟨hc, beq_iff_eq.2 h⟩
  exact List.mem_singleton.1 hmem

theorem mem_unclaimed_sameStart (hc : c ∈ all) (hstart : c.start = q.start)
    (hopen : c.index ∉ claimed) : c ∈ unclaimed sameStart all claimed q.start :=
  mem_unclaimed.2 ⟨mem_openIn.2 ⟨hc, hopen⟩, beq_iff_eq.2 hstart⟩

theorem of_mem_unclaimed_sameStart (h : c ∈ unclaimed sameStart all claimed q.start) :
    c ∈ all ∧ c.start = q.start := by
  obtain ⟨hopen, hnear⟩ := mem_unclaimed.1 h
  exact ⟨(mem_openIn.1 hopen).1, beq_iff_eq.1 hnear⟩

/-- The one candidate of a start is taken by any choice. -/
theorem own_of_unique (hpick : Chooses pick) (hc : c ∈ all) (hstart : c.start = q.start)
    (hone : ∀ d ∈ all, d.start = q.start → d = c) : Own pick all q c := by
  refine ⟨hc, hstart, fun claimed hopen => ?_⟩
  have hmem := mem_unclaimed_sameStart hc hstart hopen
  cases hd : pick q.wish (unclaimed sameStart all claimed q.start) with
  | none =>
    rw [hpick.eq_nil hd] at hmem
    simp at hmem
  | some d =>
    obtain ⟨hdall, hdstart⟩ := of_mem_unclaimed_sameStart (hpick.mem hd)
    rw [hone d hdall hdstart]

theorem Own.alone (h : Own pick all q c) : alone pick all q = some c := by
  rw [Matching.alone, h.takes [] (by simp), Option.some_or]

/-- The candidate of a query is one of all. -/
theorem mem_of_mem_assign (hpick : Chooses pick) (hall : (all.map (·.index)).Nodup)
    {exclusive : Bool} {qs : List (Query ω)} (h : some c ∈ assign pick all exclusive qs) :
    c ∈ all := by
  cases exclusive with
  | false =>
    rw [assign_shared] at h
    obtain ⟨q, _, hq⟩ := List.mem_map.1 h
    rcases Option.or_eq_some_iff.1 hq with hq | ⟨_, hq⟩
    · exact (mem_openIn.1 (mem_unclaimed.1 (hpick.mem hq)).1).1
    · exact (mem_openIn.1 (mem_unclaimed.1 (hpick.mem hq)).1).1
  | true =>
    rw [assign_exclusive] at h
    obtain ⟨e, he, hec⟩ := List.mem_map.1 h
    have hfound : c ∈ found (matched pick all qs).2 := List.mem_filterMap.2 ⟨e, he, hec⟩
    exact (matched_perm _ hpick hall).mem_iff.1 (List.mem_append_left _ hfound)

/-- A round over the queries of two lists is a round over the first and then one over the second. -/
theorem round_append (l r : List (Query ω × Option (Candidate α))) :
    round pick all true near claimed (l ++ r) =
      ((round pick all true near (round pick all true near claimed l).1 r).1,
        (round pick all true near claimed l).2 ++
          (round pick all true near (round pick all true near claimed l).1 r).2) := by
  induction l generalizing claimed with
  | nil => rfl
  | cons e l ih =>
    obtain ⟨q, _ | c⟩ := e
    · cases hc : pick q.wish (unclaimed near all claimed q.start) with
      | none => rw [List.cons_append, round_none hc, round_none hc, ih]; rfl
      | some c => rw [List.cons_append, round_found hc, round_found hc, ih]; rfl
    · rw [List.cons_append, round_some, round_some, ih]
      rfl

theorem length_round (l : List (Query ω × Option (Candidate α))) :
    (round pick all true near claimed l).2.length = l.length := by
  have h : (round pick all true near claimed l).2.map (·.1) = l.map (·.1) := map_fst_round l
  simpa using congrArg List.length h

variable (pick all near claimed) in
/-- A round answers the first query first. -/
theorem exists_round_cons (q : Query ω) (y : Option (Candidate α))
    (l : List (Query ω × Option (Candidate α))) :
    ∃ x rest, (round pick all true near claimed ((q, y) :: l)).2 = (q, x) :: rest := by
  cases y with
  | none =>
    cases hc : pick q.wish (unclaimed near all claimed q.start) with
    | none => exact ⟨none, _, by rw [round_none hc]⟩
    | some c => exact ⟨some c, _, by rw [round_found hc]⟩
  | some c => exact ⟨some c, _, by rw [round_some]⟩

/-- What was found before a round is kept. -/
theorem mem_round_of_mem (h : (q, some c) ∈ l) :
    (q, some c) ∈ (round pick all true near claimed l).2 := by
  induction l generalizing claimed with
  | nil => simp at h
  | cons e l ih =>
    obtain ⟨p, _ | d⟩ := e
    · have h : (q, some c) ∈ l := by simpa using h
      cases hd : pick p.wish (unclaimed near all claimed p.start) with
      | none => rw [round_none hd]; exact List.mem_cons_of_mem _ (ih h)
      | some d => rw [round_found hd]; exact List.mem_cons_of_mem _ (ih h)
    · rw [round_some]
      rcases List.mem_cons.1 h with he | h
      · exact he ▸ List.mem_cons_self
      · exact List.mem_cons_of_mem _ (ih h)

/-- A claim is an old one or belongs to a candidate that was found. -/
theorem mem_claimed_round {i : Nat} (h : i ∈ (round pick all true near claimed l).1) :
    i ∈ claimed ∨ ∃ c ∈ found (round pick all true near claimed l).2, c.index = i := by
  induction l generalizing claimed with
  | nil => exact .inl h
  | cons e l ih =>
    obtain ⟨q, _ | c⟩ := e
    · cases hc : pick q.wish (unclaimed near all claimed q.start) with
      | none =>
        rw [round_none hc] at h ⊢
        exact ih h
      | some c =>
        rw [round_found hc] at h ⊢
        rcases ih h with hi | ⟨d, hd, hi⟩
        · rcases List.mem_cons.1 hi with rfl | hi
          · exact .inr ⟨c, List.mem_cons_self, rfl⟩
          · exact .inl hi
        · exact .inr ⟨d, List.mem_cons_of_mem _ hd, hi⟩
    · rw [round_some] at h ⊢
      rcases ih h with hi | ⟨d, hd, hi⟩
      · exact .inl hi
      · exact .inr ⟨d, List.mem_cons_of_mem _ hd, hi⟩

section Exclusive
variable (hpick : Chooses pick) (hall : (all.map (·.index)).Nodup)
include hpick hall

/-- After the first queries a candidate is open for an exact match, or one of them with the same start
has it. -/
theorem exists_taker_of_claimed {pre : List (Query ω)} (hc : c ∈ all)
    (h : c.index ∈ (matchedExactly pick all pre).1) :
    ∃ p, p.start = c.start ∧ (p, some c) ∈ (matchedExactly pick all pre).2 := by
  rcases mem_claimed_round h with hi | ⟨d, hd, hi⟩
  · simp at hi
  · obtain ⟨⟨p, x⟩, hp, hx⟩ := List.mem_filterMap.1 hd
    have hdall : d ∈ all :=
      (matchedExactly_perm _ hpick hall).mem_iff.1 (List.mem_append_left _ hd)
    have hdc : d = c := eq_of_index_eq hall hdall hc hi
    change x = some d at hx
    subst hx hdc
    refine ⟨p, ?_, hp⟩
    have hstart : ∀ q c, (q, some c) ∈ (matchedExactly pick all pre).2 → c.start = q.start := by
      apply forall_mem_round (P := fun q c => c.start = q.start) hpick
      · exact fun q c h => beq_iff_eq.1 h
      · simp
    exact (hstart p d hp).symm

/-- A query has its own candidate, or one of the queries before it that share its start has. -/
theorem own_or_taken_before (h : Own pick all q c) (pre post : List (Query ω)) :
    ∃ first x rest, (matched pick all (pre ++ q :: post)).2 = first ++ (q, x) :: rest ∧
      first.length = pre.length ∧
      (x = some c ∨ ∃ p, p.start = q.start ∧ (p, some c) ∈ first) := by
  have hexact : (matchedExactly pick all (pre ++ q :: post)).2 = (matchedExactly pick all pre).2 ++
      (round pick all true sameStart (matchedExactly pick all pre).1
        ((q, none) :: post.map (·, none))).2 := by
    rw [matchedExactly, List.map_append, round_append]
    rfl
  have hlen (claimed : List Nat) :
      (round pick all true sameLine claimed (matchedExactly pick all pre).2).2.length =
        pre.length := by
    rw [length_round, matchedExactly, length_round, List.length_map]
  rw [matched, hexact, round_append]
  by_cases hclaimed : c.index ∈ (matchedExactly pick all pre).1
  · obtain ⟨p, hstart, hp⟩ := exists_taker_of_claimed hpick hall h.mem hclaimed
    obtain ⟨y, r, hr⟩ := exists_round_cons pick all sameStart (matchedExactly pick all pre).1
      q none (post.map (·, none))
    rw [hr]
    obtain ⟨x, rest, hrest⟩ := exists_round_cons pick all sameLine _ q y r
    refine ⟨_, x, rest, congrArg _ hrest, hlen _, .inr ⟨p, ?_, mem_round_of_mem hp⟩⟩
    rw [hstart, h.start]
  · rw [round_found (h.takes _ hclaimed), round_some]
    exact ⟨_, some c, _, rfl, hlen _, .inl rfl⟩

end Exclusive
end Coverage.Matching

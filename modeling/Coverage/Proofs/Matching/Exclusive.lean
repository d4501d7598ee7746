import Mathlib.Algebra.Ring.Nat
import Coverage.Proofs.Matching.Shared

/-! Matching where a record is handed out once. Found and open candidates together are always all of
them, and a candidate stays open only when every query it could serve has found one. -/
namespace Coverage.Matching

variable {ω α : Type} {pick : ω → List (Candidate α) → Option (Candidate α)}
  {all : List (Candidate α)} {near : Location → Location → Bool} {claimed : List Nat}
  {q : Query ω} {c : Candidate α} {l : List (Query ω × Option (Candidate α))}

/-- The candidates that no query has claimed. -/
def openIn (all : List (Candidate α)) (claimed : List Nat) : List (Candidate α) :=
  all.filter fun c => !claimed.contains c.index

/-- The candidates that queries have found. -/
def found (l : List (Query ω × Option (Candidate α))) : List (Candidate α) := l.filterMap (·.2)

theorem mem_openIn : c ∈ openIn all claimed ↔ c ∈ all ∧ c.index ∉ claimed := by
  simp [openIn]

theorem mem_unclaimed {start : Location} :
    c ∈ unclaimed near all claimed start ↔ c ∈ openIn all claimed ∧ near c.start start := by
  simp [unclaimed, openIn, and_assoc, and_comm]

@[simp] theorem openIn_nil : openIn all [] = all := by simp [openIn]

@[simp] theorem found_nil : found ([] : List (Query ω × Option (Candidate α))) = [] := rfl

@[simp] theorem found_cons_none : found ((q, none) :: l) = found l := rfl

@[simp] theorem found_cons_some : found ((q, some c) :: l) = c :: found l := rfl

theorem found_unmatched (qs : List (Query ω)) :
    found (qs.map (·, (none : Option (Candidate α)))) = [] := by
  simp [found]

/-- A query that finds nothing claims nothing. -/
theorem round_none (h : pick q.wish (unclaimed near all claimed q.start) = none)
    (r : List (Query ω × Option (Candidate α))) :
    round pick all true near claimed ((q, none) :: r) =
      ((round pick all true near claimed r).1,
        (q, none) :: (round pick all true near claimed r).2) := by
  simp [round, h]

theorem round_found (h : pick q.wish (unclaimed near all claimed q.start) = some c)
    (r : List (Query ω × Option (Candidate α))) :
    round pick all true near claimed ((q, none) :: r) =
      ((round pick all true near (c.index :: claimed) r).1,
        (q, some c) :: (round pick all true near (c.index :: claimed) r).2) := by
  simp [round, h]

theorem claimed_subset_round (l : List (Query ω × Option (Candidate α))) :
    claimed ⊆ (round pick all true near claimed l).1 := by
  induction l generalizing claimed with
  | nil => exact fun _ h => h
  | cons e r ih =>
    obtain ⟨q, _ | c⟩ := e
    · cases hc : pick q.wish (unclaimed near all claimed q.start) with
      | none => rw [round_none hc]; exact ih
      | some c =>
        rw [round_found hc]
        exact fun i hi => ih (List.mem_cons_of_mem _ hi)
    · exact ih

theorem map_fst_round (l : List (Query ω × Option (Candidate α))) :
    (round pick all true near claimed l).2.map (·.1) = l.map (·.1) := by
  induction l generalizing claimed with
  | nil => rfl
  | cons e r ih =>
    obtain ⟨q, _ | c⟩ := e
    · cases hc : pick q.wish (unclaimed near all claimed q.start) with
      | none => simp [round_none hc, ih]
      | some c => simp [round_found hc, ih]
    · simp [round_some, ih]

/-- Claiming an open candidate takes exactly this one out of the open ones. -/
theorem openIn_claim (hall : (all.map (·.index)).Nodup) (hc : c ∈ openIn all claimed) :
    (c :: openIn all (c.index :: claimed)).Perm (openIn all claimed) := by
  have hnodup : ((openIn all claimed).map (·.index)).Nodup :=
    hall.sublist (List.filter_sublist.map _)
  have hrest : openIn all (c.index :: claimed) =
      (openIn all claimed).filter fun d => !(d.index == c.index) := by
    rw [openIn, openIn, List.filter_filter]
    congr 1
    funext d
    by_cases hd : d.index = c.index <;> simp [hd]
  have hself := filter_eq_singleton hnodup hc
  have hsplit := List.filter_append_perm (fun d => d.index == c.index) (openIn all claimed)
  rwa [hself, ← hrest] at hsplit

/-- No candidate is lost or handed out twice by a round. -/
theorem round_perm (hpick : Chooses pick) (hall : (all.map (·.index)).Nodup)
    (l : List (Query ω × Option (Candidate α))) :
    (found (round pick all true near claimed l).2 ++
      openIn all (round pick all true near claimed l).1).Perm (found l ++ openIn all claimed) := by
  induction l generalizing claimed with
  | nil => exact .refl _
  | cons e r ih =>
    obtain ⟨q, _ | c⟩ := e
    · cases hc : pick q.wish (unclaimed near all claimed q.start) with
      | none => simpa [round_none hc] using ih
      | some c =>
        have hopen := (mem_unclaimed.1 (hpick.mem hc)).1
        rw [round_found hc]
        simp only [found_cons_some, found_cons_none, List.cons_append]
        exact (ih.cons c).trans (List.perm_middle.symm.trans
          ((openIn_claim hall hopen).append_left (found r)))
    · simpa [round_some] using ih.cons c

/-- Whatever holds of all matches before a round and of near candidates holds of all matches after
it. -/
theorem forall_mem_round {P : Query ω → Candidate α → Prop} (hpick : Chooses pick)
    (hnear : ∀ q c, near c.start q.start → P q c)
    (hl : ∀ q c, (q, some c) ∈ l → P q c) :
    ∀ q c, (q, some c) ∈ (round pick all true near claimed l).2 → P q c := by
  induction l generalizing claimed with
  | nil => exact hl
  | cons e r ih =>
    have hr : ∀ q c, (q, some c) ∈ r → P q c := fun q c h => hl q c (List.mem_cons_of_mem _ h)
    obtain ⟨p, _ | d⟩ := e
    · cases hd : pick p.wish (unclaimed near all claimed p.start) with
      | none =>
        rw [round_none hd]
        intro q c h
        exact ih hr q c (by simpa using h)
      | some d =>
        rw [round_found hd]
        intro q c h
        rcases List.mem_cons.1 h with he | h
        · cases he
          exact hnear p d (mem_unclaimed.1 (hpick.mem hd)).2
        · exact ih hr q c h
    · intro q c h
      rcases List.mem_cons.1 h with he | h
      · exact hl q c (he ▸ List.mem_cons_self)
      · exact ih hr q c h

/-- A candidate that a round leaves open was open to every query that stays without one. -/
theorem not_near_of_open_round (hpick : Chooses pick)
    (hc : c ∈ openIn all (round pick all true near claimed l).1)
    (hq : (q, none) ∈ (round pick all true near claimed l).2) : ¬ near c.start q.start := by
  induction l generalizing claimed with
  | nil => simp [round] at hq
  | cons e r ih =>
    obtain ⟨p, _ | d⟩ := e
    · cases hd : pick p.wish (unclaimed near all claimed p.start) with
      | none =>
        rw [round_none hd] at hc hq
        rcases List.mem_cons.1 hq with he | hq
        · cases he
          intro hnear
          -- Claims only grow, so what is open at the end was open when this query asked.
          have hopen : c ∈ openIn all claimed := by
            obtain ⟨hall, hnot⟩ := mem_openIn.1 hc
            exact mem_openIn.2 ⟨hall, fun hi => hnot (claimed_subset_round r hi)⟩
          have hmem := mem_unclaimed.2 ⟨hopen, hnear⟩
          simp [hpick.eq_nil hd] at hmem
        · exact ih hc hq
      | some d =>
        rw [round_found hd] at hc hq
        exact ih hc (by simpa using hq)
    · exact ih hc (by simpa [round_some] using hq)

section Rounds
variable (pick : ω → List (Candidate α) → Option (Candidate α)) (all : List (Candidate α))
  (qs : List (Query ω))

/-- Claims and matches after the round of exact starts. -/
def matchedExactly : List Nat × List (Query ω × Option (Candidate α)) :=
  round pick all true sameStart [] (qs.map (·, none))

/-- Claims and matches after both rounds. -/
def matched : List Nat × List (Query ω × Option (Candidate α)) :=
  round pick all true sameLine (matchedExactly pick all qs).1 (matchedExactly pick all qs).2

theorem assign_exclusive : assign pick all true qs = (matched pick all qs).2.map (·.2) := rfl

theorem map_fst_matched : (matched pick all qs).2.map (·.1) = qs := by
  simp [matched, matchedExactly, map_fst_round, Function.comp_def]

end Rounds

section Matched
variable {qs : List (Query ω)} {line : UInt32}

variable (qs) in
theorem matchedExactly_perm (hpick : Chooses pick) (hall : (all.map (·.index)).Nodup) :
    (found (matchedExactly pick all qs).2 ++
      openIn all (matchedExactly pick all qs).1).Perm all := by
  have h : (found (matchedExactly pick all qs).2 ++ openIn all (matchedExactly pick all qs).1).Perm
      (found (qs.map (·, none)) ++ openIn all []) := round_perm hpick hall _
  simpa [found_unmatched] using h

variable (qs) in
theorem matched_perm (hpick : Chooses pick) (hall : (all.map (·.index)).Nodup) :
    (found (matched pick all qs).2 ++ openIn all (matched pick all qs).1).Perm all :=
  (round_perm hpick hall _).trans (matchedExactly_perm qs hpick hall)

theorem sameLine_of_matched (hpick : Chooses pick) :
    ∀ q c, (q, some c) ∈ (matched pick all qs).2 → c.start.line = q.start.line := by
  have hexact : ∀ (q : Query ω) c, (q, some c) ∈ (matchedExactly pick all qs).2 →
      c.start.line = q.start.line := by
    apply forall_mem_round (P := fun q c => c.start.line = q.start.line) hpick
    · intro q c h
      rw [beq_iff_eq.1 h]
    · simp
  apply forall_mem_round (P := fun q c => c.start.line = q.start.line) hpick
  · intro q c h
    exact beq_iff_eq.1 h
  · exact hexact

theorem line_ne_of_open (hpick : Chooses pick) (hc : c ∈ openIn all (matched pick all qs).1)
    (hq : (q, none) ∈ (matched pick all qs).2) : c.start.line ≠ q.start.line := by
  have := not_near_of_open_round hpick hc hq
  simpa [sameLine] using this

/-- The matches of the queries on one line. -/
def onLine (line : UInt32) (l : List (Query ω × Option (Candidate α))) :
    List (Query ω × Option (Candidate α)) :=
  l.filter fun e => e.1.start.line == line

theorem found_onLine (h : ∀ q c, (q, some c) ∈ l → c.start.line = q.start.line) :
    found (onLine line l) = (found l).filter fun c => c.start.line == line := by
  induction l with
  | nil => rfl
  | cons e r ih =>
    have hr := ih fun q c hm => h q c (List.mem_cons_of_mem _ hm)
    obtain ⟨q, _ | c⟩ := e
    · by_cases hq : q.start.line = line <;> simpa [onLine, hq] using hr
    · have hc := h q c List.mem_cons_self
      by_cases hq : q.start.line = line <;> simpa [onLine, hq, hc] using hr

theorem length_found (h : ∀ q, (q, none) ∉ l) : (found l).length = l.length := by
  induction l with
  | nil => rfl
  | cons e r ih =>
    obtain ⟨q, _ | c⟩ := e
    · exact (h q List.mem_cons_self).elim
    · simp [ih fun p hp => h p (List.mem_cons_of_mem _ hp)]

theorem length_onLine_matched :
    (onLine line (matched pick all qs).2).length =
      (qs.filter fun q => q.start.line == line).length := by
  conv => rhs; rw [← map_fst_matched pick all qs]
  simp [onLine, List.filter_map, Function.comp_def]

theorem onLine_perm (qs : List (Query ω)) (line : UInt32) (hpick : Chooses pick)
    (hall : (all.map (·.index)).Nodup) :
    (found (onLine line (matched pick all qs).2) ++
      (openIn all (matched pick all qs).1).filter fun c => c.start.line == line).Perm
        (all.filter fun c => c.start.line == line) := by
  rw [found_onLine (sameLine_of_matched hpick), ← List.filter_append]
  exact (matched_perm qs hpick hall).filter _

/-- A line with at least as many queries as candidates leaves no candidate open. -/
theorem openIn_line_eq_nil (hpick : Chooses pick) (hall : (all.map (·.index)).Nodup)
    (hlen : (all.filter fun c => c.start.line == line).length ≤
      (qs.filter fun q => q.start.line == line).length) :
    ((openIn all (matched pick all qs).1).filter fun c => c.start.line == line) = [] := by
  rw [List.eq_nil_iff_forall_not_mem]
  intro c hc
  obtain ⟨hopen, hline⟩ := List.mem_filter.1 hc
  have hsome : ∀ q, (q, none) ∉ onLine line (matched pick all qs).2 := by
    intro q hq
    obtain ⟨hq, hqline⟩ := List.mem_filter.1 hq
    exact line_ne_of_open hpick hopen hq ((beq_iff_eq.1 hline).trans (beq_iff_eq.1 hqline).symm)
  have hfound := (length_found hsome).trans length_onLine_matched
  have htotal := (onLine_perm qs line hpick hall).length_eq
  have hpos := List.length_pos_of_mem hc
  rw [List.length_append] at htotal
  omega

/-- What a match adds for a weight of candidates. -/
def gain (v : Candidate α → Nat) (x : Option (Candidate α)) : Nat := (x.map v).getD 0

theorem sum_gain (v : Candidate α → Nat) (l : List (Query ω × Option (Candidate α))) :
    (l.map fun e => gain v e.2).sum = ((found l).map v).sum := by
  induction l with
  | nil => rfl
  | cons e r ih =>
    obtain ⟨q, _ | c⟩ := e
    · simpa [gain] using ih
    · simpa [gain] using ih

theorem sum_gain_line_le (hpick : Chooses pick) (hall : (all.map (·.index)).Nodup)
    (v : Candidate α → Nat) :
    ((onLine line (matched pick all qs).2).map fun e => gain v e.2).sum ≤
      ((all.filter fun c => c.start.line == line).map v).sum := by
  have hperm := ((onLine_perm qs line hpick hall).map v).sum_nat
  rw [List.map_append, List.sum_append] at hperm
  rw [sum_gain]
  omega

theorem sum_gain_line_eq (hpick : Chooses pick) (hall : (all.map (·.index)).Nodup)
    (hlen : (all.filter fun c => c.start.line == line).length ≤
      (qs.filter fun q => q.start.line == line).length) (v : Candidate α → Nat) :
    ((onLine line (matched pick all qs).2).map fun e => gain v e.2).sum =
      ((all.filter fun c => c.start.line == line).map v).sum := by
  have hperm := ((onLine_perm qs line hpick hall).map v).sum_nat
  rw [openIn_line_eq_nil hpick hall hlen, List.append_nil] at hperm
  rw [sum_gain, hperm]

end Matched
end Coverage.Matching

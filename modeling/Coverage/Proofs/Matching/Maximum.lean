import Coverage.Proofs.Merge.Own
import Mathlib.Data.List.ReduceOption

/-! Exclusive matching hands out as many records as there can be: for each start the exact matches are as
many as the fewer of its queries and its records, and so are all matches for each line. -/
namespace Coverage.Matching

section Rounds
variable {ω α κ : Type} {pick : ω → List (Candidate α) → Option (Candidate α)}
  {all : List (Candidate α)} {near : Location → Location → Bool} {claimed : List Nat}
  {l : List (Query ω × Option (Candidate α))} {qs : List (Query ω)} {key : Location → κ}

/-- A match is right for a key of locations when both of its sides have the same. -/
def Agrees (key : Location → κ) (l : List (Query ω × Option (Candidate α))) : Prop :=
  ∀ q c, (q, some c) ∈ l → key c.start = key q.start

/-- No query is left without a candidate of its key that nobody has claimed. -/
def Exhausts (key : Location → κ) (l : List (Query ω × Option (Candidate α)))
    (rest : List (Candidate α)) : Prop :=
  ∀ q c, (q, none) ∈ l → c ∈ rest → key c.start ≠ key q.start

/-- The queries with a key that have found something. -/
def served [BEq κ] (key : Location → κ) (x : κ) (l : List (Query ω × Option (Candidate α))) : Nat :=
  l.countP fun e => key e.1.start == x && e.2.isSome

theorem Agrees.tail {e : Query ω × Option (Candidate α)} (h : Agrees key (e :: l)) : Agrees key l :=
  fun q c hm => h q c (List.mem_cons_of_mem _ hm)

/-- What the queries with a key have found are all found candidates with it. -/
theorem served_eq_countP_found [BEq κ] (h : Agrees key l) (x : κ) :
    served key x l = (found l).countP fun c => key c.start == x := by
  induction l with
  | nil => rfl
  | cons e l ih =>
    have ih := ih h.tail
    rw [served] at ih ⊢
    obtain ⟨q, _ | c⟩ := e
    · simpa using ih
    · have hc := h q c List.mem_cons_self
      rw [List.countP_cons, found_cons_some, List.countP_cons, ih, hc, Option.isSome_some,
        Bool.and_true]

theorem served_le_queries [BEq κ] (key : Location → κ) (x : κ) (l : List (Query ω × Option (Candidate α))) :
    served key x l ≤ l.countP fun e => key e.1.start == x := by
  apply List.countP_mono_left
  intro e _ he
  exact (Bool.and_eq_true_iff.1 he).1

theorem served_eq_queries [BEq κ] [LawfulBEq κ] {x : κ} (h : ∀ q, (q, none) ∈ l → key q.start ≠ x) :
    served key x l = l.countP fun e => key e.1.start == x := by
  apply List.countP_congr
  intro e he
  obtain ⟨q, _ | c⟩ := e
  · have hq := h q he
    simp [hq]
  · simp

/-- Where no query could have one of the candidates left, the fewer of the two sides are matched. -/
theorem served_eq_min [BEq κ] [LawfulBEq κ] {rest : List (Candidate α)} (hperm : (found l ++ rest).Perm all)
    (hagrees : Agrees key l) (hexhausts : Exhausts key l rest) (x : κ) :
    served key x l = min (l.countP fun e => key e.1.start == x)
      (all.countP fun c => key c.start == x) := by
  have hle := served_le_queries key x l
  have hfound := served_eq_countP_found hagrees x
  have htotal := hperm.countP_eq fun c => key c.start == x
  rw [List.countP_append] at htotal
  by_cases hrest : ∃ c ∈ rest, key c.start = x
  · -- A candidate is left, so every query with the key has one.
    obtain ⟨c, hc, hcx⟩ := hrest
    have hall : served key x l = l.countP fun e => key e.1.start == x := by
      apply served_eq_queries
      intro q hq hqx
      exact hexhausts q c hq hc (hcx.trans hqx.symm)
    omega
  · have hnone : rest.countP (fun c => key c.start == x) = 0 := by
      rw [List.countP_eq_zero]
      intro c hc hcx
      exact hrest ⟨c, hc, beq_iff_eq.1 hcx⟩
    omega

theorem countP_fst_round (p : Query ω → Bool) (l : List (Query ω × Option (Candidate α))) :
    (round pick all true near claimed l).2.countP (fun e => p e.1) = l.countP fun e => p e.1 := by
  have h : (round pick all true near claimed l).2.map (·.1) = l.map (·.1) := map_fst_round l
  have hcount := congrArg (List.countP p) h
  rw [List.countP_map, List.countP_map] at hcount
  exact hcount

/-- A round adds matches and drops none. -/
theorem countP_le_round {p : Query ω × Option (Candidate α) → Bool} (hp : ∀ q, p (q, none) = false)
    (l : List (Query ω × Option (Candidate α))) :
    l.countP p ≤ (round pick all true near claimed l).2.countP p := by
  induction l generalizing claimed with
  | nil => exact Nat.le_refl _
  | cons e l ih =>
    obtain ⟨q, _ | c⟩ := e
    · cases hc : pick q.wish (unclaimed near all claimed q.start) with
      | none =>
        rw [round_none hc, List.countP_cons, List.countP_cons]
        exact Nat.add_le_add_right ih _
      | some c =>
        rw [round_found hc, List.countP_cons, List.countP_cons, hp q]
        exact Nat.le_add_right_of_le ih
    · rw [round_some, List.countP_cons, List.countP_cons]
      exact Nat.add_le_add_right ih _

/-- The queries with a start that have found a candidate with the same. -/
def exactly (start : Location) (l : List (Query ω × Option (Candidate α))) : Nat :=
  l.countP fun e => e.1.start == start && e.2.any fun c => c.start == start

theorem served_eq_exactly (h : Agrees id l) {start : Location} :
    served id start l = exactly start l := by
  apply List.countP_congr
  intro e he
  obtain ⟨q, _ | c⟩ := e
  · simp
  · have hc : c.start = q.start := h q c he
    simp [hc]

theorem exactly_le_queries (start : Location) (l : List (Query ω × Option (Candidate α))) :
    exactly start l ≤ l.countP fun e => e.1.start == start := by
  apply List.countP_mono_left
  intro e _ he
  exact (Bool.and_eq_true_iff.1 he).1

theorem exactly_le_found (start : Location) (l : List (Query ω × Option (Candidate α))) :
    exactly start l ≤ (found l).countP fun c => c.start == start := by
  induction l with
  | nil => exact Nat.le_refl _
  | cons e l ih =>
    rw [exactly] at ih ⊢
    obtain ⟨q, _ | c⟩ := e
    · simpa using ih
    · rw [List.countP_cons, found_cons_some, List.countP_cons]
      by_cases hc : c.start = start
      · have hone : (if (q.start == start && true) = true then 1 else 0) ≤ 1 := by
          split <;> omega
        simpa [hc] using Nat.add_le_add ih hone
      · simpa [hc] using ih

section Matched
variable (hpick : Chooses pick) (hall : (all.map (·.index)).Nodup)
include hpick

theorem agrees_matchedExactly : Agrees id (matchedExactly pick all qs).2 := by
  apply forall_mem_round (P := fun q c => c.start = q.start) hpick
  · intro q c h
    exact beq_iff_eq.1 h
  · simp

theorem exhausts_matchedExactly :
    Exhausts id (matchedExactly pick all qs).2 (openIn all (matchedExactly pick all qs).1) := by
  intro q c hq hc
  have := not_near_of_open_round hpick hc hq
  simpa [sameStart] using this

theorem exhausts_matched :
    Exhausts Location.line (matched pick all qs).2 (openIn all (matched pick all qs).1) :=
  fun _ _ hq hc => line_ne_of_open hpick hc hq

include hall

/-- For each line the fewer of its queries and its candidates are matched. -/
theorem served_line_matched (qs : List (Query ω)) (line : UInt32) :
    served Location.line line (matched pick all qs).2 =
      min (qs.countP fun q => q.start.line == line)
        (all.countP fun c => c.start.line == line) := by
  have h := served_eq_min (matched_perm qs hpick hall) (sameLine_of_matched hpick)
    (exhausts_matched hpick) line
  rw [matched, countP_fst_round (fun q => q.start.line == line), matchedExactly,
    countP_fst_round (fun q => q.start.line == line), List.countP_map] at h
  exact h

theorem served_start_matchedExactly (qs : List (Query ω)) (start : Location) :
    served id start (matchedExactly pick all qs).2 =
      min (qs.countP fun q => q.start == start) (all.countP fun c => c.start == start) := by
  have h := served_eq_min (matchedExactly_perm qs hpick hall) (agrees_matchedExactly hpick)
    (exhausts_matchedExactly hpick) start
  rw [matchedExactly, countP_fst_round (fun q => id q.start == start), List.countP_map] at h
  exact h

/-- For each start the fewer of its queries and its candidates are matched exactly. -/
theorem exactly_matched (qs : List (Query ω)) (start : Location) :
    exactly start (matched pick all qs).2 =
      min (qs.countP fun q => q.start == start) (all.countP fun c => c.start == start) := by
  have hfirst := served_start_matchedExactly hpick hall qs start
  -- The second round keeps the exact matches of the first, and more than these there cannot be.
  have hkept : exactly start (matchedExactly pick all qs).2 ≤ exactly start (matched pick all qs).2 :=
    countP_le_round (fun q => by simp) _
  rw [← served_eq_exactly (agrees_matchedExactly hpick)] at hkept
  have hqueries := exactly_le_queries start (matched pick all qs).2
  rw [matched, countP_fst_round (fun q => q.start == start), matchedExactly,
    countP_fst_round (fun q => q.start == start), List.countP_map] at hqueries
  change exactly start (matched pick all qs).2 ≤ qs.countP fun q => q.start == start at hqueries
  have hfound := exactly_le_found start (matched pick all qs).2
  have hperm := (matched_perm qs hpick hall).countP_eq fun c => c.start == start
  rw [List.countP_append] at hperm
  omega

end Matched
end Rounds

section Tables
variable {ρ η ω : Type} [Inhabited η] {kind : RecordKind ρ η ω} {t : Table ρ η} {qs : List (Query ω)}
  {m : List (Option Id)} {id : Id}

/-- Where a record starts. -/
def startOf? (kind : RecordKind ρ η ω) (t : Table ρ η) (id : Id) : Option Location :=
  (t.records.get? id).map kind.start

/-- The queries and the ids of the records they are given: no record is given twice, none to a query of
another line, and no more could be given, neither exactly nor by the line. -/
structure IsMaximum (kind : RecordKind ρ η ω) (t : Table ρ η) (qs : List (Query ω))
    (m : List (Option Id)) : Prop where
  length : m.length = qs.length
  once : m.reduceOption.Nodup
  line : ∀ q id, (q, some id) ∈ qs.zip m →
    ∃ r, t.records.get? id = some r ∧ (kind.start r).line = q.start.line
  exactly : ∀ start, ((qs.zip m).countP fun e =>
      e.1.start == start && e.2.any fun id => startOf? kind t id == some start) =
    min (qs.countP fun q => q.start == start)
      (t.records.values.countP fun r => kind.start r == start)
  onLine : ∀ line, ((qs.zip m).countP fun e => e.1.start.line == line && e.2.isSome) =
    min (qs.countP fun q => q.start.line == line)
      (t.records.values.countP fun r => (kind.start r).line == line)

/-- The ids of the records that the queries are given. -/
def assigned (kind : RecordKind ρ η ω) (t : Table ρ η) (qs : List (Query ω)) : List (Option Id) :=
  (assign kind.pick (candidates kind t) true qs).map fun x => x.bind fun c => t.ids[c.index]?

theorem matchAll_eq_assigned (hpick : Chooses kind.pick) (t : Table ρ η) (qs : List (Query ω)) :
    matchAll kind t true qs = (assigned kind t qs).map fun x => x.map t.count := by
  rw [matchAll, assigned, List.map_map]
  apply List.map_congr_left
  intro x hx
  cases x with
  | none => rfl
  | some c =>
    obtain ⟨id, r, hc⟩ :=
      exists_candidateOf_of_mem (mem_of_mem_assign hpick (nodup_index kind t) hx)
    simp [hc.id, hc.value]

theorem countP_candidates (kind : RecordKind ρ η ω) (t : Table ρ η) (p : Location → Bool) :
    ((candidates kind t).countP fun c => p c.start) =
      t.records.values.countP fun r => p (kind.start r) := by
  have h := congrArg List.length (map_filter_candidates kind t p fun x => x)
  rw [List.length_map, List.length_map, ← List.countP_eq_length_filter,
    ← List.countP_eq_length_filter] at h
  rw [h, Table.rows, SortedMap.values, List.countP_map, List.countP_map]
  rfl

theorem zip_assigned (kind : RecordKind ρ η ω) (t : Table ρ η) (qs : List (Query ω)) :
    qs.zip (assigned kind t qs) = (matched kind.pick (candidates kind t) qs).2.map fun e =>
      (e.1, e.2.bind fun c => t.ids[c.index]?) := by
  have hfst := map_fst_matched kind.pick (candidates kind t) qs
  rw [assigned, assign_exclusive, List.map_map]
  generalize (matched kind.pick (candidates kind t) qs).2 = l at hfst ⊢
  rw [← hfst]
  exact List.zip_map'

/-- A matched candidate stands for a record of the table. -/
theorem exists_candidateOf_of_matched (hpick : Chooses kind.pick) {q : Query ω}
    {c : Candidate (ρ × η)} (h : (q, some c) ∈ (matched kind.pick (candidates kind t) qs).2) :
    ∃ id r, CandidateOf kind t id r c := by
  have hc : some c ∈ assign kind.pick (candidates kind t) true qs := by
    rw [assign_exclusive]
    exact List.mem_map_of_mem h
  exact exists_candidateOf_of_mem (mem_of_mem_assign hpick (nodup_index kind t) hc)

theorem nodup_assigned (hpick : Chooses kind.pick) (t : Table ρ η) (qs : List (Query ω)) :
    (assigned kind t qs).reduceOption.Nodup := by
  have hids : (assigned kind t qs).reduceOption =
      (found (matched kind.pick (candidates kind t) qs).2).filterMap fun c => t.ids[c.index]? := by
    rw [assigned, assign_exclusive, List.reduceOption, found, List.filterMap_filterMap,
      List.map_map, List.filterMap_map]
    rfl
  have hnodup : ((found (matched kind.pick (candidates kind t) qs).2).map (·.index)).Nodup := by
    have hperm := (matched_perm qs hpick (nodup_index kind t)).map (·.index)
    rw [List.map_append] at hperm
    exact (List.nodup_append.1 (hperm.nodup_iff.2 (nodup_index kind t))).1
  rw [hids]
  apply List.pairwise_filterMap.2
  refine (List.pairwise_map.1 hnodup).imp ?_
  intro c d hne i hi j hj hij
  subst hij
  obtain ⟨hlt, _⟩ := List.getElem?_eq_some_iff.1 hi
  exact hne ((List.getElem?_inj hlt t.nodup_ids).1 (hi.trans hj.symm))

theorem isMaximum_assigned (hpick : Chooses kind.pick) (t : Table ρ η) (qs : List (Query ω)) :
    IsMaximum kind t qs (assigned kind t qs) where
  length := by rw [assigned, List.length_map, length_assign]
  once := nodup_assigned hpick t qs
  line := by
    intro q id h
    rw [zip_assigned, List.mem_map] at h
    obtain ⟨⟨p, x⟩, hp, heq⟩ := h
    obtain ⟨rfl, hx⟩ := Prod.mk.inj heq
    obtain ⟨c, rfl, hid⟩ := Option.bind_eq_some_iff.1 hx
    obtain ⟨j, r, hc⟩ := exists_candidateOf_of_matched hpick hp
    obtain rfl : j = id := Option.some.inj (hc.id.symm.trans hid)
    refine ⟨r, hc.record, ?_⟩
    rw [← hc.start]
    exact sameLine_of_matched hpick p c hp
  exactly := by
    intro start
    rw [zip_assigned, List.countP_map, ← countP_candidates kind t (· == start),
      ← exactly_matched hpick (nodup_index kind t)]
    apply List.countP_congr
    intro e he
    obtain ⟨q, _ | c⟩ := e
    · simp
    · obtain ⟨id, r, hc⟩ := exists_candidateOf_of_matched hpick he
      simp [hc.id, startOf?, hc.record, hc.start]
  onLine := by
    intro line
    rw [zip_assigned, List.countP_map, ← countP_candidates kind t (·.line == line),
      ← served_line_matched hpick (nodup_index kind t)]
    apply List.countP_congr
    intro e he
    obtain ⟨q, _ | c⟩ := e
    · simp
    · obtain ⟨id, r, hc⟩ := exists_candidateOf_of_matched hpick he
      simp [hc.id]

end Tables

/-- The counts that exclusive matching finds are those of the records of such an assignment. -/
def MatchesMost {ρ η ω : Type} [Inhabited η] (kind : RecordKind ρ η ω) (t : Table ρ η)
    (qs : List (Query ω)) : Prop :=
  ∃ m, IsMaximum kind t qs m ∧ matchAll kind t true qs = m.map fun x => x.map t.count

/-- Whatever the file and the queries are, exclusive matching of its statements, functions and branches
gives no record twice and serves as many queries as possible, first exactly and then by the line. -/
theorem maximum_of_exclusive (f : FileCoverage) :
    (∀ qs, MatchesMost .statements f.statements qs) ∧
    (∀ qs, MatchesMost .functions f.functions qs) ∧
    ∀ qs, MatchesMost .branches f.branches qs := by
  refine ⟨?_, ?_, ?_⟩
  · intro qs
    exact ⟨_, isMaximum_assigned chooses_highest f.statements qs,
      matchAll_eq_assigned chooses_highest f.statements qs⟩
  · intro qs
    exact ⟨_, isMaximum_assigned chooses_highest f.functions qs,
      matchAll_eq_assigned chooses_highest f.functions qs⟩
  · intro qs
    exact ⟨_, isMaximum_assigned chooses_branch f.branches qs,
      matchAll_eq_assigned chooses_branch f.branches qs⟩

/-- The exact match comes before that of the line, though its query is the later one. -/
example : matchAll .statements ⟨.ofList [(0, .ofNumbers 2 2 2 10)], .ofList [(0, 3)]⟩ true
    [⟨⟨2, 0⟩, ()⟩, ⟨⟨2, 2⟩, ()⟩] = [none, some 3] := by decide

end Coverage.Matching

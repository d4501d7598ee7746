import Coverage.Merge
import Coverage.Proofs.Matching.Exclusive
import Coverage.Proofs.Validity

/-! Raising a table by another: records and ids stay, and each count is combined with that of the one
candidate its record takes. -/
namespace Coverage

namespace Matching
variable {ρ η ω β : Type} [Inhabited η] {kind : RecordKind ρ η ω} {t : Table ρ η}

/-- What a record of a table looks for elsewhere. -/
def queryOf (kind : RecordKind ρ η ω) (t : Table ρ η) (e : Id × ρ) : Query ω :=
  ⟨kind.start e.2, kind.wish e.2 (t.count e.1)⟩

theorem queries_eq (kind : RecordKind ρ η ω) (t : Table ρ η) :
    queries kind t = t.records.entries.map (queryOf kind t) := by
  simp [queries, Table.rows, queryOf, Function.comp_def]

theorem nodup_index (kind : RecordKind ρ η ω) (t : Table ρ η) :
    ((candidates kind t).map (·.index)).Nodup := by
  have h : (candidates kind t).map (·.index) = t.rows.zipIdx.map (·.2) := by
    simp [candidates, Function.comp_def]
  rw [h, List.zipIdx_map_snd]
  exact List.nodup_range'

/-- Candidates chosen by their start are rows chosen by their start, in the order of ids. -/
theorem map_filter_candidates (kind : RecordKind ρ η ω) (t : Table ρ η) (p : Location → Bool)
    (f : ρ × η → β) :
    ((candidates kind t).filter fun c => p c.start).map (fun c => f c.value) =
      (t.rows.filter fun r => p (kind.start r.2.1)).map fun r => f r.2 := by
  rw [candidates]
  generalize 0 = k
  induction t.rows generalizing k with
  | nil => rfl
  | cons r l ih =>
    simp only [List.zipIdx_cons, List.map_cons, List.filter_cons]
    split
    · simp [ih]
    · exact ih _

theorem length_assign {α : Type} (pick : ω → List (Candidate α) → Option (Candidate α))
    (all : List (Candidate α)) (exclusive : Bool) (qs : List (Query ω)) :
    (assign pick all exclusive qs).length = qs.length := by
  cases exclusive with
  | false => simp [assign_shared]
  | true => rw [assign_exclusive, List.length_map, ← List.length_map (·.1), map_fst_matched]

theorem getD_combineArms (combine : Hits → Hits → Hits) {a c : List Hits} {i : Nat}
    (hi : i < a.length) :
    (combineArms combine a c).getD i 0 = combine (a.getD i 0) (c.getD i 0) := by
  induction a generalizing c i with
  | nil => simp at hi
  | cons x a ih =>
    cases c with
    | nil =>
      cases i with
      | zero => rfl
      | succ i =>
        have := ih (c := []) (i := i) (by simpa using hi)
        simpa [combineArms] using this
    | cons y c =>
      cases i with
      | zero => rfl
      | succ i =>
        have := ih (c := c) (i := i) (by simpa using hi)
        simpa [combineArms] using this

end Matching

/-- Records of this kind have one count each and take the highest they find. -/
structure RecordKind.Plain {ρ : Type} (kind : RecordKind ρ Hits Unit) : Prop where
  pick : kind.pick = fun _ => Matching.pickHighest
  combine : kind.combine = id

theorem RecordKind.plain_statements : RecordKind.statements.Plain := ⟨rfl, rfl⟩

theorem RecordKind.plain_functions : RecordKind.functions.Plain := ⟨rfl, rfl⟩

theorem RecordKind.Plain.chooses {ρ : Type} {kind : RecordKind ρ Hits Unit} (h : kind.Plain) :
    Matching.Chooses kind.pick := by
  rw [h.pick]
  exact Matching.chooses_highest

namespace Merge
variable {ρ η ω : Type} [Inhabited η] {kind : RecordKind ρ η ω} {s : Strategy}
  {skeleton t other : Table ρ η} {others : List (Table ρ η)} {id : Id} {r : ρ}

open Matching

/-- The candidate that the record with an id takes in another table. -/
def taken? (kind : RecordKind ρ η ω) (s : Strategy) (skeleton other : Table ρ η) (id : Id) :
    Option (Candidate (ρ × η)) :=
  ((skeleton.ids.zip (assign kind.pick (candidates kind other) s.exclusive
    (queries kind skeleton))).lookup id).join

/-- A count combined with that of the candidate that was taken, if one was. -/
def raiseBy (kind : RecordKind ρ η ω) (s : Strategy) (h : η) (x : Option (Candidate (ρ × η))) : η :=
  (x.map fun c => kind.combine s.combine h c.value.2).getD h

theorem lookup_zip_map {α β : Type} (f : α → β) (ids : List Id) (l : List α) :
    (ids.zip (l.map f)).lookup id = ((ids.zip l).lookup id).map f := by
  induction ids generalizing l with
  | nil => rfl
  | cons a ids ih =>
    cases l with
    | nil => rfl
    | cons x l =>
      simp only [List.map_cons, List.zip_cons_cons, List.lookup_cons, ih]
      split <;> rfl

theorem map_lookup_zip {α : Type} {ids : List Id} {l : List (Option α)} (hn : ids.Nodup)
    (hlen : l.length = ids.length) : ids.map (fun id => ((ids.zip l).lookup id).join) = l := by
  induction ids generalizing l with
  | nil => exact (List.length_eq_zero_iff.1 hlen).symm
  | cons a ids ih =>
    cases l with
    | nil => simp at hlen
    | cons x l =>
      have hrest : ids.map (fun id => (((a :: ids).zip (x :: l)).lookup id).join) =
          ids.map fun id => ((ids.zip l).lookup id).join := by
        apply List.map_congr_left
        intro b hb
        have hne : (b == a) = false := by
          rw [beq_eq_false_iff_ne]
          rintro rfl
          exact (List.nodup_cons.1 hn).1 hb
        simp [List.lookup_cons, hne]
      rw [List.map_cons, hrest, ih (List.nodup_cons.1 hn).2 (by simpa using hlen)]
      simp

theorem map_taken? (kind : RecordKind ρ η ω) (s : Strategy) (skeleton other : Table ρ η) :
    skeleton.ids.map (taken? kind s skeleton other) =
      assign kind.pick (candidates kind other) s.exclusive (queries kind skeleton) := by
  refine map_lookup_zip skeleton.nodup_ids ?_
  rw [length_assign, queries_eq]
  simp [Table.ids, SortedMap.keys]

/-- A count without a record takes nothing. -/
theorem taken?_eq_none (hr : skeleton.records.get? id = none) :
    taken? kind s skeleton other id = none := by
  have hid : id ∉ skeleton.ids := SortedMap.get?_eq_none_iff.1 hr
  rw [taken?, List.lookup_eq_none_iff.2, Option.join_none]
  intro e he
  have hne : id ≠ e.1 := by
    rintro rfl
    exact hid (List.of_mem_zip he).1
  simpa using hne

theorem records_raise (kind : RecordKind ρ η ω) (s : Strategy) (skeleton t other : Table ρ η) :
    (raise kind s skeleton t other).records = t.records := rfl

theorem get?_hits_raise (kind : RecordKind ρ η ω) (s : Strategy) (skeleton t other : Table ρ η)
    (id : Id) :
    (raise kind s skeleton t other).hits.get? id =
      (t.hits.get? id).map fun h => raiseBy kind s h (taken? kind s skeleton other id) := by
  simp only [raise, SortedMap.get?_mapWithKey, matchAll, lookup_zip_map, taken?]
  congr 1
  funext h
  cases (skeleton.ids.zip (assign kind.pick (candidates kind other) s.exclusive
    (queries kind skeleton))).lookup id with
  | none => rfl
  | some x => cases x <;> rfl

/-- A skeleton raised by all other tables in turn. -/
def raised (kind : RecordKind ρ η ω) (s : Strategy) (skeleton : Table ρ η)
    (others : List (Table ρ η)) : Table ρ η :=
  others.foldl (raise kind s skeleton) skeleton

theorem records_foldl_raise (others : List (Table ρ η)) (t : Table ρ η) :
    (others.foldl (raise kind s skeleton) t).records = t.records := by
  induction others generalizing t with
  | nil => rfl
  | cons o others ih => exact ih _

theorem get?_hits_foldl_raise (others : List (Table ρ η)) (t : Table ρ η) :
    (others.foldl (raise kind s skeleton) t).hits.get? id = (t.hits.get? id).map fun h =>
      others.foldl (fun h o => raiseBy kind s h (taken? kind s skeleton o id)) h := by
  induction others generalizing t with
  | nil => simp
  | cons o others ih =>
    simp only [List.foldl_cons, ih, get?_hits_raise, Option.map_map, Function.comp_def]

@[simp] theorem records_raised : (raised kind s skeleton others).records = skeleton.records :=
  records_foldl_raise others skeleton

theorem get?_hits_raised :
    (raised kind s skeleton others).hits.get? id = (skeleton.hits.get? id).map fun h =>
      others.foldl (fun h o => raiseBy kind s h (taken? kind s skeleton o id)) h :=
  get?_hits_foldl_raise others skeleton

theorem keys_foldl_raise (others : List (Table ρ η)) (t : Table ρ η) :
    (others.foldl (raise kind s skeleton) t).hits.keys = t.hits.keys := by
  induction others generalizing t with
  | nil => rfl
  | cons o others ih => rw [List.foldl_cons, ih, raise, SortedMap.keys_mapWithKey]

@[simp] theorem keys_raised : (raised kind s skeleton others).hits.keys = skeleton.hits.keys :=
  keys_foldl_raise others skeleton

theorem counted_raised (h : skeleton.Counted) : (raised kind s skeleton others).Counted := by
  intro id hid
  rw [get?_hits_raised, Option.isSome_map]
  exact h id (by simpa [Table.ids] using hid)

/-- A query that may share its record takes what it would take alone. -/
theorem taken?_shared (hs : s.exclusive = false) (hr : skeleton.records.get? id = some r) :
    taken? kind s skeleton other id =
      alone kind.pick (candidates kind other) (queryOf kind skeleton (id, r)) := by
  have h := map_taken? kind s skeleton other
  rw [hs, assign_shared, queries_eq, Table.ids, SortedMap.keys, List.map_map, List.map_map] at h
  exact List.map_inj_left.1 h (id, r) (SortedMap.get?_eq_some_iff.1 hr)

/-- In exclusive matching the pairs of queries and candidates are those of the records. -/
theorem matched_eq (hs : s.exclusive = true) :
    (matched kind.pick (candidates kind other) (queries kind skeleton)).2 =
      skeleton.records.entries.map fun e =>
        (queryOf kind skeleton e, taken? kind s skeleton other e.1) := by
  have hq := map_fst_matched kind.pick (candidates kind other) (queries kind skeleton)
  have ht := map_taken? kind s skeleton other
  rw [hs, assign_exclusive] at ht
  rw [List.zip_of_prod hq ht.symm, queries_eq, Table.ids, SortedMap.keys, List.map_map,
    List.zip_map']
  rfl

end Merge
end Coverage

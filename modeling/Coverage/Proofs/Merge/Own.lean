import Mathlib.Data.List.Nodup
import Mathlib.Data.List.Pairwise
import Coverage.Proofs.Matching.Own
import Coverage.Proofs.Merge.Raise

/-! Which record of another table a record takes. Candidates stand for records by their ids, and a
record with a candidate of its own takes it unless one with a lower id has done so. -/
namespace Coverage

namespace Matching
variable {ρ η ω : Type} [Inhabited η] {kind : RecordKind ρ η ω} {t : Table ρ η} {j k : Id} {u v : ρ}
  {c d : Candidate (ρ × η)}

/-- The candidate stands for the record with an id. -/
structure CandidateOf (kind : RecordKind ρ η ω) (t : Table ρ η) (j : Id) (u : ρ)
    (c : Candidate (ρ × η)) : Prop where
  mem : c ∈ candidates kind t
  record : t.records.get? j = some u
  id : t.ids[c.index]? = some j
  start : c.start = kind.start u
  value : c.value = (u, t.count j)

theorem mem_candidates : c ∈ candidates kind t ↔
    ∃ e, t.records.entries[c.index]? = some e ∧ c = ⟨c.index, kind.start e.2, e.2, t.count e.1⟩ := by
  rw [candidates, List.mem_map]
  constructor
  · rintro ⟨⟨row, index⟩, hrow, rfl⟩
    rw [List.mem_zipIdx_iff_getElem?, Table.rows, List.getElem?_map] at hrow
    obtain ⟨e, he, rfl⟩ := Option.map_eq_some_iff.1 hrow
    exact ⟨e, he, rfl⟩
  · rintro ⟨e, he, hc⟩
    refine ⟨((e.1, e.2, t.count e.1), c.index), ?_, hc.symm⟩
    rw [List.mem_zipIdx_iff_getElem?, Table.rows, List.getElem?_map, he]
    rfl

theorem exists_candidateOf_of_mem (hc : c ∈ candidates kind t) :
    ∃ j u, CandidateOf kind t j u c := by
  obtain ⟨e, he, heq⟩ := mem_candidates.1 hc
  refine ⟨e.1, e.2, hc, SortedMap.get?_eq_some_iff.2 (List.mem_of_getElem? he), ?_, ?_, ?_⟩
  · rw [Table.ids, SortedMap.keys, List.getElem?_map, he]
    rfl
  · rw [heq]
  · rw [heq]

theorem exists_candidateOf (kind : RecordKind ρ η ω) (hu : t.records.get? j = some u) :
    ∃ c, CandidateOf kind t j u c := by
  obtain ⟨index, hindex⟩ := List.mem_iff_getElem?.1 (SortedMap.get?_eq_some_iff.1 hu)
  refine ⟨⟨index, kind.start u, u, t.count j⟩, mem_candidates.2 ⟨_, hindex, rfl⟩, hu, ?_, rfl, rfl⟩
  rw [Table.ids, SortedMap.keys, List.getElem?_map, hindex]
  rfl

theorem CandidateOf.unique (hc : CandidateOf kind t j u c) (hd : CandidateOf kind t j v d) :
    c = d := by
  refine eq_of_index_eq (nodup_index kind t) hc.mem hd.mem ?_
  obtain ⟨hlt, _⟩ := List.getElem?_eq_some_iff.1 hc.id
  exact (List.getElem?_inj hlt t.nodup_ids).1 (hc.id.trans hd.id.symm)

end Matching

namespace Merge
variable {ρ η ω : Type} [Inhabited η] {kind : RecordKind ρ η ω} {s : Strategy}
  {skeleton other : Table ρ η} {i j k : Id} {r u : ρ} {c : Candidate (ρ × η)}

open Matching

theorem mem_of_taken? (hpick : Chooses kind.pick) (h : taken? kind s skeleton other i = some c) :
    c ∈ candidates kind other := by
  cases hr : skeleton.records.get? i with
  | none =>
    rw [taken?_eq_none hr] at h
    simp at h
  | some r =>
    have hmem : some c ∈ skeleton.ids.map (taken? kind s skeleton other) :=
      h ▸ List.mem_map_of_mem (Table.mem_ids_of_get? hr)
    rw [map_taken?] at hmem
    exact mem_of_mem_assign hpick (nodup_index kind other) hmem

/-- The id of the record that the record with an id takes in another table. -/
def takenId? (kind : RecordKind ρ η ω) (s : Strategy) (skeleton other : Table ρ η) (i : Id) :
    Option Id :=
  (taken? kind s skeleton other i).bind fun c => other.ids[c.index]?

theorem takenId?_eq_some_iff (hpick : Chooses kind.pick) (hc : CandidateOf kind other j u c) :
    takenId? kind s skeleton other i = some j ↔ taken? kind s skeleton other i = some c := by
  rw [takenId?, Option.bind_eq_some_iff]
  constructor
  · rintro ⟨d, hd, hdj⟩
    obtain ⟨k, v, hdk⟩ := exists_candidateOf_of_mem (mem_of_taken? hpick hd)
    have hkj : k = j := Option.some.inj (hdk.id.symm.trans hdj)
    subst hkj
    rw [hd, hdk.unique hc]
  · intro h
    exact ⟨c, h, hc.id⟩

/-- What is taken are the counts of the record with the id that is taken. -/
theorem map_takenId? (hpick : Chooses kind.pick) :
    (takenId? kind s skeleton other i).map other.count =
      (taken? kind s skeleton other i).map (·.value.2) := by
  cases h : taken? kind s skeleton other i with
  | none => rw [takenId?, h]; rfl
  | some c =>
    obtain ⟨j, u, hc⟩ := exists_candidateOf_of_mem (mem_of_taken? hpick h)
    rw [(takenId?_eq_some_iff hpick hc).2 h, Option.map_some, Option.map_some, hc.value]

/-- A count combined in turn with the counts of the records that are taken. -/
theorem get?_hits_raised_takenId? (hpick : Chooses kind.pick) (others : List (Table ρ η)) :
    (raised kind s skeleton others).hits.get? i = (skeleton.hits.get? i).map
      ((others.filterMap fun o => (takenId? kind s skeleton o i).map o.count).foldl
        (kind.combine s.combine)) := by
  rw [get?_hits_raised]
  congr 1
  funext h
  rw [List.foldl_filterMap]
  congr 1
  funext h o
  rw [map_takenId? hpick, raiseBy]
  cases taken? kind s skeleton o i <;> rfl

theorem taken?_of_own (hs : s.exclusive = false) (hr : skeleton.records.get? i = some r)
    (h : Own kind.pick (candidates kind other) (queryOf kind skeleton (i, r)) c) :
    taken? kind s skeleton other i = some c := by
  rw [taken?_shared hs hr, h.alone]

/-- In exclusive matching a record has its own candidate, or one of the same start with a lower id
has. -/
theorem taken?_of_own_or_lower (hs : s.exclusive = true) (hpick : Chooses kind.pick)
    (hr : skeleton.records.get? i = some r)
    (h : Own kind.pick (candidates kind other) (queryOf kind skeleton (i, r)) c) :
    taken? kind s skeleton other i = some c ∨ ∃ k v, k < i ∧ skeleton.records.get? k = some v ∧
      kind.start v = kind.start r ∧ taken? kind s skeleton other k = some c := by
  obtain ⟨pre, post, hentries⟩ := List.append_of_mem (SortedMap.get?_eq_some_iff.1 hr)
  obtain ⟨first, x, rest, heq, hlen, hx⟩ := own_or_taken_before hpick (nodup_index kind other) h
    (pre.map (queryOf kind skeleton)) (post.map (queryOf kind skeleton))
  have hmatched : (matched kind.pick (candidates kind other) (queries kind skeleton)).2 = _ :=
    matched_eq hs
  rw [queries_eq, hentries, List.map_append, List.map_cons, heq, List.map_append,
    List.map_cons] at hmatched
  obtain ⟨hfirst, hrest⟩ := List.append_inj hmatched (by simpa using hlen)
  have hxi := (Prod.mk.inj (List.cons.inj hrest).1).2
  rcases hx with hx | ⟨p, hstart, hp⟩
  · exact .inl (hxi.symm.trans hx)
  · right
    rw [hfirst] at hp
    obtain ⟨⟨k, v⟩, hk, hkp⟩ := List.mem_map.1 hp
    obtain ⟨hquery, htaken⟩ := Prod.mk.inj hkp
    have hsorted := skeleton.records.sorted
    rw [hentries] at hsorted
    have hlt := (List.pairwise_append.1 hsorted).2.2 _ hk _ List.mem_cons_self
    refine ⟨k, v, Std.compare_eq_lt.1 hlt, ?_, ?_, htaken⟩
    · rw [SortedMap.get?_eq_some_iff, hentries]
      exact List.mem_append_left _ hk
    · rw [← hquery] at hstart
      exact hstart

/-- In exclusive matching no two records take one candidate. -/
theorem taken?_inj (hs : s.exclusive = true) (hpick : Chooses kind.pick)
    (hi : taken? kind s skeleton other i = some c) (hk : taken? kind s skeleton other k = some c) :
    i = k := by
  have hnodup : (skeleton.records.entries.filterMap fun e =>
      taken? kind s skeleton other e.1).Nodup := by
    have hall : (candidates kind other).Nodup := .of_map _ (nodup_index kind other)
    have hfound : (found (matched kind.pick (candidates kind other) (queries kind skeleton)).2).Nodup :=
      (List.nodup_append.1 ((matched_perm _ hpick (nodup_index kind other)).nodup_iff.2 hall)).1
    rwa [matched_eq hs, found, List.filterMap_map] at hfound
  have hpair : skeleton.records.entries.Pairwise fun d e =>
      taken? kind s skeleton other d.1 = some c → taken? kind s skeleton other e.1 = some c →
        d.1 = e.1 :=
    (List.pairwise_filterMap.1 hnodup).imp fun hne hd he => (hne c hd c he rfl).elim
  have hmem {l : Id} (hl : taken? kind s skeleton other l = some c) :
      ∃ v, (l, v) ∈ skeleton.records.entries := by
    cases hr : skeleton.records.get? l with
    | none => simp [taken?_eq_none hr] at hl
    | some v => exact ⟨v, SortedMap.get?_eq_some_iff.1 hr⟩
  obtain ⟨u, hu⟩ := hmem hi
  obtain ⟨v, hv⟩ := hmem hk
  have : Std.Symm fun d e : Id × ρ => taken? kind s skeleton other d.1 = some c →
      taken? kind s skeleton other e.1 = some c → d.1 = e.1 := ⟨fun d e h he hd => (h hd he).symm⟩
  exact hpair.forall_of_forall (fun _ _ _ _ => rfl) hu hv hi hk

end Merge
end Coverage

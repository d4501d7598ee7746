import Coverage.Proofs.Merge.Arms
import Coverage.Proofs.Merge.Branches
import Coverage.Proofs.Merge.Order

/-! Counts that were raised once are not raised by the same table again. A table whose counts have only
grown still finds what it found before. -/
namespace Coverage.Merge

variable {ρ η ω : Type} {kind : RecordKind ρ η ω} {arms : η → List Hits} {g k : Id → η → η}
  {t u v o : Table ρ η} {others : List (Table ρ η)} {i : Id} {r : ρ}

open Matching Table

/-- The table `t` has the records of `u` and its counts, each made at least as high by a function of the
id. A count without a record stays as it is. -/
structure LiftedBy (arms : η → List Hits) (g : Id → η → η) (u t : Table ρ η) : Prop where
  records : t.records = u.records
  hits : ∀ i, t.hits.get? i = (u.hits.get? i).map (g i)
  atMost : ∀ i h, AtMost (arms h) (arms (g i h))
  unrecorded : ∀ i h, u.records.get? i = none → g i h = h

namespace LiftedBy

theorem rfl : LiftedBy arms (fun _ h => h) t t where
  records := Eq.refl _
  hits i := by rw [Option.map_id']
  atMost _ _ := AtMost.rfl
  unrecorded _ _ _ := Eq.refl _

theorem of_eq (h : t = u) : LiftedBy arms (fun _ x => x) u t := by
  subst h
  exact rfl

theorem trans (h : LiftedBy arms g u t) (h' : LiftedBy arms k t v) :
    LiftedBy arms (fun i x => k i (g i x)) u v where
  records := h'.records.trans h.records
  hits i := by
    rw [h'.hits, h.hits, Option.map_map]
    rfl
  atMost i x := (h.atMost i x).trans (h'.atMost i (g i x))
  unrecorded i x hi := by
    rw [h'.unrecorded i _ (h.records ▸ hi), h.unrecorded i x hi]

variable [Inhabited η]

theorem length_count (h : LiftedBy arms g u t) (i : Id) :
    (arms (t.count i)).length = (arms (u.count i)).length := by
  rw [count, count, h.hits]
  cases u.hits.get? i with
  | none => exact Eq.refl _
  | some x => exact (h.atMost i x).length.symm

theorem taken?_eq (hk : kind.Armed arms) (h : LiftedBy arms g u t) (s : Strategy) (o : Table ρ η)
    (i : Id) : taken? kind s t o i = taken? kind s u o i := by
  have hqueries : queries kind t = queries kind u := by
    rw [queries_eq, queries_eq, h.records]
    refine List.map_congr_left fun e _ => ?_
    rw [queryOf, queryOf, hk.wish _ _ _ (h.length_count e.1)]
  rw [taken?, taken?, hqueries, ids, ids, h.records]

end LiftedBy

theorem atMost_raiseBy (hk : kind.Armed arms) (h : η) (x : Option (Candidate (ρ × η))) :
    AtMost (arms h) (arms (raiseBy kind .max h x)) := by
  cases x with
  | none => exact AtMost.rfl
  | some c =>
    change AtMost (arms h) (arms (kind.combine Strategy.max.combine h c.value.2))
    rw [hk.combine, combine_eq_max (by simp)]
    exact atMost_combineArms _ _

/-- What has been raised by a candidate is not raised by it again. -/
theorem raiseBy_again (hk : kind.Armed arms) {h y : η} {x : Option (Candidate (ρ × η))}
    (hy : AtMost (arms (raiseBy kind .max h x)) (arms y)) : raiseBy kind .max y x = y := by
  cases x with
  | none => rfl
  | some c =>
    apply hk.injective
    change AtMost (arms (kind.combine Strategy.max.combine h c.value.2)) (arms y) at hy
    change arms (kind.combine Strategy.max.combine y c.value.2) = arms y
    rw [hk.combine, combine_eq_max (by simp)] at hy ⊢
    exact hy.max_again

theorem atMost_foldl_raiseBy (hk : kind.Armed arms) (y : Table ρ η → Option (Candidate (ρ × η)))
    (others : List (Table ρ η)) (h : η) :
    AtMost (arms h) (arms (others.foldl (fun h o => raiseBy kind .max h (y o)) h)) := by
  induction others generalizing h with
  | nil => exact AtMost.rfl
  | cons o others ih => exact (atMost_raiseBy hk h (y o)).trans (ih _)

variable [Inhabited η]

theorem lifted_raised (hk : kind.Armed arms) (others : List (Table ρ η)) :
    ∃ g, LiftedBy arms g u (raised kind .max u others) := by
  refine ⟨fun i h => others.foldl (fun h o => raiseBy kind .max h (taken? kind .max u o i)) h,
    records_raised, fun i => get?_hits_raised, fun i => atMost_foldl_raiseBy hk _ others,
    fun i h hi => ?_⟩
  induction others with
  | nil => rfl
  | cons o others ih =>
    rw [List.foldl_cons, taken?_eq_none hi]
    exact ih

theorem raised_again (hk : kind.Armed arms) (h : LiftedBy arms g (raised kind .max u [o]) t) :
    raised kind .max t [o] = t := by
  obtain ⟨_, hraised⟩ := lifted_raised (u := u) hk [o]
  refine ext_get? records_raised fun i => ?_
  rw [get?_hits_raised, h.hits, get?_hits_raised]
  simp only [List.foldl_cons, List.foldl_nil, Option.map_map, Function.comp_def]
  congr 1
  funext x
  rw [(hraised.trans h).taken?_eq hk]
  exact raiseBy_again hk (h.atMost i _)

/-- Where starts tell the records of a table apart, the one with a given start is taken. -/
theorem map_taken?_of_distinct {j : Id} {v : ρ} (hpick : Chooses kind.pick)
    (hr : t.records.get? i = some r) (hu : u.Distinct kind) (hv : u.records.get? j = some v)
    (hstart : kind.start v = kind.start r) :
    (taken? kind .max t u i).map (·.value.2) = some (u.count j) := by
  obtain ⟨c, hc⟩ := exists_candidateOf kind hv
  have hown : Own kind.pick (candidates kind u) (queryOf kind t (i, r)) c := by
    refine own_of_unique hpick hc.mem (hc.start.trans hstart) fun d hd hdstart => ?_
    obtain ⟨l, w, hdl⟩ := exists_candidateOf_of_mem hd
    have hwv : kind.start w = kind.start v := hdl.start.symm.trans (hdstart.trans hstart.symm)
    obtain rfl := hu.id_eq hdl.record hv hwv
    exact hdl.unique hc
  rw [taken?_of_own rfl hr hown, Option.map_some, hc.value]

/-- Where starts do not tell branches apart but signatures do, the one with a given signature is taken. -/
theorem map_taken?_branches {t u : Table BranchSite (List Hits)} {j : Id} {b w : BranchSite}
    (ht : FileCoverage.ArmsCounted t) (hu : FileCoverage.ArmsCounted u)
    (hb : t.records.get? i = some b) (hw : u.Sole j w) (hsig : w.signature = b.signature) :
    (taken? .branches .max t u i).map (·.value.2) = some (u.count j) := by
  obtain ⟨c, hc⟩ := exists_candidateOf .branches hw.get?
  rw [taken?_of_own rfl hb (own_branch ht hu hb hw hsig hc), Option.map_some, hc.value]

/-- Each record takes in the other table the record with its own id. -/
def TakesOwn (kind : RecordKind ρ η ω) (t u : Table ρ η) : Prop :=
  ∀ i r, t.records.get? i = some r →
    (taken? kind .max t u i).map (·.value.2) = some (u.count i)

theorem takesOwn_of_distinct (hpick : Chooses kind.pick) (hrecords : t.records = u.records)
    (hu : u.Distinct kind) : TakesOwn kind t u :=
  fun _ _ hr => map_taken?_of_distinct hpick hr hu (hrecords ▸ hr) rfl

theorem takesOwn_branches {t u : Table BranchSite (List Hits)} (ht : FileCoverage.ArmsCounted t)
    (hu : FileCoverage.ArmsCounted u) (hrecords : t.records = u.records)
    (hn : (u.records.entries.map fun e => e.2.signature).Nodup) : TakesOwn .branches t u := by
  intro i b hb
  have hmem : (i, b) ∈ u.records.entries := SortedMap.get?_eq_some_iff.1 (hrecords ▸ hb)
  exact map_taken?_branches ht hu hb (filter_eq_singleton hn hmem) rfl

theorem get?_hits_raised_own (hown : TakesOwn kind t u) (hr : t.records.get? i = some r) :
    (raised kind .max t [u]).hits.get? i =
      (t.hits.get? i).map fun h => kind.combine max h (u.count i) := by
  obtain ⟨c, hc, hcount⟩ := Option.map_eq_some_iff.1 (hown i r hr)
  rw [get?_hits_raised, ← hcount, ← combine_eq_max (s := .max) (by simp)]
  simp only [List.foldl_cons, List.foldl_nil, hc]
  rfl

theorem get?_hits_raised_unrecorded (hr : t.records.get? i = none) :
    (raised kind .max t [u]).hits.get? i = t.hits.get? i := by
  rw [get?_hits_raised]
  simp only [List.foldl_cons, List.foldl_nil, taken?_eq_none hr]
  exact Option.map_id'

/-- Higher counts gain nothing from the counts they came from. -/
theorem raised_of_lower (hk : kind.Armed arms) (h : LiftedBy arms g u t)
    (hown : TakesOwn kind t u) : raised kind .max t [u] = t := by
  refine ext_get? records_raised fun i => ?_
  cases hr : t.records.get? i with
  | none => exact get?_hits_raised_unrecorded hr
  | some r =>
    rw [get?_hits_raised_own hown hr, h.hits, Option.map_map]
    cases hu : u.hits.get? i with
    | none => rfl
    | some x =>
      have hcount : u.count i = x := by rw [count, hu, Option.getD_some]
      rw [Option.map_some, Option.map_some, Option.some_inj, Function.comp_apply, hcount]
      apply hk.injective
      rw [hk.combine, (h.atMost i x).max_left]

/-- Lower counts gain all that makes the higher ones higher. -/
theorem raised_of_higher (hk : kind.Armed arms) (h : LiftedBy arms g u t)
    (hown : TakesOwn kind u t) : raised kind .max u [t] = t := by
  refine ext_get? (records_raised.trans h.records.symm) fun i => ?_
  rw [h.hits]
  cases hr : u.records.get? i with
  | none =>
    have hg : g i = id := funext fun x => h.unrecorded i x hr
    rw [get?_hits_raised_unrecorded hr, hg, Option.map_id, id]
  | some r =>
    rw [get?_hits_raised_own hown hr]
    cases hu : u.hits.get? i with
    | none => rfl
    | some x =>
      have hcount : t.count i = g i x := by
        rw [count, h.hits, hu, Option.map_some, Option.getD_some]
      rw [Option.map_some, Option.map_some, Option.some_inj, hcount]
      apply hk.injective
      rw [hk.combine, (h.atMost i x).max_right]

end Coverage.Merge

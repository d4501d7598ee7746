import Coverage.Proofs.Script.Grouping
import Coverage.Proofs.Script.Words
import Mathlib.Data.List.Permutation

/-! The cover of a set of breakpoints: their grouping, with room before the first range and after the last.
The cover is the only list of ranges with this property, and to compute it no sum and no difference of
64-bit words goes out of bounds. -/
namespace Coverage.CodeRange

variable {P : Nat → Prop} {l groups ranges : List CodeRange} {r s : CodeRange} {points : List Nat}
  {n length before after : Nat} {o : RangeOptions}

/-- The ranges are those of a grouping, except that the first starts earlier and the last stops later. -/
structure Padded (o : RangeOptions) (length : Nat) (groups ranges : List CodeRange) : Prop where
  size : ranges.length = groups.length
  start : ∀ (i : Nat) g r, groups[i]? = some g → ranges[i]? = some r →
    r.start = if i = 0 then g.start - o.padBefore else g.start
  stop : ∀ (i : Nat) g r, groups[i]? = some g → ranges[i]? = some r →
    r.stop = if i + 1 = groups.length then min (g.stop + o.padAfter) length else g.stop

structure IsCover (P : Nat → Prop) (length : Nat) (o : RangeOptions) (ranges : List CodeRange) :
    Prop where
  grouping : ∃ groups, IsGrouping P o.gap groups ∧ Padded o length groups ranges
  ordered : ranges.Pairwise fun r s => r.stop ≤ s.start
  within : ∀ r ∈ ranges, Within length r
  covers : ∀ n, P n → Holds ranges n

theorem getElem?_padFirst (before : Nat) (l : List CodeRange) (i : Nat) :
    (padFirst before l)[i]? =
      l[i]?.map fun r => ⟨if i = 0 then r.start - before else r.start, r.stop⟩ := by
  cases l with
  | nil => rfl
  | cons r l =>
    cases i with
    | zero => rfl
    | succ i => simp [padFirst]

theorem getElem?_padLast (after length : Nat) (l : List CodeRange) (i : Nat) :
    (padLast after length l)[i]? = l[i]?.map fun r =>
      ⟨r.start, if i + 1 = l.length then min (r.stop + after) length else r.stop⟩ := by
  fun_induction padLast after length l generalizing i with
  | case1 => rfl
  | case2 r =>
    cases i with
    | zero => rfl
    | succ i => simp
  | case3 r l hl ih =>
    cases i with
    | zero =>
      have hne : l ≠ [] := hl
      simp [hne]
    | succ i => simp [ih]

theorem length_padFirst (before : Nat) (l : List CodeRange) : (padFirst before l).length = l.length := by
  cases l with
  | nil => rfl
  | cons r l => rfl

theorem map_start_padLast (after length : Nat) (l : List CodeRange) :
    (padLast after length l).map (·.start) = l.map (·.start) := by
  fun_induction padLast after length l with
  | case1 => rfl
  | case2 => rfl
  | case3 r l _ ih => rw [List.map_cons, List.map_cons, ih]

theorem length_padLast (after length : Nat) (l : List CodeRange) :
    (padLast after length l).length = l.length := by
  simpa using congrArg List.length (map_start_padLast after length l)

theorem ordered_padFirst (h : l.Pairwise fun r s => r.stop ≤ s.start) :
    (padFirst before l).Pairwise fun r s => r.stop ≤ s.start := by
  cases l with
  | nil => exact h
  | cons r l => exact List.pairwise_cons.2 (List.pairwise_cons.1 h)

theorem ordered_padLast (h : l.Pairwise fun r s => r.stop ≤ s.start) :
    (padLast after length l).Pairwise fun r s => r.stop ≤ s.start := by
  fun_induction padLast after length l with
  | case1 => exact h
  | case2 r => exact List.pairwise_singleton _ _
  | case3 r l _ ih =>
    obtain ⟨hr, hl⟩ := List.pairwise_cons.1 h
    refine List.pairwise_cons.2 ⟨?_, ih hl⟩
    intro s hs
    have hstart : s.start ∈ l.map (·.start) :=
      map_start_padLast after length l ▸ List.mem_map_of_mem hs
    obtain ⟨t, ht, heq⟩ := List.mem_map.1 hstart
    exact heq ▸ hr t ht

theorem padded_pad (o : RangeOptions) (length : Nat) (l : List CodeRange) :
    Padded o length l (padLast o.padAfter length (padFirst o.padBefore l)) where
  size := by rw [length_padLast, length_padFirst]
  start := by
    intro i g r hg hr
    rw [getElem?_padLast, getElem?_padFirst, hg] at hr
    cases hr
    rfl
  stop := by
    intro i g r hg hr
    rw [getElem?_padLast, getElem?_padFirst, hg, length_padFirst] at hr
    cases hr
    rfl

theorem Padded.unique (h : Padded o length groups l) (h' : Padded o length groups ranges) :
    l = ranges := by
  apply List.ext_getElem?
  intro i
  cases hg : groups[i]? with
  | none =>
    have hlen := List.getElem?_eq_none_iff.1 hg
    rw [List.getElem?_eq_none (h.size ▸ hlen), List.getElem?_eq_none (h'.size ▸ hlen)]
  | some g =>
    obtain ⟨hlt, _⟩ := List.getElem?_eq_some_iff.1 hg
    obtain ⟨r, hr⟩ : ∃ r, l[i]? = some r := ⟨_, List.getElem?_eq_getElem (h.size ▸ hlt)⟩
    obtain ⟨s, hs⟩ : ∃ s, ranges[i]? = some s := ⟨_, List.getElem?_eq_getElem (h'.size ▸ hlt)⟩
    have hstart := (h.start i g r hg hr).trans (h'.start i g s hg hs).symm
    have hstop := (h.stop i g r hg hr).trans (h'.stop i g s hg hs).symm
    rw [hr, hs]
    cases r
    cases s
    exact congrArg some (congrArg₂ CodeRange.mk hstart hstop)

theorem IsCover.unique (h : IsCover P length o l) (h' : IsCover P length o ranges) : l = ranges := by
  obtain ⟨groups, hgroups, hpad⟩ := h.grouping
  obtain ⟨groups', hgroups', hpad'⟩ := h'.grouping
  obtain rfl := hgroups.unique hgroups'
  exact hpad.unique hpad'

/-- The breakpoints inside the code. -/
def IsPoint (points : List Nat) (length n : Nat) : Prop := n ∈ points ∧ n < length

theorem isGrouping_nil (gap : Nat) (h : ∀ n, ¬ P n) : IsGrouping P gap [] where
  ordered := .nil
  ends := by simp
  covers := fun n hn => (h n hn).elim
  together := fun a _ hab => (h a hab.left).elim

theorem cover_eq_nil_iff : cover points length o = [] ↔ ∀ n ∈ points, length ≤ n := by
  constructor
  · intro hnil n hn
    by_contra hlt
    obtain ⟨r, hr, _⟩ := holds_cover (o := o) hn (by omega : n < length)
    rw [hnil] at hr
    simp at hr
  · intro h
    rw [cover]
    cases hb : breakpoints points length with
    | nil => rfl
    | cons n rest =>
      obtain ⟨hn, hlt⟩ := mem_breakpoints.1 (hb ▸ List.mem_cons_self : n ∈ breakpoints points length)
      have := h n hn
      omega

theorem isCover_cover (points : List Nat) (length : Nat) (o : RangeOptions) :
    IsCover (IsPoint points length) length o (cover points length o) := by
  have hsorted := pairwise_breakpoints points length
  have hpoint : IsPoint points length = (· ∈ breakpoints points length) :=
    funext fun n => propext mem_breakpoints.symm
  refine ⟨?_, ?_, within_cover, fun n hn => holds_cover hn.1 hn.2⟩
  · rw [hpoint, cover]
    cases hb : breakpoints points length with
    | nil => exact ⟨[], isGrouping_nil o.gap (by simp), padded_pad o length []⟩
    | cons n rest =>
      rw [hb] at hsorted
      exact ⟨_, isGrouping_group o.gap hsorted, padded_pad o length _⟩
  · rw [cover]
    cases hb : breakpoints points length with
    | nil => exact .nil
    | cons n rest =>
      rw [hb] at hsorted
      exact ordered_padLast (ordered_padFirst (ordered_group (Nat.le_refl n) hsorted))

theorem isCover_iff : IsCover (IsPoint points length) length o ranges ↔
    ranges = cover points length o :=
  ⟨fun h => h.unique (isCover_cover points length o), fun h => h ▸ isCover_cover points length o⟩

/-- The cover is the one list of ranges that covers the breakpoints inside the code as it should. It is
empty only without breakpoints, depends on nothing but their set, and is found in 64-bit words without a
sum or a difference that is out of bounds. -/
theorem cover_of_breakpoints (points : List Nat) (length : Nat) (o : RangeOptions) :
    (∀ ranges, IsCover (IsPoint points length) length o ranges ↔ ranges = cover points length o) ∧
    (cover points length o = [] ↔ ∀ n ∈ points, length ≤ n) ∧
    (∀ points', (∀ n < length, n ∈ points' ↔ n ∈ points) →
      cover points' length o = cover points length o) ∧
    ∀ (words : List UInt64) (size gap before after : UInt64) (minSize : Nat),
      (Word.cover? words size gap before after).map (List.map Word.Bounds.range) =
        some (cover (words.map UInt64.toNat) size.toNat
          ⟨gap.toNat, before.toNat, after.toNat, minSize⟩) := by
  refine ⟨fun ranges => isCover_iff, cover_eq_nil_iff, ?_, Word.cover?_eq⟩
  intro points' h
  have hpoint : IsPoint points' length = IsPoint points length := by
    funext n
    apply propext
    constructor
    · rintro ⟨hn, hlt⟩
      exact ⟨(h n hlt).1 hn, hlt⟩
    · rintro ⟨hn, hlt⟩
      exact ⟨(h n hlt).2 hn, hlt⟩
  apply isCover_iff.1
  rw [← hpoint]
  exact isCover_cover points' length o

/-- The last breakpoint of the first list lies behind the code, and a gap of the threshold separates. -/
theorem cover_of_breakpoints_sample :
    (∀ n < 5000, n ∈ [0, 40, 1040, 4999, 5000] ↔ n ∈ [1040, 0, 4999, 40, 0]) ∧
    cover [0, 40, 1040, 4999, 5000] 5000 ⟨1000, 7, 7, 0⟩ =
      cover [1040, 0, 4999, 40, 0] 5000 ⟨1000, 7, 7, 0⟩ ∧
    cover [1040, 0, 4999, 40, 0] 5000 ⟨1000, 7, 7, 0⟩ = [⟨0, 41⟩, ⟨1040, 1041⟩, ⟨4999, 5000⟩] := by
  have hsame : ∀ n < 5000, n ∈ [0, 40, 1040, 4999, 5000] ↔ n ∈ [1040, 0, 4999, 40, 0] := by
    intro n hn
    simp only [List.mem_cons, List.not_mem_nil, or_false]
    omega
  exact ⟨hsame, (cover_of_breakpoints _ 5000 ⟨1000, 7, 7, 0⟩).2.2.1 _ hsame, by cbv⟩

end Coverage.CodeRange

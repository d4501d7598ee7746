import Coverage.Proofs.Script.Ranges
import Coverage.Table

/-! The cover of breakpoints in 64-bit words. Every sum and every difference is checked, save those that
stop at the ends of the words; no check fails, and the ranges are those of unbounded numbers. -/
namespace Coverage.CodeRange.Word

/-- A range with ends in words. -/
structure Bounds where
  start : UInt64
  stop : UInt64

def Bounds.range (b : Bounds) : CodeRange := ⟨b.start.toNat, b.stop.toNat⟩

def add? (a b : UInt64) : Option UInt64 :=
  if a.toNat + b.toNat < UInt64.size then some (a + b) else none

def sub? (a b : UInt64) : Option UInt64 := if b ≤ a then some (a - b) else none

/-- A difference that stops at zero. -/
def monus (a b : UInt64) : UInt64 := if b ≤ a then a - b else 0

def breakpoints (l : List UInt64) (length : UInt64) : List UInt64 :=
  ((l.filter (· < length)).mergeSort).eraseReps

def group? (gap start last : UInt64) : List UInt64 → Option (List Bounds)
  | [] => do return [⟨start, ← add? last 1⟩]
  | n :: r => do
    if (← sub? n last) < gap then group? gap start n r
    else return ⟨start, ← add? last 1⟩ :: (← group? gap n n r)

def padFirst (before : UInt64) : List Bounds → List Bounds
  | [] => []
  | b :: rest => { b with start := monus b.start before } :: rest

def padLast (after length : UInt64) : List Bounds → List Bounds
  | [] => []
  | [b] => [{ b with stop := min (Hits.add b.stop after) length }]
  | b :: rest => b :: padLast after length rest

def cover? (l : List UInt64) (length gap before after : UInt64) : Option (List Bounds) :=
  match breakpoints l length with
  | [] => some []
  | n :: r => (group? gap n n r).map fun bounds => padLast after length (padFirst before bounds)

variable {a b gap start last length before after : UInt64} {points : List UInt64} {l : List Bounds}

theorem eraseReps_map_toNat : ∀ l : List UInt64,
    (l.map UInt64.toNat).eraseReps = l.eraseReps.map UInt64.toNat
  | [] => rfl
  | [_] => rfl
  | a :: b :: l => by
    rw [List.map_cons, List.map_cons, eraseReps_cons_cons, eraseReps_cons_cons,
      ← List.map_cons, ← List.map_cons, eraseReps_map_toNat, eraseReps_map_toNat]
    by_cases hab : a = b
    · simp [hab]
    · simp [hab, UInt64.toNat_inj]

theorem map_toNat_breakpoints (l : List UInt64) (length : UInt64) :
    (breakpoints l length).map UInt64.toNat =
      CodeRange.breakpoints (l.map UInt64.toNat) length.toNat := by
  rw [breakpoints, CodeRange.breakpoints, ← eraseReps_map_toNat, List.map_mergeSort, List.filter_map]
  · rfl
  · intro a _ b _
    exact decide_eq_decide.2 UInt64.le_iff_toNat_le

theorem sub?_of_le (h : b ≤ a) : sub? a b = some (a - b) := if_pos h

theorem toNat_sub (h : b.toNat ≤ a.toNat) : (a - b).toNat = a.toNat - b.toNat :=
  UInt64.toNat_sub_of_le a b (UInt64.le_iff_toNat_le.2 h)

/-- Below the length of the code there is room for one more. -/
theorem add?_one_of_lt (h : last < length) :
    ∃ n, add? last 1 = some n ∧ n.toNat = last.toNat + 1 := by
  have hlt := UInt64.lt_iff_toNat_lt.1 h
  have hbound := UInt64.toNat_lt length
  have hsum : last.toNat + (1 : UInt64).toNat < UInt64.size := by
    change last.toNat + 1 < 2 ^ 64
    omega
  refine ⟨last + 1, if_pos hsum, ?_⟩
  rw [UInt64.toNat_add]
  exact Nat.mod_eq_of_lt hsum

theorem toNat_monus : (monus a b).toNat = a.toNat - b.toNat := by
  rw [monus]
  split
  · next h => exact toNat_sub (UInt64.le_iff_toNat_le.1 h)
  · next h =>
    have := mt UInt64.le_iff_toNat_le.2 h
    change 0 = _
    omega

variable (gap start) in
/-- Grouping ascending words below the length of the code does not fail. -/
theorem exists_group? (hsorted : (last :: points).Pairwise (· < ·))
    (hlength : ∀ n ∈ last :: points, n < length) :
    ∃ l, group? gap start last points = some l ∧
      l.map Bounds.range =
        CodeRange.group gap.toNat start.toNat last.toNat (points.map UInt64.toNat) := by
  obtain ⟨stop, hstop, hval⟩ := add?_one_of_lt (hlength last List.mem_cons_self)
  induction points generalizing start last stop with
  | nil => exact ⟨[⟨start, stop⟩], by simp [group?, hstop], by simp [Bounds.range, hval, group]⟩
  | cons n points ih =>
    obtain ⟨hhead, hrest⟩ := List.pairwise_cons.1 hsorted
    have hlength' : ∀ m ∈ n :: points, m < length := fun m hm => hlength m (.tail _ hm)
    obtain ⟨next, hnext, hnextval⟩ := add?_one_of_lt (hlength' n List.mem_cons_self)
    have hle : last.toNat ≤ n.toNat :=
      Nat.le_of_lt (UInt64.lt_iff_toNat_lt.1 (hhead n List.mem_cons_self))
    have hgap : n - last < gap ↔ n.toNat - last.toNat < gap.toNat := by
      rw [UInt64.lt_iff_toNat_lt, toNat_sub hle]
    by_cases hclose : n - last < gap
    · obtain ⟨l, hl, hmap⟩ := ih start hrest hlength' next hnext hnextval
      refine ⟨l, ?_, ?_⟩
      · simp [group?, sub?_of_le (UInt64.le_iff_toNat_le.2 hle), hclose, hl]
      · rw [hmap, List.map_cons, group, if_pos (hgap.1 hclose)]
    · obtain ⟨l, hl, hmap⟩ := ih n hrest hlength' next hnext hnextval
      refine ⟨⟨start, stop⟩ :: l, ?_, ?_⟩
      · simp [group?, sub?_of_le (UInt64.le_iff_toNat_le.2 hle), hclose, hl, hstop]
      · rw [List.map_cons, hmap, List.map_cons, group, if_neg (mt hgap.2 hclose), Bounds.range, hval]

theorem map_range_padFirst (before : UInt64) (l : List Bounds) :
    (padFirst before l).map Bounds.range = CodeRange.padFirst before.toNat (l.map Bounds.range) := by
  cases l with
  | nil => rfl
  | cons b l => simp [padFirst, CodeRange.padFirst, Bounds.range, toNat_monus]

/-- A stop cut at the greatest word and then at the length of the code is cut at that length. -/
theorem toNat_min_add : (min (Hits.add a after) length).toNat =
    min (a.toNat + after.toNat) length.toNat := by
  have hlength := UInt64.toNat_lt length
  have hsum : (Hits.add a after).toNat = min (a.toNat + after.toNat) (UInt64.size - 1) := Hits.toNat_add
  have hmin : (min (Hits.add a after) length).toNat = min (Hits.add a after).toNat length.toNat := by
    change (if Hits.add a after ≤ length then Hits.add a after else length).toNat = _
    split
    · next h => exact (Nat.min_eq_left (UInt64.le_iff_toNat_le.1 h)).symm
    · next h =>
      have := mt UInt64.le_iff_toNat_le.2 h
      omega
  have hsize : UInt64.size = 2 ^ 64 := rfl
  omega

theorem map_range_padLast (after length : UInt64) (l : List Bounds) :
    (padLast after length l).map Bounds.range =
      CodeRange.padLast after.toNat length.toNat (l.map Bounds.range) := by
  fun_induction padLast after length l with
  | case1 => rfl
  | case2 b => simp [CodeRange.padLast, Bounds.range, toNat_min_add]
  | case3 b l hl ih =>
    rw [List.map_cons, List.map_cons, ih, CodeRange.padLast]
    simpa using hl

/-- Words are enough: no sum and no difference goes out of bounds. -/
theorem cover?_eq (points : List UInt64) (length gap before after : UInt64) (minSize : Nat) :
    (cover? points length gap before after).map (List.map Bounds.range) =
      some (CodeRange.cover (points.map UInt64.toNat) length.toNat
        ⟨gap.toNat, before.toNat, after.toNat, minSize⟩) := by
  have hmap := map_toNat_breakpoints points length
  have hsorted := pairwise_breakpoints (points.map UInt64.toNat) length.toNat
  have hlt : ∀ n ∈ CodeRange.breakpoints (points.map UInt64.toNat) length.toNat, n < length.toNat :=
    fun n hn => (mem_breakpoints.1 hn).2
  rw [cover?, CodeRange.cover, ← hmap]
  rw [← hmap] at hsorted hlt
  cases hb : breakpoints points length with
  | nil => rfl
  | cons n r =>
    rw [hb] at hsorted hlt
    have hsorted' : (n :: r).Pairwise (· < ·) :=
      (List.pairwise_map.1 hsorted).imp UInt64.lt_iff_toNat_lt.2
    have hlt' : ∀ m ∈ n :: r, m < length := fun m hm =>
      UInt64.lt_iff_toNat_lt.2 (hlt _ (List.mem_map_of_mem hm))
    obtain ⟨l, hl, hrange⟩ := exists_group? gap n hsorted' hlt'
    simp [hl, map_range_padLast, map_range_padFirst, hrange]

end Coverage.CodeRange.Word

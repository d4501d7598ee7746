import Coverage.Script.Ranges

/-! Ranges around breakpoints: they lie inside the code, every breakpoint of the code is in one of them,
and no span around it is skipped. -/
namespace Coverage

section Runs
variable {α : Type} [BEq α] [LawfulBEq α] {a b : α} {l : List α}

omit [LawfulBEq α] in
theorem eraseReps_loop (a : α) (l acc : List α) :
    List.eraseRepsBy.loop (· == ·) a l acc =
      acc.reverse ++ List.eraseRepsBy.loop (· == ·) a l [] := by
  induction l generalizing a acc with
  | nil => simp [List.eraseRepsBy.loop]
  | cons b l ih =>
    rw [List.eraseRepsBy.loop, List.eraseRepsBy.loop]
    split
    · exact ih a acc
    · rw [ih b (a :: acc), ih b [a]]
      simp

theorem eraseReps_cons_cons :
    (a :: b :: l).eraseReps = if a == b then (a :: l).eraseReps else a :: (b :: l).eraseReps := by
  simp only [List.eraseReps, List.eraseRepsBy]
  rw [List.eraseRepsBy.loop]
  by_cases h : a = b
  · simp [h]
  · rw [beq_false_of_ne h, eraseReps_loop b l [a], if_neg (by simp)]
    rfl

theorem mem_eraseReps : ∀ {l : List α}, a ∈ l.eraseReps ↔ a ∈ l
  | [] => .rfl
  | [_] => .rfl
  | b :: c :: l => by
    rw [eraseReps_cons_cons]
    split
    · next h => rw [mem_eraseReps, beq_iff_eq.1 h]; simp
    · rw [List.mem_cons, mem_eraseReps, List.mem_cons (l := c :: l)]

/-- Sorted numbers without repetitions ascend. -/
theorem pairwise_lt_eraseReps : ∀ {l : List Nat}, l.Pairwise (· ≤ ·) → l.eraseReps.Pairwise (· < ·)
  | [], _ => .nil
  | [a], _ => List.pairwise_singleton _ a
  | a :: b :: l, h => by
    obtain ⟨ha, hl⟩ := List.pairwise_cons.1 h
    rw [eraseReps_cons_cons]
    split
    · next hab =>
      rw [beq_iff_eq.1 hab]
      exact pairwise_lt_eraseReps hl
    · next hab =>
      have hne : a ≠ b := by simpa using hab
      refine List.pairwise_cons.2 ⟨?_, pairwise_lt_eraseReps hl⟩
      intro n hn
      have hab' := ha b List.mem_cons_self
      rcases List.mem_cons.1 (mem_eraseReps.1 hn) with rfl | hn
      · omega
      · have hbn := (List.pairwise_cons.1 hl).1 n hn
        omega

end Runs

namespace CodeRange
variable {r : CodeRange} {l : List CodeRange} {points : List Nat} {n a b : Nat}
  {gap start last length before after : Nat} {o : RangeOptions}

/-- The range is not empty and does not go beyond the code. -/
def Within (length : Nat) (r : CodeRange) : Prop := r.start < r.stop ∧ r.stop ≤ length

/-- The byte lies in one of the ranges. -/
def Holds (l : List CodeRange) (n : Nat) : Prop := ∃ r ∈ l, r.start ≤ n ∧ n < r.stop

theorem overlaps_of_mem (hs : r.start ≤ n) (ht : n < r.stop) (ha : a ≤ n) (hb : n < b) :
    r.overlaps a b = true := by
  have hne : a ≠ b := by omega
  have hlt : a < r.stop ∧ r.start < b := by omega
  simpa [overlaps, hne] using hlt

theorem skips_of_holds (h : Holds l n) (ha : a ≤ n) (hb : n < b) : skips l a b = false := by
  obtain ⟨r, hr, hs, ht⟩ := h
  have hany : l.any (·.overlaps a b) = true :=
    List.any_eq_true.2 ⟨r, hr, overlaps_of_mem hs ht ha hb⟩
  simp [skips, hany]

theorem mem_breakpoints : n ∈ breakpoints points length ↔ n ∈ points ∧ n < length := by
  simp [breakpoints, mem_eraseReps]

theorem pairwise_breakpoints (points : List Nat) (length : Nat) :
    (breakpoints points length).Pairwise (· < ·) := by
  have hsorted : ((points.filter (· < length)).mergeSort fun a b => decide (a ≤ b)).Pairwise
      fun a b => decide (a ≤ b) = true :=
    List.pairwise_mergeSort (by simpa using fun a b c => Nat.le_trans) (by simpa using Nat.le_total) _
  exact pairwise_lt_eraseReps (by simpa using hsorted)

/-- The open range and all breakpoints behind it end up in ranges. -/
theorem holds_group (h : start ≤ last) (hsorted : (last :: points).Pairwise (· ≤ ·))
    (hn : (start ≤ n ∧ n ≤ last) ∨ n ∈ points) : Holds (group gap start last points) n := by
  induction points generalizing start last with
  | nil =>
    have hn : start ≤ n ∧ n ≤ last := by simpa using hn
    exact ⟨⟨start, last + 1⟩, by simp [group], hn.1, by simpa using Nat.lt_succ_of_le hn.2⟩
  | cons m points ih =>
    obtain ⟨hhead, hrest⟩ := List.pairwise_cons.1 hsorted
    have hm : last ≤ m := hhead m (by simp)
    rw [group]
    split
    · -- The range stays open and now goes up to `m`.
      refine ih (Nat.le_trans h hm) hrest ?_
      rcases hn with ⟨hs, hl⟩ | hn
      · exact .inl ⟨hs, Nat.le_trans hl hm⟩
      · rcases List.mem_cons.1 hn with rfl | hn
        · exact .inl ⟨Nat.le_trans h hm, Nat.le_refl n⟩
        · exact .inr hn
    · -- The range is closed behind `last`, and the next one opens at `m`.
      rcases hn with ⟨hs, hl⟩ | hn
      · exact ⟨⟨start, last + 1⟩, by simp, hs, Nat.lt_succ_of_le hl⟩
      · have hopen : (m ≤ n ∧ n ≤ m) ∨ n ∈ points := by
          rcases List.mem_cons.1 hn with rfl | hn
          · exact .inl ⟨Nat.le_refl n, Nat.le_refl n⟩
          · exact .inr hn
        obtain ⟨r, hr, hin⟩ := ih (Nat.le_refl m) hrest hopen
        exact ⟨r, List.mem_cons_of_mem _ hr, hin⟩

theorem within_group (h : start ≤ last) (hsorted : (last :: points).Pairwise (· ≤ ·))
    (hlength : ∀ n ∈ last :: points, n < length) :
    ∀ r ∈ group gap start last points, Within length r := by
  induction points generalizing start last with
  | nil =>
    intro r hr
    obtain rfl : r = ⟨start, last + 1⟩ := by simpa [group] using hr
    exact ⟨Nat.lt_succ_of_le h, hlength last (by simp)⟩
  | cons m points ih =>
    obtain ⟨hhead, hrest⟩ := List.pairwise_cons.1 hsorted
    have hlength' : ∀ n ∈ m :: points, n < length := fun n hn => hlength n (.tail _ hn)
    rw [group]
    split
    · exact ih (Nat.le_trans h (hhead m (by simp))) hrest hlength'
    · intro r hr
      rcases List.mem_cons.1 hr with rfl | hr
      · exact ⟨Nat.lt_succ_of_le h, hlength last (by simp)⟩
      · exact ih (Nat.le_refl m) hrest hlength' r hr

theorem holds_padFirst (h : Holds l n) : Holds (padFirst before l) n := by
  obtain ⟨r, hr, hs, ht⟩ := h
  cases l with
  | nil => simp at hr
  | cons head rest =>
    rcases List.mem_cons.1 hr with rfl | hr
    · exact ⟨_, List.mem_cons_self, Nat.le_trans (Nat.sub_le _ _) hs, ht⟩
    · exact ⟨r, List.mem_cons_of_mem _ hr, hs, ht⟩

theorem within_padFirst (h : ∀ r ∈ l, Within length r) :
    ∀ r ∈ padFirst before l, Within length r := by
  intro r hr
  cases l with
  | nil => simp [padFirst] at hr
  | cons head rest =>
    rcases List.mem_cons.1 hr with rfl | hr
    · obtain ⟨hlt, hle⟩ := h head (by simp)
      exact ⟨Nat.lt_of_le_of_lt (Nat.sub_le _ _) hlt, hle⟩
    · exact h r (by simp [hr])

theorem holds_padLast (hwithin : ∀ r ∈ l, Within length r) (h : Holds l n) :
    Holds (padLast after length l) n := by
  fun_induction padLast after length l with
  | case1 => exact h
  | case2 last =>
    obtain ⟨hlt, hle⟩ := hwithin last (by simp)
    obtain ⟨r, hr, hs, ht⟩ := h
    obtain rfl : r = last := by simpa using hr
    refine ⟨_, List.mem_cons_self, hs, ?_⟩
    change n < min (r.stop + after) length
    omega
  | case3 r rest _ ih =>
    obtain ⟨r', hr', hs, ht⟩ := h
    rcases List.mem_cons.1 hr' with rfl | hr'
    · exact ⟨r', List.mem_cons_self, hs, ht⟩
    · obtain ⟨q, hq, hin⟩ := ih (fun r hr => hwithin r (.tail _ hr)) ⟨r', hr', hs, ht⟩
      exact ⟨q, List.mem_cons_of_mem _ hq, hin⟩

theorem within_padLast (h : ∀ r ∈ l, Within length r) :
    ∀ r ∈ padLast after length l, Within length r := by
  fun_induction padLast after length l with
  | case1 => exact h
  | case2 last =>
    obtain ⟨hlt, hle⟩ := h last (by simp)
    intro r hr
    obtain rfl := List.mem_singleton.1 hr
    constructor
    · change last.start < min (last.stop + after) length
      omega
    · exact Nat.min_le_right _ _
  | case3 head rest _ ih =>
    intro r hr
    rcases List.mem_cons.1 hr with rfl | hr
    · exact h r (by simp)
    · exact ih (fun r hr => h r (.tail _ hr)) r hr

theorem holds_cover (hn : n ∈ points) (hlength : n < length) : Holds (cover points length o) n := by
  have hmem : n ∈ breakpoints points length := mem_breakpoints.2 ⟨hn, hlength⟩
  have hsorted := (pairwise_breakpoints points length).imp Nat.le_of_lt
  have hall : ∀ m ∈ breakpoints points length, m < length := fun m hm => (mem_breakpoints.1 hm).2
  rw [cover]
  cases hb : breakpoints points length with
  | nil => simp [hb] at hmem
  | cons first rest =>
    rw [hb] at hmem hsorted hall
    have hopen : (first ≤ n ∧ n ≤ first) ∨ n ∈ rest := by
      rcases List.mem_cons.1 hmem with rfl | hn
      · exact .inl ⟨Nat.le_refl n, Nat.le_refl n⟩
      · exact .inr hn
    exact holds_padLast (within_padFirst (within_group (Nat.le_refl first) hsorted hall))
      (holds_padFirst (holds_group (Nat.le_refl first) hsorted hopen))

theorem within_cover : ∀ r ∈ cover points length o, Within length r := by
  have hsorted := (pairwise_breakpoints points length).imp Nat.le_of_lt
  have hall : ∀ m ∈ breakpoints points length, m < length := fun m hm => (mem_breakpoints.1 hm).2
  rw [cover]
  cases hb : breakpoints points length with
  | nil => simp
  | cons first rest =>
    rw [hb] at hsorted hall
    exact within_padLast (within_padFirst (within_group (Nat.le_refl first) hsorted hall))

end CodeRange
end Coverage

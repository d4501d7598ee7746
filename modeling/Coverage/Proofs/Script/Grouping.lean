import Coverage.Proofs.Script.Ranges
import Mathlib.Data.List.Sort

/-! Breakpoints in groups. A grouping has ordered ranges that go from one breakpoint to another, together
hold all breakpoints, and hold two neighbours together exactly when these are closer than the gap. A set
of breakpoints has at most one grouping, and the fold over the sorted breakpoints finds it. -/
namespace Coverage.CodeRange

/-- Two breakpoints with none between them. -/
structure Consecutive (P : Nat → Prop) (a b : Nat) : Prop where
  left : P a
  right : P b
  lt : a < b
  between : ∀ n, P n → n ≤ a ∨ b ≤ n

structure IsGrouping (P : Nat → Prop) (gap : Nat) (ranges : List CodeRange) : Prop where
  ordered : ranges.Pairwise fun r s => r.stop ≤ s.start
  ends : ∀ r ∈ ranges, P r.start ∧ ∃ last, P last ∧ r.start ≤ last ∧ r.stop = last + 1
  covers : ∀ n, P n → Holds ranges n
  together : ∀ a b, Consecutive P a b →
    ((∃ r ∈ ranges, r.contains a ∧ r.contains b) ↔ b - a < gap)

section Unique
variable {P : Nat → Prop} {gap a b n : Nat} {r s : CodeRange} {l ranges ranges' : List CodeRange}

theorem contains_iff : r.contains n ↔ r.start ≤ n ∧ n < r.stop := by
  simp [contains]

theorem exists_consecutive_right (ha : P a) (hb : P b) (hab : a < b) :
    ∃ n, Consecutive P a n ∧ n ≤ b := by
  induction h : b - a using Nat.strongRecOn generalizing b with
  | ind k ih =>
    by_cases hmid : ∃ c, P c ∧ a < c ∧ c < b
    · obtain ⟨c, hc, hac, hcb⟩ := hmid
      obtain ⟨n, hn, hnc⟩ := ih (c - a) (by omega) hc hac rfl
      exact ⟨n, hn, by omega⟩
    · refine ⟨b, ⟨ha, hb, hab, ?_⟩, Nat.le_refl b⟩
      intro n hn
      by_contra hne
      exact hmid ⟨n, hn, by omega, by omega⟩

theorem exists_consecutive_left (ha : P a) (hb : P b) (hab : a < b) :
    ∃ n, Consecutive P n b ∧ a ≤ n := by
  induction h : b - a using Nat.strongRecOn generalizing a with
  | ind k ih =>
    by_cases hmid : ∃ c, P c ∧ a < c ∧ c < b
    · obtain ⟨c, hc, hac, hcb⟩ := hmid
      obtain ⟨n, hn, hcn⟩ := ih (b - c) (by omega) hc hcb rfl
      exact ⟨n, hn, by omega⟩
    · refine ⟨a, ⟨ha, hb, hab, ?_⟩, Nat.le_refl a⟩
      intro n hn
      by_contra hne
      exact hmid ⟨n, hn, by omega, by omega⟩

/-- Ordered ranges share no byte. -/
theorem eq_of_contains (h : l.Pairwise fun r s => r.stop ≤ s.start) (hr : r ∈ l) (hs : s ∈ l)
    (hrn : r.contains n) (hsn : s.contains n) : r = s := by
  rw [contains_iff] at hrn hsn
  induction l with
  | nil => simp at hr
  | cons t l ih =>
    obtain ⟨ht, hl⟩ := List.pairwise_cons.1 h
    rcases List.mem_cons.1 hr with rfl | hrl
    · rcases List.mem_cons.1 hs with rfl | hsl
      · rfl
      · have := ht s hsl
        omega
    · rcases List.mem_cons.1 hs with rfl | hsl
      · have := ht r hrl
        omega
      · exact ih hl hrl hsl

/-- A range of a grouping starts no later than one of another grouping with which it shares a breakpoint. -/
theorem IsGrouping.start_le (h : IsGrouping P gap ranges) (h' : IsGrouping P gap ranges')
    (hr : r ∈ ranges) (hs : s ∈ ranges') (hrn : r.contains n) (hsn : s.contains n) :
    r.start ≤ s.start := by
  by_contra hlt
  obtain ⟨hrstart, _⟩ := h.ends r hr
  obtain ⟨hsstart, _⟩ := h'.ends s hs
  -- The breakpoint before the start of `r` is in `s` with it, hence in `r`.
  obtain ⟨a, ha, hsa⟩ := exists_consecutive_left hsstart hrstart (by omega)
  have hlta := ha.lt
  rw [contains_iff] at hrn hsn
  have hgap := (h'.together a r.start ha).1
    ⟨s, hs, contains_iff.2 (by omega), contains_iff.2 (by omega)⟩
  obtain ⟨t, ht, hta, htr⟩ := (h.together a r.start ha).2 hgap
  obtain rfl : t = r := eq_of_contains h.ordered ht hr htr (contains_iff.2 (by omega))
  rw [contains_iff] at hta
  omega

theorem IsGrouping.stop_le (h : IsGrouping P gap ranges) (h' : IsGrouping P gap ranges')
    (hr : r ∈ ranges) (hs : s ∈ ranges') (hrn : r.contains n) (hsn : s.contains n) :
    s.stop ≤ r.stop := by
  by_contra hlt
  obtain ⟨_, last, hlast, hle, hstop⟩ := h.ends r hr
  obtain ⟨_, last', hlast', hle', hstop'⟩ := h'.ends s hs
  -- The breakpoint behind the end of `r` is in `s` with it, hence in `r`.
  obtain ⟨b, hb, hbs⟩ := exists_consecutive_right hlast hlast' (by omega)
  have hltb := hb.lt
  rw [contains_iff] at hrn hsn
  have hgap := (h'.together last b hb).1
    ⟨s, hs, contains_iff.2 (by omega), contains_iff.2 (by omega)⟩
  obtain ⟨t, ht, htl, htb⟩ := (h.together last b hb).2 hgap
  obtain rfl : t = r := eq_of_contains h.ordered ht hr htl (contains_iff.2 (by omega))
  rw [contains_iff] at htb
  omega

theorem IsGrouping.subset (h : IsGrouping P gap ranges) (h' : IsGrouping P gap ranges') :
    ranges ⊆ ranges' := by
  intro r hr
  obtain ⟨hstart, last, _, hle, hstop⟩ := h.ends r hr
  obtain ⟨s, hs, hsr⟩ := h'.covers r.start hstart
  have hrn : r.contains r.start := contains_iff.2 (by omega)
  have hsn : s.contains r.start := contains_iff.2 hsr
  have hstarts := Nat.le_antisymm (h.start_le h' hr hs hrn hsn) (h'.start_le h hs hr hsn hrn)
  have hstops := Nat.le_antisymm (h'.stop_le h hs hr hsn hrn) (h.stop_le h' hr hs hrn hsn)
  have heq : r = s := by
    cases r
    cases s
    exact congrArg₂ CodeRange.mk hstarts hstops
  exact heq ▸ hs

theorem IsGrouping.pairwise_start (h : IsGrouping P gap ranges) :
    ranges.Pairwise fun r s => r.start < s.start := by
  apply h.ordered.imp_of_mem
  intro r s hr _ hrs
  obtain ⟨_, last, _, hle, hstop⟩ := h.ends r hr
  omega

/-- Which breakpoints there are and how wide a gap is decide the grouping. -/
theorem IsGrouping.unique (h : IsGrouping P gap ranges) (h' : IsGrouping P gap ranges') :
    ranges = ranges' := by
  have hanti : Std.Antisymm fun r s : CodeRange => r.start < s.start := ⟨fun r s h h' => by omega⟩
  have hirrefl : Std.Irrefl fun r s : CodeRange => r.start < s.start := ⟨fun r h => by omega⟩
  apply h.pairwise_start.eq_of_mem_iff h'.pairwise_start
  intro r
  exact ⟨fun hr => h.subset h' hr, fun hr => h'.subset h hr⟩

end Unique

section Group
variable {gap start last length a b n : Nat} {points : List Nat} {r : CodeRange}

theorem start_le_group (h : start ≤ last) (hsorted : (last :: points).Pairwise (· < ·)) :
    ∀ r ∈ group gap start last points, start ≤ r.start := by
  induction points generalizing start last with
  | nil => simp [group]
  | cons m points ih =>
    obtain ⟨hhead, hrest⟩ := List.pairwise_cons.1 hsorted
    have hm : last < m := hhead m (by simp)
    intro r hr
    rw [group] at hr
    split at hr
    · exact ih (by omega) hrest r hr
    · rcases List.mem_cons.1 hr with rfl | hr
      · exact Nat.le_refl start
      · have := ih (Nat.le_refl m) hrest r hr
        omega

theorem ordered_group (h : start ≤ last) (hsorted : (last :: points).Pairwise (· < ·)) :
    (group gap start last points).Pairwise fun r s => r.stop ≤ s.start := by
  induction points generalizing start last with
  | nil => simp [group]
  | cons m points ih =>
    obtain ⟨hhead, hrest⟩ := List.pairwise_cons.1 hsorted
    have hm : last < m := hhead m (by simp)
    rw [group]
    split
    · exact ih (by omega) hrest
    · refine List.pairwise_cons.2 ⟨?_, ih (Nat.le_refl m) hrest⟩
      intro s hs
      have := start_le_group (Nat.le_refl m) hrest s hs
      change last + 1 ≤ s.start
      omega

/-- Ranges start at the open start or at a breakpoint and stop behind a breakpoint. -/
theorem ends_group (h : start ≤ last) (hsorted : (last :: points).Pairwise (· < ·)) :
    ∀ r ∈ group gap start last points, (r.start = start ∨ r.start ∈ points) ∧
      ∃ n ∈ last :: points, r.start ≤ n ∧ r.stop = n + 1 := by
  induction points generalizing start last with
  | nil => simpa [group] using h
  | cons m points ih =>
    obtain ⟨hhead, hrest⟩ := List.pairwise_cons.1 hsorted
    have hm : last < m := hhead m (by simp)
    intro r hr
    rw [group] at hr
    split at hr
    · obtain ⟨hstart, n, hn, hle, hstop⟩ := ih (by omega) hrest r hr
      exact ⟨hstart.imp_right (.tail _), n, .tail _ hn, hle, hstop⟩
    · rcases List.mem_cons.1 hr with rfl | hr
      · exact ⟨.inl rfl, last, by simp, h, rfl⟩
      · obtain ⟨hstart, n, hn, hle, hstop⟩ := ih (Nat.le_refl m) hrest r hr
        refine ⟨.inr ?_, n, .tail _ hn, hle, hstop⟩
        rcases hstart with hstart | hstart
        · simp [hstart]
        · exact .tail _ hstart

/-- The open range comes first and holds what it is open for. -/
theorem exists_open_group (gap : Nat) (h : start ≤ last)
    (hsorted : (last :: points).Pairwise (· < ·)) :
    ∃ r ∈ group gap start last points, r.start = start ∧ last < r.stop := by
  induction points generalizing last with
  | nil => exact ⟨⟨start, last + 1⟩, by simp [group], rfl, Nat.lt_succ_self last⟩
  | cons m points ih =>
    obtain ⟨hhead, hrest⟩ := List.pairwise_cons.1 hsorted
    have hm : last < m := hhead m (by simp)
    rw [group]
    split
    · obtain ⟨r, hr, hstart, hstop⟩ := ih (by omega) hrest
      exact ⟨r, hr, hstart, by omega⟩
    · exact ⟨⟨start, last + 1⟩, by simp, rfl, Nat.lt_succ_self last⟩

/-- Neighbours are in one range exactly when the gap between them is small. -/
theorem together_group (h : start ≤ last) (hsorted : (last :: points).Pairwise (· < ·))
    (hab : Consecutive (· ∈ last :: points) a b) :
    (∃ r ∈ group gap start last points, r.contains a ∧ r.contains b) ↔ b - a < gap := by
  have hlt := hab.lt
  induction points generalizing start last with
  | nil =>
    have ha := List.mem_singleton.1 hab.left
    have hb := List.mem_singleton.1 hab.right
    omega
  | cons m points ih =>
    obtain ⟨hhead, hrest⟩ := List.pairwise_cons.1 hsorted
    have hm : last < m := hhead m (by simp)
    have hmle : ∀ n ∈ m :: points, m ≤ n := by
      intro n hn
      rcases List.mem_cons.1 hn with rfl | hn
      · exact Nat.le_refl n
      · exact Nat.le_of_lt ((List.pairwise_cons.1 hrest).1 n hn)
    rcases List.mem_cons.1 hab.left with rfl | ha
    · -- The neighbour of the last breakpoint is the next one.
      have hb : b ∈ m :: points := by
        rcases List.mem_cons.1 hab.right with rfl | hb
        · omega
        · exact hb
      obtain rfl : b = m := by
        have := hmle b hb
        rcases hab.between m (by simp) with hle | hle <;> omega
      rw [group]
      split
      · next hgap =>
        obtain ⟨r, hr, hstart, hstop⟩ := exists_open_group gap (by omega : start ≤ b) hrest
        refine iff_of_true ⟨r, hr, contains_iff.2 (by omega), contains_iff.2 (by omega)⟩ hgap
      · next hgap =>
        refine iff_of_false ?_ hgap
        rintro ⟨r, hr, hra, hrb⟩
        rw [contains_iff] at hra hrb
        rcases List.mem_cons.1 hr with rfl | hr
        · change start ≤ b ∧ b < a + 1 at hrb
          omega
        · have := start_le_group (Nat.le_refl b) hrest r hr
          omega
    · have hb : b ∈ m :: points := by
        have := hmle a ha
        rcases List.mem_cons.1 hab.right with rfl | hb
        · omega
        · exact hb
      have hab' : Consecutive (· ∈ m :: points) a b :=
        ⟨ha, hb, hlt, fun n hn => hab.between n (.tail _ hn)⟩
      rw [group]
      split
      · exact ih (by omega) hrest hab'
      · refine Iff.trans ?_ (ih (Nat.le_refl m) hrest hab')
        constructor
        · rintro ⟨r, hr, hra, hrb⟩
          rcases List.mem_cons.1 hr with rfl | hr
          · have := hmle b hb
            rw [contains_iff] at hrb
            change start ≤ b ∧ b < last + 1 at hrb
            omega
          · exact ⟨r, hr, hra, hrb⟩
        · rintro ⟨r, hr, hra, hrb⟩
          exact ⟨r, .tail _ hr, hra, hrb⟩

theorem isGrouping_group (gap : Nat) (hsorted : (n :: points).Pairwise (· < ·)) :
    IsGrouping (· ∈ n :: points) gap (group gap n n points) where
  ordered := ordered_group (Nat.le_refl n) hsorted
  ends := by
    intro r hr
    obtain ⟨hstart, last, hlast, hle, hstop⟩ := ends_group (Nat.le_refl n) hsorted r hr
    refine ⟨?_, last, hlast, hle, hstop⟩
    rcases hstart with hstart | hstart
    · simp [hstart]
    · exact .tail _ hstart
  covers := by
    intro m hm
    apply holds_group (Nat.le_refl n) (hsorted.imp Nat.le_of_lt)
    rcases List.mem_cons.1 hm with rfl | hm
    · exact .inl ⟨Nat.le_refl m, Nat.le_refl m⟩
    · exact .inr hm
  together := fun _ _ hab => together_group (Nat.le_refl n) hsorted hab

end Group
end Coverage.CodeRange

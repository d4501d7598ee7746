import Coverage.Proofs.Script.Narrowing
import Mathlib.Order.Nat

/-! The spans of a script that are skipped. A span is skipped if it shares nothing with the ranges, but one
around a range without bytes never is. The ranges that a script is narrowed to all have bytes. -/
namespace Coverage.CodeRange
open Conversion

variable {r : CodeRange} {l : List CodeRange} {a b c d n : Nat}

/-- The positions of a span are its bytes. A span without bytes has the one where it stands. -/
def InSpan (a b n : Nat) : Prop := if a = b then n = a else a ≤ n ∧ n < b

/-- A position of the span lies in one of the ranges. -/
def Shares (l : List CodeRange) (a b : Nat) : Prop := ∃ n, InSpan a b n ∧ Holds l n

/-- One of the ranges has no bytes and lies strictly between the ends of the span. -/
def Encloses (l : List CodeRange) (a b : Nat) : Prop :=
  ∃ r ∈ l, a < r.stop ∧ r.stop ≤ r.start ∧ r.start < b

theorem inSpan_self : InSpan a a n ↔ n = a := by rw [InSpan, if_pos rfl]

theorem inSpan_of_lt (h : a < b) : InSpan a b n ↔ a ≤ n ∧ n < b := by rw [InSpan, if_neg h.ne]

/-- The positions of a span are those of any span around it, unless it stands behind the bytes of that. -/
theorem InSpan.mono (hn : InSpan c d n) (hac : a ≤ c) (hcd : c ≤ d) (hdb : d ≤ b) (hcb : c < b) :
    InSpan a b n := by
  rw [inSpan_of_lt (hac.trans_lt hcb)]
  rcases hcd.eq_or_lt with rfl | hlt
  · rw [inSpan_self] at hn
    exact hn ▸ ⟨hac, hcb⟩
  · rw [inSpan_of_lt hlt] at hn
    exact ⟨hac.trans hn.1, hn.2.trans_le hdb⟩

theorem overlaps_self : r.overlaps a a = true ↔ r.start ≤ a ∧ a < r.stop := by
  simp [overlaps, contains]

theorem overlaps_of_lt (h : a < b) : r.overlaps a b = true ↔ a < r.stop ∧ r.start < b := by
  simp [overlaps, h.ne]

/-- The comparison of the ends also succeeds for a range without bytes that lies inside the span. -/
theorem overlaps_iff (h : a ≤ b) : r.overlaps a b = true ↔
    (∃ n, InSpan a b n ∧ r.start ≤ n ∧ n < r.stop) ∨
      a < r.stop ∧ r.stop ≤ r.start ∧ r.start < b := by
  rcases h.eq_or_lt with rfl | hlt
  · have hnone : ¬ (a < r.stop ∧ r.stop ≤ r.start ∧ r.start < a) := by omega
    simp only [overlaps_self, inSpan_self, exists_eq_left, hnone, or_false]
  · simp only [overlaps_of_lt hlt, inSpan_of_lt hlt]
    constructor
    · rintro ⟨ha, hb⟩
      rcases Nat.lt_or_ge r.start r.stop with hr | hr
      · -- the later of the two starts is a byte of both
        exact .inl ⟨max a r.start, by omega⟩
      · exact .inr ⟨ha, hr, hb⟩
    · rintro (⟨n, hn, hr⟩ | ⟨ha, -, hb⟩)
      · omega
      · exact ⟨ha, hb⟩

theorem any_overlaps_iff (h : a ≤ b) :
    l.any (·.overlaps a b) = true ↔ Shares l a b ∨ Encloses l a b := by
  simp only [List.any_eq_true, overlaps_iff h]
  constructor
  · rintro ⟨r, hr, ⟨n, hn, hin⟩ | hinside⟩
    · exact .inl ⟨n, hn, r, hr, hin⟩
    · exact .inr ⟨r, hr, hinside⟩
  · rintro (⟨n, hn, r, hr, hin⟩ | ⟨r, hr, hinside⟩)
    · exact ⟨r, hr, .inl ⟨n, hn, hin⟩⟩
    · exact ⟨r, hr, .inr hinside⟩

theorem skips_iff (h : a ≤ b) :
    skips l a b = true ↔ (l ≠ [] ∧ ¬ Shares l a b) ∧ ¬ Encloses l a b := by
  have hany : l.any (·.overlaps a b) = false ↔ ¬ (Shares l a b ∨ Encloses l a b) := by
    rw [← any_overlaps_iff h, Bool.not_eq_true]
  rw [skips, Bool.and_eq_true, Bool.not_eq_true', Bool.not_eq_true', List.isEmpty_eq_false_iff, hany,
    not_or, and_assoc]

/-- Nothing fits between the ends of a byte. -/
theorem skips_byte_iff : skips l n (n + 1) = true ↔ l ≠ [] ∧ ¬ Holds l n := by
  have hencloses : ¬ Encloses l n (n + 1) := by
    rintro ⟨r, -, hstop, hr, hstart⟩
    omega
  have hshares : Shares l n (n + 1) ↔ Holds l n := by
    constructor
    · rintro ⟨m, hm, hl⟩
      obtain rfl : m = n := by
        rw [inSpan_of_lt n.lt_succ_self] at hm
        omega
      exact hl
    · exact fun hl => ⟨n, (inSpan_of_lt n.lt_succ_self).2 ⟨le_rfl, n.lt_succ_self⟩, hl⟩
  rw [skips_iff n.le_succ, hshares, and_iff_left hencloses]

theorem not_encloses_of_within {length : Nat} (h : ∀ r ∈ l, Within length r) : ¬ Encloses l a b := by
  rintro ⟨r, hmem, -, hr, -⟩
  exact hr.not_gt (h r hmem).1

/-- Nothing is lost with what lies inside a skipped span, except for a span without bytes at its stop, which
may lie in a range that starts there. -/
theorem skips_of_inside (h : skips l a b = true) (hac : a ≤ c) (hcd : c ≤ d) (hdb : d ≤ b)
    (hcb : c < b) : skips l c d = true := by
  obtain ⟨⟨hne, hshares⟩, hencloses⟩ := (skips_iff (hac.trans (hcd.trans hdb))).1 h
  refine (skips_iff hcd).2 ⟨⟨hne, ?_⟩, ?_⟩
  · rintro ⟨n, hn, hl⟩
    exact hshares ⟨n, hn.mono hac hcd hdb hcb, hl⟩
  · rintro ⟨r, hr, hstop, hempty, hstart⟩
    exact hencloses ⟨r, hr, hac.trans_lt hstop, hempty, hstart.trans_le hdb⟩

example : skips [⟨8, 9⟩] 3 8 = true ∧ skips [⟨8, 9⟩] 8 8 = false := by decide

theorem skips_iff_bytes (h : a < b) : skips l a b = true ↔
    (∀ n, a ≤ n → n < b → skips l n (n + 1) = true) ∧ ¬ Encloses l a b := by
  constructor
  · intro hskips
    refine ⟨fun n ha hb => ?_, ((skips_iff h.le).1 hskips).2⟩
    exact skips_of_inside hskips ha n.le_succ hb hb
  · rintro ⟨hbytes, hencloses⟩
    have hbyte (n : Nat) (ha : a ≤ n) (hb : n < b) := skips_byte_iff.1 (hbytes n ha hb)
    refine (skips_iff h.le).2 ⟨⟨(hbyte a le_rfl h).1, ?_⟩, hencloses⟩
    rintro ⟨n, hn, hl⟩
    obtain ⟨ha, hb⟩ := (inSpan_of_lt h).1 hn
    exact (hbyte n ha hb).2 hl

/-- A span is skipped exactly when there are ranges and it shares nothing with them, and a span with bytes
exactly when each of its bytes is, unless a range without bytes lies inside: then it is not skipped. Nodes
are skipped by the effective ranges of their task. In a task that is made of a script, no span has a range
without bytes inside. -/
theorem skipped_of_ranges [Syntax.Parser] (l : List CodeRange) (h : a ≤ b) :
    (skips l a b = true ↔ (l ≠ [] ∧ ¬ Shares l a b) ∧ ¬ Encloses l a b) ∧
    (a < b → (skips l a b = true ↔
      (∀ n, a ≤ n → n < b → skips l n (n + 1) = true) ∧ ¬ Encloses l a b)) ∧
    (∀ (t : Task) i, t.input? = some i → t.effectiveRanges = l → i.skips ⟨a, b⟩ = skips l a b) ∧
    ∀ (maps : PositionMaps) (o : RangeOptions) (scripts : List RawScript),
      ∀ t ∈ Batch.tasks maps o scripts, ¬ Encloses t.effectiveRanges a b := by
  refine ⟨skips_iff h, skips_iff_bytes, ?_, ?_⟩
  · rintro t i hi rfl
    exact skips_of_input? hi ⟨a, b⟩
  · intro maps o scripts t ht
    obtain ⟨s, -, hs⟩ := List.mem_filterMap.1 ht
    exact not_encloses_of_within (narrowed_of_ofScript? hs).within

/-- A task with a single range, which has no bytes. -/
def markedTask : Task := { url := "/a.js", code := "load();\nsave();", range := some ⟨4, 4⟩ }

/-- The single range does not count here. One of the others stops where the second statement starts, and
one without bytes stands where it stops. -/
def crowdedTask : Task := { markedTask with ranges := [⟨0, 5⟩, ⟨3, 8⟩, ⟨15, 15⟩] }

theorem skipped_of_ranges_sample :
    skips [⟨0, 5⟩, ⟨3, 8⟩, ⟨15, 15⟩] 8 15 = true ∧
    (∀ n, 8 ≤ n → n < 15 → skips [⟨0, 5⟩, ⟨3, 8⟩, ⟨15, 15⟩] n (n + 1) = true) ∧
    (∃ i, crowdedTask.input? = some i ∧
      i.skips ⟨8, 15⟩ = skips [⟨0, 5⟩, ⟨3, 8⟩, ⟨15, 15⟩] 8 15) ∧
    ∃ t ∈ Batch.tasks (fun _ => some bundleMap) tight [bundle], ¬ Encloses t.effectiveRanges 8 15 := by
  have hle : 8 ≤ 15 := by decide
  have hskips : skips [⟨0, 5⟩, ⟨3, 8⟩, ⟨15, 15⟩] 8 15 = true := by decide
  obtain ⟨-, hbytes, htask, hscripts⟩ := skipped_of_ranges [⟨0, 5⟩, ⟨3, 8⟩, ⟨15, 15⟩] hle
  have hinput : crowdedTask.input?.isSome = true := by decide +kernel
  obtain ⟨i, hi⟩ := Option.isSome_iff_exists.1 hinput
  have htasks : Batch.tasks (fun _ => some bundleMap) tight [bundle] ≠ [] := by decide +kernel
  obtain ⟨t, ht⟩ := List.exists_mem_of_ne_nil _ htasks
  exact ⟨hskips, ((hbytes (by decide)).1 hskips).1, ⟨i, hi, htask crowdedTask i hi (by decide)⟩,
    t, ht, hscripts _ tight [bundle] t ht⟩

/-- The first statement shares no byte with the range, each of its bytes would be skipped, and it is not. -/
theorem spared_without_shared_byte :
    markedTask.effectiveRanges = [⟨4, 4⟩] ∧ ¬ Shares [⟨4, 4⟩] 0 7 ∧ skips [⟨4, 4⟩] 0 7 = false ∧
    (∀ n < 7, skips [⟨4, 4⟩] n (n + 1) = true) ∧
    markedTask.input?.map (fun i => i.outline.items.map fun e => (e, i.skips e)) =
      some [(⟨0, 7⟩, false), (⟨8, 15⟩, true)] := by
  refine ⟨by decide, ?_, by decide, by decide, by decide +kernel⟩
  rintro ⟨n, -, r, hr, hstart, hstop⟩
  obtain rfl := List.mem_singleton.1 hr
  exact hstart.not_gt hstop

end Coverage.CodeRange

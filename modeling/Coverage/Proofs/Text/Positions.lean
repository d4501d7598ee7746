import Coverage.Proofs.Text.Bytes
import Coverage.Proofs.Text.Lines
import Mathlib.Data.List.DropRight
import Mathlib.Data.List.TakeWhile

/-! The lines of a text as parts of it. A line is what stands between two newlines, so any cut of the text
lies on the line whose number is told by the newlines in front of it. -/
namespace Coverage.Text

variable {t a b w x before line after before' line' after' : Text} {c sep : Char} {k m n i : Nat}
  {l : Location} {s : Span}

section Pieces

theorem splitAt_append_cons (x y : Text) : splitAt sep (x ++ sep :: y) = splitAt sep x ++ splitAt sep y := by
  simp only [splitAt_eq_splitOn, List.splitOn_append_cons_self]

theorem splitAt_of_not_mem (h : sep ∉ x) : splitAt sep x = [x] := by
  rw [splitAt_eq_splitOn, List.splitOn_eq_singleton h]

theorem length_splitAt (sep : Char) (t : Text) : (splitAt sep t).length = t.count sep + 1 := by
  induction t with
  | nil => rfl
  | cons c t ih =>
    rw [splitAt_eq_splitOn] at ih ⊢
    rw [List.splitOn_cons_eq_if_modifyHead, List.count_cons]
    split
    · rw [List.length_cons, ih]
    · rw [List.length_modifyHead, ih]

theorem exists_cut_of_le_count (h : k ≤ t.count c) : ∃ a b, t = a ++ b ∧ a.count c = k := by
  induction t generalizing k with
  | nil => exact ⟨[], [], rfl, (Nat.le_zero.1 h).symm⟩
  | cons d t ih =>
    rcases Nat.eq_zero_or_pos k with rfl | hk
    · exact ⟨[], d :: t, rfl, rfl⟩
    · by_cases hd : d = c
      · subst hd
        rw [List.count_cons_self] at h
        obtain ⟨a, b, rfl, ha⟩ := ih (k := k - 1) (by omega)
        exact ⟨d :: a, b, rfl, by rw [List.count_cons_self]; omega⟩
      · rw [List.count_cons_of_ne hd] at h
        obtain ⟨a, b, rfl, ha⟩ := ih h
        exact ⟨d :: a, b, rfl, by rw [List.count_cons_of_ne hd, ha]⟩

end Pieces

section Lines

/-- The line with an index, counted from zero, and what stands in front of it and behind it. -/
structure IsLine (t : Text) (k : Nat) (before line after : Text) : Prop where
  text : t = before ++ (line ++ after)
  index : before.count '\n' = k
  start : before = [] ∨ ∃ r, before = r ++ ['\n']
  bare : '\n' ∉ line
  stop : after = [] ∨ ∃ r, after = '\n' :: r

/-- What stands behind the last newline. -/
def lastLine (t : Text) : Text := t.rtakeWhile (· != '\n')

theorem not_mem_lastLine (t : Text) : '\n' ∉ lastLine t := fun h => by
  simpa using List.mem_rtakeWhile_imp h

theorem rdropWhile_append_lastLine (t : Text) : t.rdropWhile (· != '\n') ++ lastLine t = t :=
  List.rdropWhile_append_rtakeWhile

theorem byteLength_add_lastLine (t : Text) :
    byteLength (t.rdropWhile (· != '\n')) + byteLength (lastLine t) = byteLength t := by
  rw [← byteLength_append, rdropWhile_append_lastLine]

/-- A cut lies on the line that the newlines in front of it tell. -/
theorem isLine_of_cut (a b : Text) : IsLine (a ++ b) (a.count '\n') (a.rdropWhile (· != '\n'))
    (lastLine a ++ b.takeWhile (· != '\n')) (b.dropWhile (· != '\n')) where
  text := by
    rw [List.append_assoc, List.takeWhile_append_dropWhile, ← List.append_assoc,
      rdropWhile_append_lastLine]
  index := by
    have hcount := congrArg (List.count '\n') (rdropWhile_append_lastLine a)
    rwa [List.count_append, List.count_eq_zero_of_not_mem (not_mem_lastLine a), Nat.add_zero] at hcount
  start := by
    by_cases h : a.rdropWhile (· != '\n') = []
    · exact .inl h
    · have hlast : (a.rdropWhile (· != '\n')).getLast h = '\n' := by
        simpa using List.rdropWhile_last_not (· != '\n') a h
      have hconcat := List.dropLast_append_getLast h
      rw [hlast] at hconcat
      exact .inr ⟨_, hconcat.symm⟩
  bare := by
    rw [List.mem_append, not_or]
    exact ⟨not_mem_lastLine a, fun h => by simpa using List.mem_takeWhile_imp h⟩
  stop := by
    cases h : b.dropWhile (· != '\n') with
    | nil => exact .inl rfl
    | cons c r =>
      have hc := List.head_dropWhile_not (· != '\n') (l := b) (by simp [h])
      simp only [h, List.head_cons, bne_eq_false_iff_eq] at hc
      exact .inr ⟨r, by rw [hc]⟩

theorem IsLine.getElem?_rawLines (h : IsLine t k before line after) : t.rawLines[k]? = some line := by
  -- nothing but the line is left of its end when the text is cut at the newlines around it
  have hfirst : (splitAt '\n' (line ++ after))[0]? = some line := by
    rcases h.stop with hafter | ⟨r, hafter⟩
    · rw [hafter, List.append_nil, splitAt_of_not_mem h.bare]
      rfl
    · rw [hafter, splitAt_append_cons, splitAt_of_not_mem h.bare]
      rfl
  rw [h.text, rawLines]
  rcases h.start with hbefore | ⟨r, hbefore⟩
  · rw [← h.index, hbefore]
    exact hfirst
  · have hk : k = (splitAt '\n' r).length := by
      rw [length_splitAt, ← h.index, hbefore, List.count_append]
      rfl
    rw [hbefore, List.append_assoc, List.singleton_append, splitAt_append_cons, hk,
      List.getElem?_append_right le_rfl, Nat.sub_self]
    exact hfirst

theorem getElem?_rawLines_eq_some_iff : t.rawLines[k]? = some line ↔
    ∃ before after, IsLine t k before line after := by
  constructor
  · intro h
    have hk : k ≤ t.count '\n' := by
      have := (List.getElem?_eq_some_iff.1 h).1
      rw [rawLines, length_splitAt] at this
      omega
    obtain ⟨a, b, rfl, rfl⟩ := exists_cut_of_le_count hk
    have hline := isLine_of_cut a b
    obtain rfl : lastLine a ++ b.takeWhile (· != '\n') = line :=
      Option.some_inj.1 (hline.getElem?_rawLines.symm.trans h)
    exact ⟨_, _, hline⟩
  · rintro ⟨before, after, h⟩
    exact h.getElem?_rawLines

theorem IsLine.lineStart? (h : IsLine t k before line after) :
    t.lineStart? k = some (byteLength before) := by
  rw [lineStart?_eq_some_iff, ← h.index]
  rcases h.start with rfl | ⟨r, rfl⟩
  · exact .first
  · have hsize : '\n'.utf8Size = 1 := rfl
    have hstarts := StartsLine.behind r (line ++ after) (by simpa using h.text)
    simpa [hsize] using hstarts

end Lines

section Chomp

theorem chomp_isPrefix (t : Text) : chomp t <+: t := by
  rw [chomp]
  split
  · exact List.dropLast_prefix t
  · exact List.prefix_rfl

theorem chomp_of_not_mem (h : '\r' ∉ t) : chomp t = t := by
  rw [chomp, if_neg]
  exact fun hlast => h (List.mem_of_getLast? hlast)

/-- What stands on a line is not cut off with its carriage return. -/
theorem infix_chomp (h : w <:+: t) (hw : '\r' ∉ w) : w <:+: chomp t := by
  rw [chomp]
  split
  · next hlast =>
    obtain ⟨x, y, rfl⟩ := h
    rcases List.eq_nil_or_concat y with rfl | ⟨y, d, rfl⟩
    · rcases List.eq_nil_or_concat w with rfl | ⟨w, d, rfl⟩
      · exact List.nil_infix
      · rw [List.append_nil, List.concat_eq_append, ← List.append_assoc, List.getLast?_concat,
          Option.some_inj] at hlast
        exact absurd (by simp [hlast]) hw
    · refine ⟨x, y, ?_⟩
      rw [List.concat_eq_append, ← List.append_assoc, List.dropLast_concat]
  · exact h

end Chomp

section Offsets

theorem line?_eq_some_iff_isLine {n : UInt32} {l : Text} : t.line? n = some l ↔
    ∃ k before line after, n.toNat = k + 1 ∧ IsLine t k before line after ∧ chomp line = l := by
  rw [line?_eq_some_iff]
  constructor
  · rintro ⟨k, line, hk, hline, hl⟩
    obtain ⟨before, after, h⟩ := getElem?_rawLines_eq_some_iff.1 hline
    exact ⟨k, before, line, after, hk, h, hl⟩
  · rintro ⟨k, before, line, after, hk, h, hl⟩
    exact ⟨k, line, hk, h.getElem?_rawLines, hl⟩

/-- A line is missing if its number is zero or greater than that of the last line. -/
theorem line?_eq_none_iff {n : UInt32} : t.line? n = none ↔ n = 0 ∨ t.count '\n' + 1 < n.toNat := by
  have hzero : n = 0 ↔ n.toNat = 0 := UInt32.toNat_inj.symm
  rw [line?]
  split
  · next h => simp [h]
  · next h =>
    rw [Option.map_eq_none_iff, List.getElem?_eq_none_iff, rawLines, length_splitAt]
    simp only [h, false_or]
    rw [hzero] at h
    omega

/-- A location on a line of the text is a byte of this line or its end, and any other is no place. -/
theorem offset?_eq_some_iff : t.offset? l = some n ↔
    ∃ k before line after, l.line.toNat = k + 1 ∧ IsLine t k before line after ∧
      n = byteLength before + min l.column.toNat (byteLength (chomp line)) := by
  have hbind : t.offset? l = some n ↔ ∃ x, t.line? l.line = some x ∧
      ∃ start, t.lineStart? (l.line.toNat - 1) = some start ∧
        start + min l.column.toNat (byteLength x) = n := by
    simp [offset?, Option.bind_eq_some_iff]
  rw [hbind]
  constructor
  · rintro ⟨x, hx, start, hstart, rfl⟩
    obtain ⟨k, before, line, after, hk, h, rfl⟩ := line?_eq_some_iff_isLine.1 hx
    rw [hk, Nat.add_sub_cancel, h.lineStart?, Option.some_inj] at hstart
    exact ⟨k, before, line, after, hk, h, by rw [hstart]⟩
  · rintro ⟨k, before, line, after, hk, h, rfl⟩
    refine ⟨chomp line, line?_eq_some_iff_isLine.2 ⟨k, before, line, after, hk, h, rfl⟩,
      byteLength before, ?_, rfl⟩
    rw [hk, Nat.add_sub_cancel, h.lineStart?]

theorem offset?_eq_none_iff : t.offset? l = none ↔ t.line? l.line = none := by
  rw [Option.eq_none_iff_forall_ne_some, Option.eq_none_iff_forall_ne_some]
  constructor
  · intro h x hx
    obtain ⟨k, before, line, after, hk, hline, -⟩ := line?_eq_some_iff_isLine.1 hx
    exact h _ (offset?_eq_some_iff.2 ⟨k, before, line, after, hk, hline, rfl⟩)
  · intro h n hn
    obtain ⟨k, before, line, after, hk, hline, -⟩ := offset?_eq_some_iff.1 hn
    exact h _ (line?_eq_some_iff_isLine.2 ⟨k, before, line, after, hk, hline, rfl⟩)

/-- The text under a span runs from its start to its stop, or to the end of the text, but not backwards. -/
theorem sliceSpan?_eq_some_iff : t.sliceSpan? s = some x ↔
    ∃ a b, t = a ++ x ++ b ∧ t.offset? s.start = some (byteLength a) ∧
      byteLength a + byteLength x = max (byteLength a) ((t.offset? s.stop).getD t.byteLength) := by
  have hbind : t.sliceSpan? s = some x ↔ ∃ start, t.offset? s.start = some start ∧
      t.slice? start (max start ((t.offset? s.stop).getD t.byteLength)) = some x := by
    simp [sliceSpan?, Option.bind_eq_some_iff]
  rw [hbind]
  constructor
  · rintro ⟨start, hstart, hx⟩
    obtain ⟨a, b, ht, rfl, hlen⟩ := slice?_eq_some_iff.1 hx
    exact ⟨a, b, ht, hstart, hlen⟩
  · rintro ⟨a, b, ht, hstart, hlen⟩
    exact ⟨byteLength a, hstart, slice?_eq_some_iff.2 ⟨a, b, ht, rfl, hlen⟩⟩

end Offsets

section Cuts

/-- A word without line ends stands on the line that the newlines in front of it tell. -/
theorem exists_line?_of_cut (h : t = a ++ w ++ b) (hnewline : '\n' ∉ w) (hreturn : '\r' ∉ w) {n : UInt32}
    (hn : n.toNat = a.count '\n' + 1) : ∃ l, t.line? n = some l ∧ w <:+: l := by
  have hcut := isLine_of_cut a (w ++ b)
  have htake : (w ++ b).takeWhile (· != '\n') = w ++ b.takeWhile (· != '\n') :=
    List.takeWhile_append_of_pos fun c hc => bne_iff_ne.2 fun h => hnewline (h ▸ hc)
  rw [htake, ← List.append_assoc, ← h] at hcut
  refine ⟨_, line?_eq_some_iff_isLine.2 ⟨_, _, _, _, hn, hcut, rfl⟩, infix_chomp ?_ hreturn⟩
  exact ⟨lastLine a, b.takeWhile (· != '\n'), (List.append_assoc _ _ _)⟩

theorem count_le_of_prefix (h : a <+: b) : a.count '\n' ≤ b.count '\n' := h.sublist.count_le '\n'

/-- What starts at a location or behind it is not on an earlier line. -/
theorem line_le_of_offset? (h : t.offset? l = some n) (ha : a <+: t) (hle : n ≤ byteLength a) :
    l.line.toNat ≤ a.count '\n' + 1 := by
  obtain ⟨k, before, line, after, hk, hline, rfl⟩ := offset?_eq_some_iff.1 h
  have hbefore : before <+: t := ⟨line ++ after, hline.text.symm⟩
  have hcount := count_le_of_prefix (prefix_of_byteLength_le hbefore ha (by omega))
  rw [hline.index] at hcount
  omega

/-- What ends at a location or in front of it is not on a later line. -/
theorem le_line_of_offset? (h : t.offset? l = some n) (ha : a <+: t) (hle : byteLength a ≤ n) :
    a.count '\n' + 1 ≤ l.line.toNat := by
  obtain ⟨k, before, line, after, hk, hline, rfl⟩ := offset?_eq_some_iff.1 h
  have hstop : before ++ line <+: t := ⟨after, by rw [hline.text, List.append_assoc]⟩
  have hchomp := byteLength_le_of_prefix (chomp_isPrefix line)
  have hcount := count_le_of_prefix
    (prefix_of_byteLength_le ha hstop (by rw [byteLength_append]; omega))
  rw [List.count_append, List.count_eq_zero_of_not_mem hline.bare, hline.index] at hcount
  omega

end Cuts
end Coverage.Text

import Coverage.Backfill
import Coverage.Proofs.Text.Positions

/-! Locations are read as they were written. The location of a byte tells how many newlines are in front of it and
how many bytes follow the last of them, and the text under a span of two such locations runs from byte to byte. -/
namespace Coverage.Text

variable {t a b before line after : Text} {n m k s e : Nat} {x y : Location}

section Starts

theorem startsBehind_append (n : Nat) (a b : Text) :
    startsBehind n (a ++ b) = startsBehind n a ++ startsBehind (n + byteLength a) b := by
  induction a generalizing n with
  | nil => simp
  | cons c a ih =>
    rw [List.cons_append, startsBehind_cons, startsBehind_cons, ih, byteLength_cons, Nat.add_assoc]
    split <;> rfl

theorem length_startsBehind (n : Nat) (t : Text) : (startsBehind n t).length = t.count '\n' := by
  induction t generalizing n with
  | nil => rfl
  | cons c t ih =>
    rw [startsBehind_cons, List.count_cons]
    by_cases hc : c = '\n'
    · simp [hc, ih]
    · simp [hc, ih]

theorem bounds_of_mem_startsBehind (h : k ∈ startsBehind n t) : n < k ∧ k ≤ n + byteLength t := by
  obtain ⟨i, hi⟩ := List.mem_iff_getElem?.1 h
  obtain ⟨before, after, rfl, -, rfl⟩ := getElem?_startsBehind.1 hi
  have hsize : '\n'.utf8Size = 1 := rfl
  rw [byteLength_append, byteLength_cons]
  omega

theorem length_lineStarts (t : Text) : t.lineStarts.length = t.count '\n' + 1 := by
  rw [lineStarts, List.length_cons, length_startsBehind]

theorem le_of_mem_lineStarts (h : k ∈ lineStarts t) : k ≤ byteLength t := by
  rw [lineStarts, List.mem_cons] at h
  rcases h with rfl | h
  · exact Nat.zero_le _
  · simpa using (bounds_of_mem_startsBehind h).2

/-- No two lines start at the same byte. -/
theorem length_takeWhile_startsBehind_le (n k : Nat) (t : Text) :
    ((startsBehind n t).takeWhile (· ≤ k)).length ≤ k - n := by
  induction t generalizing n with
  | nil => exact Nat.zero_le _
  | cons c t ih =>
    have hpos := c.utf8Size_pos
    have hrest := ih (n + c.utf8Size)
    rw [startsBehind_cons]
    split
    · rw [List.takeWhile_cons]
      split
      · next hle =>
        rw [decide_eq_true_iff] at hle
        rw [List.length_cons]
        omega
      · exact Nat.zero_le _
    · omega

/-- The line starts up to a byte are those of the text in front of it. -/
theorem takeWhile_lineStarts (a b : Text) :
    (lineStarts (a ++ b)).takeWhile (· ≤ byteLength a) = lineStarts a := by
  have hbehind : (startsBehind (byteLength a) b).takeWhile (· ≤ byteLength a) = [] := by
    rw [List.takeWhile_eq_nil_iff]
    intro hl
    have := (bounds_of_mem_startsBehind (List.get_mem _ ⟨0, hl⟩)).1
    simpa using this
  rw [lineStarts, startsBehind_append, Nat.zero_add, ← List.cons_append, ← lineStarts,
    List.takeWhile_append_of_pos, hbehind, List.append_nil]
  intro k hk
  simpa using le_of_mem_lineStarts hk

/-- Behind a part of one line there are no more line starts than bytes. -/
theorem length_takeWhile_lineStarts_le {w : Text} (h : t = a ++ w ++ b) (hw : '\n' ∉ w) (n : Nat) :
    (t.lineStarts.takeWhile (· ≤ n)).length ≤ a.count '\n' + 1 + (n - byteLength (a ++ w)) := by
  have hbare : (a ++ w).count '\n' = a.count '\n' := by
    rw [List.count_append, List.count_eq_zero_of_not_mem hw, Nat.add_zero]
  rw [h, lineStarts, startsBehind_append, Nat.zero_add, ← List.cons_append, ← lineStarts, List.takeWhile_append]
  split
  · rw [List.length_append, length_lineStarts, hbare]
    exact Nat.add_le_add_left (length_takeWhile_startsBehind_le _ _ _) _
  · have hle := (List.takeWhile_sublist (fun k => decide (k ≤ n)) (l := lineStarts (a ++ w))).length_le
    rw [length_lineStarts, hbare] at hle
    omega

theorem length_takeWhile_le_of_le (l : List Nat) (h : m ≤ n) :
    (l.takeWhile (· ≤ m)).length ≤ (l.takeWhile (· ≤ n)).length := by
  have hboth : (l.takeWhile (· ≤ n)).takeWhile (· ≤ m) = l.takeWhile (· ≤ m) := by
    rw [List.takeWhile_takeWhile]
    congr 1
    funext k
    simpa using fun hk : k ≤ m => hk.trans h
  rw [← hboth]
  exact (List.takeWhile_sublist _).length_le

theorem toNat_line_locationOf (l : List Nat) (n : Nat) :
    (locationOf l n).line.toNat = (l.takeWhile (· ≤ n)).length % UInt32.size := by
  rw [locationOf, UInt32.toNat_ofNat']

theorem length_takeWhile_of_cut (h : t = a ++ b) :
    (t.lineStarts.takeWhile (· ≤ byteLength a)).length = a.count '\n' + 1 := by
  rw [h, takeWhile_lineStarts, length_lineStarts]

theorem getLastD_lineStarts (t : Text) :
    t.lineStarts.getLastD 0 = byteLength (t.rdropWhile (· != '\n')) := by
  have hline := isLine_of_cut t []
  rw [List.append_nil] at hline
  have hstart := hline.lineStart?
  rw [List.getLastD_eq_getLast?, List.getLast?_eq_getElem?, length_lineStarts, Nat.add_sub_cancel, ← lineStart?,
    hstart, Option.getD_some]

theorem locationOf_lineStarts (a b : Text) : locationOf (lineStarts (a ++ b)) (byteLength a) =
    ⟨UInt32.ofNat (a.count '\n' + 1), UInt32.ofNat (byteLength (lastLine a))⟩ := by
  have hlast : byteLength a - byteLength (a.rdropWhile (· != '\n')) = byteLength (lastLine a) := by
    rw [← byteLength_add_lastLine a, Nat.add_sub_cancel_left]
  rw [locationOf, takeWhile_lineStarts, length_lineStarts, getLastD_lineStarts, hlast]

end Starts

section Writing

/-- A location whose line counts the newlines in front of a byte, from one, and whose column counts the
bytes behind the last of them. -/
def Locates (t : Text) (n : Nat) (l : Location) : Prop :=
  ∃ a b, t = a ++ b ∧ byteLength a = n ∧
    l.line.toNat = a.count '\n' + 1 ∧ l.column.toNat = byteLength (lastLine a)

def newlines (n : Nat) : Text := List.replicate n '\n'

/-- The end of the text of newlines alone whose last line has a number that is no word. -/
def BeyondLines (t : Text) (n : Nat) : Prop := t = newlines (UInt32.size - 1) ∧ n = UInt32.size - 1

theorem eq_replicate_of_byteLength_le_count {c : Char} (h : byteLength t ≤ t.count c) :
    t = List.replicate (t.count c) c := by
  induction t with
  | nil => rfl
  | cons d t ih =>
    have hle := count_le_byteLength c t
    have hpos := d.utf8Size_pos
    rw [byteLength_cons, List.count_cons] at h
    split at h
    · next hd =>
      rw [beq_iff_eq] at hd
      rw [hd, List.count_cons_self, List.replicate_succ, ← ih (by omega)]
    · omega

theorem byteLength_lastLine_le (t : Text) : byteLength (lastLine t) ≤ byteLength t :=
  (Nat.le_add_left _ _).trans_eq (byteLength_add_lastLine t)

theorem locates_locationOf (ht : t.byteLength < UInt32.size) (hn : t.IsBoundary n)
    (hlines : ¬BeyondLines t n) : t.Locates n (locationOf t.lineStarts n) := by
  obtain ⟨a, b, rfl, rfl⟩ := hn
  rw [byteLength_append] at ht
  have hcount := count_le_byteLength '\n' a
  have hlast := byteLength_lastLine_le a
  have hline : a.count '\n' + 1 < UInt32.size := by
    by_contra hge
    have hb : b = [] := byteLength_eq_zero.1 (by omega)
    have hsize : a.count '\n' = UInt32.size - 1 := by omega
    have ha := eq_replicate_of_byteLength_le_count (t := a) (c := '\n') (by omega)
    rw [hsize] at ha
    exact hlines ⟨by rw [hb, List.append_nil]; exact ha, by omega⟩
  have hcolumn : byteLength (lastLine a) < UInt32.size := by omega
  refine ⟨a, b, rfl, rfl, ?_, ?_⟩
  · rw [locationOf_lineStarts, UInt32.toNat_ofNat', Nat.mod_eq_of_lt hline]
  · rw [locationOf_lineStarts, UInt32.toNat_ofNat', Nat.mod_eq_of_lt hcolumn]

theorem byteLength_newlines (n : Nat) : byteLength (newlines n) = n := by
  induction n with
  | zero => rfl
  | succ n ih =>
    rw [newlines, List.replicate_succ, byteLength_cons, ← newlines, ih, Nat.add_comm]
    rfl

/-- The location of the end of a text of newlines alone, which is the start of its last line. -/
theorem locationOf_newlines (n : Nat) :
    locationOf (newlines n).lineStarts n = ⟨UInt32.ofNat (n + 1), 0⟩ := by
  have hlast : lastLine (newlines n) = [] := by
    rw [lastLine, List.rtakeWhile_eq_nil_iff]
    intro hne
    rw [List.eq_of_mem_replicate (List.getLast_mem hne)]
    decide
  have hend := locationOf_lineStarts (newlines n) []
  rwa [List.append_nil, byteLength_newlines, hlast, newlines, List.count_replicate_self, ← newlines] at hend

end Writing

section Reading

theorem offset?_of_locates (hcr : '\r' ∉ t) (h : t.Locates n x) : t.offset? x = some n := by
  obtain ⟨a, b, rfl, rfl, hline, hcolumn⟩ := h
  have hcut := isLine_of_cut a b
  have hbare : chomp (lastLine a ++ b.takeWhile (· != '\n')) = lastLine a ++ b.takeWhile (· != '\n') := by
    refine chomp_of_not_mem fun hmem => hcr ?_
    rw [hcut.text]
    exact List.mem_append_right _ (List.mem_append_left _ hmem)
  refine offset?_eq_some_iff.2 ⟨_, _, _, _, hline, hcut, ?_⟩
  rw [hbare, hcolumn, byteLength_append, Nat.min_eq_left (Nat.le_add_right _ _), byteLength_add_lastLine]

/-- Two cuts of a text bound the part between them. -/
theorem exists_between (hs : t.IsBoundary s) (he : t.IsBoundary e) (hle : s ≤ e) :
    ∃ a w b, t = a ++ w ++ b ∧ byteLength a = s ∧ byteLength a + byteLength w = e := by
  obtain ⟨a, r, hr, rfl⟩ := hs
  obtain ⟨d, b, rfl, rfl⟩ := he
  obtain ⟨w, rfl⟩ := prefix_of_byteLength_le (hr ▸ List.prefix_append a r) (List.prefix_append d b) hle
  exact ⟨a, w, b, rfl, rfl, byteLength_append.symm⟩

theorem Locates.isBoundary (h : t.Locates n x) : t.IsBoundary n := by
  obtain ⟨a, b, ht, hn, -⟩ := h
  exact ⟨a, b, ht, hn⟩

theorem sliceSpan?_of_locates (hcr : '\r' ∉ t) (hs : t.Locates s x) (he : t.Locates e y) (hle : s ≤ e) :
    ∃ a w b, t = a ++ w ++ b ∧ byteLength a = s ∧ byteLength a + byteLength w = e ∧
      t.sliceSpan? ⟨x, y⟩ = some w := by
  obtain ⟨a, w, b, ht, ha, hw⟩ := exists_between hs.isBoundary he.isBoundary hle
  refine ⟨a, w, b, ht, ha, hw, sliceSpan?_eq_some_iff.2 ⟨a, b, ht, ?_, ?_⟩⟩
  · rw [offset?_of_locates hcr hs, ha]
  · rw [offset?_of_locates hcr he, Option.getD_some]
    omega

end Reading

section Accesses

/-- The byte in front of the newline that ends a line, by the number of the line counted from one. -/
def lineStop (t : Text) (number : Nat) : Nat := ((t.lineStart? number).map (· - 1)).getD t.byteLength

theorem lineStart?_eq_none_iff : t.lineStart? k = none ↔ t.count '\n' < k := by
  rw [lineStart?, List.getElem?_eq_none_iff, length_lineStarts, Nat.add_one_le_iff]

theorem IsLine.lineStop (h : IsLine t k before line after) :
    t.lineStop (k + 1) = byteLength before + byteLength line := by
  have hcount : (before ++ line).count '\n' = k := by
    rw [List.count_append, List.count_eq_zero_of_not_mem h.bare, h.index, Nat.add_zero]
  rcases h.stop with hafter | ⟨r, hafter⟩
  · have htext : t = before ++ line := by rw [h.text, hafter, List.append_nil]
    have hnone : t.lineStart? (k + 1) = none := by
      rw [lineStart?_eq_none_iff, htext, hcount]
      exact Nat.lt_succ_self k
    rw [Text.lineStop, hnone, Option.map_none, Option.getD_none, htext, byteLength_append]
  · have hstart := StartsLine.behind (before ++ line) r (by rw [List.append_assoc, ← hafter, ← h.text])
    rw [hcount, ← lineStart?_eq_some_iff] at hstart
    rw [Text.lineStop, hstart, Option.map_some, Option.getD_some, Nat.add_sub_cancel, byteLength_append]

/-- Lines and texts under spans are parts of the text, and what is looked up for them is there: a line is
the text from its start to its stop, only the first line starts at byte zero, and a location has a byte
if its line is there. -/
structure Readable (t : Text) : Prop where
  line : ∀ n l, t.line? n = some l → l <:+: t
  slice : ∀ s x, t.sliceSpan? s = some x → x <:+: t
  bytes : ∀ n l, t.line? n = some l → ∃ start raw, t.lineStart? (n.toNat - 1) = some start ∧
    t.slice? start (t.lineStop n.toNat) = some raw ∧ chomp raw = l
  newline : ∀ k start, t.lineStart? (k + 1) = some start → 0 < start
  offset : ∀ l, t.offset? l = none ↔ t.line? l.line = none

theorem readable (t : Text) : t.Readable where
  line n l h := by
    obtain ⟨k, before, line, after, -, hline, rfl⟩ := line?_eq_some_iff_isLine.1 h
    have hinfix : line <:+: t := ⟨before, after, by rw [hline.text, List.append_assoc]⟩
    exact (chomp_isPrefix line).isInfix.trans hinfix
  slice s x h := by
    obtain ⟨a, b, ht, -⟩ := sliceSpan?_eq_some_iff.1 h
    exact ⟨a, b, ht.symm⟩
  bytes n l h := by
    obtain ⟨k, before, line, after, hk, hline, rfl⟩ := line?_eq_some_iff_isLine.1 h
    rw [hk, Nat.add_sub_cancel]
    refine ⟨byteLength before, line, hline.lineStart?, ?_, rfl⟩
    exact slice?_eq_some_iff.2 ⟨before, after, by rw [hline.text, List.append_assoc], rfl, hline.lineStop.symm⟩
  newline k start h := by
    cases lineStart?_eq_some_iff.1 h with
    | behind before after => exact Nat.succ_pos _
  offset l := offset?_eq_none_iff

end Accesses

/-- The text between two bytes is what stands under any span from a location of the one to a location of
the other. The locations that are generated are such ones. -/
structure ReadsBack (t : Text) (s e : Nat) : Prop where
  exact : ∀ x y, t.Locates s x → t.Locates e y →
    ∃ a w b, t = a ++ w ++ b ∧ byteLength a = s ∧ byteLength a + byteLength w = e ∧
      t.sliceSpan? ⟨x, y⟩ = some w
  start : t.Locates s (Backfill.spanOf t.lineStarts ⟨s, e⟩).start
  stop : t.Locates e (Backfill.spanOf t.lineStarts ⟨s, e⟩).stop

/-- Spans that run from the location of a byte to that of another are read as the text between the bytes,
if there is no carriage return in the text and each byte has a location. No text and no span is read beyond
the text. -/
theorem readsBack_of_boundaries :
    (∀ t : Text, t.byteLength < UInt32.size → '\r' ∉ t → ∀ s e, s ≤ e →
      t.IsBoundary s → t.IsBoundary e → ¬BeyondLines t e → t.ReadsBack s e) ∧
    ∀ t : Text, t.Readable := by
  refine ⟨fun t ht hcr s e hle hs he hlines => ?_, readable⟩
  have hstart : ¬BeyondLines t s := by
    intro h
    -- no byte of the text lies behind the last line
    obtain ⟨a, b, hab, rfl⟩ := he
    have hle' := byteLength_le_of_prefix (hab ▸ List.prefix_append a b)
    rw [h.1, byteLength_newlines] at hle'
    exact hlines ⟨h.1, Nat.le_antisymm hle' (h.2 ▸ hle)⟩
  exact {
    exact := fun x y hx hy => sliceSpan?_of_locates hcr hx hy hle
    start := locates_locationOf ht hs hstart
    stop := locates_locationOf ht he hlines }

/-- The last newline of a text and the letter behind it. -/
theorem readsBack_of_boundaries_sample :
    ∃ t : Text, t = "é\n\nab".toList ∧ t.ReadsBack 3 5 ∧ t.Readable ∧
      Backfill.spanOf t.lineStarts ⟨3, 5⟩ = .ofNumbers 2 0 3 1 ∧
      t.sliceSpan? (.ofNumbers 2 0 3 1) = some ['\n', 'a'] := by
  refine ⟨_, rfl, readsBack_of_boundaries.1 _ (by decide +kernel) (by decide) 3 5 (by decide) ?_ ?_ ?_,
    readsBack_of_boundaries.2 _, by decide +kernel, by decide +kernel⟩
  · exact ⟨['é', '\n'], ['\n', 'a', 'b'], rfl, rfl⟩
  · exact ⟨['é', '\n', '\n', 'a'], ['b'], rfl, rfl⟩
  · exact fun h => absurd h.2 (by decide)

/-- The end of such a text is given line zero, and nothing is read there. -/
theorem unread_of_newlines :
    (newlines (UInt32.size - 1)).byteLength < UInt32.size ∧ '\r' ∉ newlines (UInt32.size - 1) ∧
    (newlines (UInt32.size - 1)).IsBoundary (UInt32.size - 1) ∧
    Backfill.spanOf (newlines (UInt32.size - 1)).lineStarts ⟨UInt32.size - 1, UInt32.size - 1⟩ =
      .ofNumbers 0 0 0 0 ∧
    (newlines (UInt32.size - 1)).sliceSpan? (.ofNumbers 0 0 0 0) = none := by
  refine ⟨?_, fun h => ?_, ⟨_, [], (List.append_nil _).symm, byteLength_newlines _⟩, ?_, ?_⟩
  · rw [byteLength_newlines]
    decide
  · exact absurd (List.eq_of_mem_replicate h) (by decide)
  · rw [Backfill.spanOf, locationOf_newlines]
    rfl
  · rw [sliceSpan?, offset?_eq_none_iff.2 (line?_eq_none_iff.2 (.inl rfl))]
    rfl

end Coverage.Text

import Coverage.Proofs.Script.Decoding
import Coverage.Proofs.Text.Bytes

/-! How the pieces of a source map are written: lines between semicolons, the pieces of a line between
commas. Pieces that come in the order of their lines are read back as they were. -/
namespace Coverage.Mappings

variable {sep c : Char} {n last : Nat} {l : List Text} {ps : List (Nat × Text)}

/-- The pieces of a line between commas. -/
def lineOf (ps : List (Nat × Text)) (line : Nat) : Text :=
  [','].intercalate ((ps.filter (·.1 == line)).map (·.2))

/-- All lines up to the last one between semicolons. -/
def layout (last : Nat) (ps : List (Nat × Text)) : Text :=
  [';'].intercalate ((List.range (last + 1)).map (lineOf ps))

/-- A piece that can stand between commas and semicolons. -/
structure Plain (piece : Text) : Prop where
  ne_nil : piece ≠ []
  comma : ',' ∉ piece
  semicolon : ';' ∉ piece

theorem splitAt_intercalate (h : ∀ p ∈ l, sep ∉ p) (hne : l ≠ []) :
    Text.splitAt sep ([sep].intercalate l) = l := by
  rw [Text.splitAt_eq_splitOn]
  exact List.splitOn_intercalate sep h hne

/-- Pieces that are not empty are found between their separators, also when there are none. -/
theorem filter_splitAt_intercalate (h : ∀ p ∈ l, p ≠ [] ∧ sep ∉ p) :
    (Text.splitAt sep ([sep].intercalate l)).filter (!·.isEmpty) = l := by
  by_cases hl : l = []
  · subst hl
    rfl
  · rw [splitAt_intercalate (fun p hp => (h p hp).2) hl]
    apply List.filter_eq_self.2
    intro p hp
    simpa using (h p hp).1

theorem not_mem_intercalate (hc : c ≠ sep) (h : ∀ p ∈ l, c ∉ p) : c ∉ [sep].intercalate l := by
  induction l with
  | nil => simp
  | cons p l ih =>
    rw [List.forall_mem_cons] at h
    by_cases hl : l = []
    · subst hl
      simpa using h.1
    · rw [List.intercalate_cons_of_ne_nil hl]
      simpa [hc] using ⟨h.1, ih h.2⟩

section Lines

theorem mem_pieces_of_line {p : Text} (h : ∀ p ∈ ps, Plain p.2)
    (hp : p ∈ (ps.filter (·.1 == n)).map (·.2)) : Plain p := by
  obtain ⟨q, hq, rfl⟩ := List.mem_map.1 hp
  exact h q (List.mem_filter.1 hq).1

theorem splitAt_layout (h : ∀ p ∈ ps, Plain p.2) :
    Text.splitAt ';' (layout last ps) = (List.range (last + 1)).map (lineOf ps) := by
  apply splitAt_intercalate
  · intro t ht
    obtain ⟨n, _, rfl⟩ := List.mem_map.1 ht
    exact not_mem_intercalate (by decide) fun p hp => (mem_pieces_of_line h hp).semicolon
  · simp

/-- What is read on a line is what was written there. -/
theorem pieces_of_line (h : ∀ p ∈ ps, Plain p.2) :
    ((Text.splitAt ',' (lineOf ps n)).filter (!·.isEmpty)).map (n, ·) = ps.filter (·.1 == n) := by
  rw [lineOf, filter_splitAt_intercalate, List.map_map]
  · refine List.map_congr_left (g := id) ?_ |>.trans (List.map_id _)
    intro p hp
    rw [← beq_iff_eq.1 (List.mem_filter.1 hp).2]
    rfl
  · intro p hp
    have hplain := mem_pieces_of_line h hp
    exact ⟨hplain.ne_nil, hplain.comma⟩

theorem piecesFrom_range' (n k : Nat) (f : Nat → Text) : piecesFrom n ((List.range' n k).map f) =
    (List.range' n k).flatMap fun m => ((Text.splitAt ',' (f m)).filter (!·.isEmpty)).map (m, ·) := by
  induction k generalizing n with
  | zero => rfl
  | succ k ih =>
    rw [List.range'_succ, List.map_cons, List.flatMap_cons, piecesFrom_cons, ih]

theorem le_of_ordered (h : Ordered n ps) : ∀ p ∈ ps, n ≤ p.1 := by
  intro p hp
  exact (List.pairwise_cons.1 h).1 p.1 (List.mem_map_of_mem hp)

theorem ordered_filter (h : Ordered n ps) : Ordered (n + 1) (ps.filter (·.1 != n)) := by
  refine List.pairwise_cons.2 ⟨?_, ?_⟩
  · intro m hm
    obtain ⟨p, hp, rfl⟩ := List.mem_map.1 hm
    obtain ⟨hp, hne⟩ := List.mem_filter.1 hp
    have := le_of_ordered h p hp
    have := bne_iff_ne.1 hne
    omega
  · exact (List.pairwise_cons.1 h).2.sublist (List.filter_sublist.map _)

/-- Pieces in the order of their lines are those on the first line and then the others. -/
theorem filter_append_filter (h : Ordered n ps) :
    ps.filter (·.1 == n) ++ ps.filter (·.1 != n) = ps := by
  induction ps with
  | nil => rfl
  | cons p ps ih =>
    obtain ⟨line, piece⟩ := p
    obtain ⟨hle, hps⟩ := ordered_cons h
    by_cases heq : line = n
    · subst heq
      simpa using ih hps
    · have hnil : ps.filter (·.1 == n) = [] := by
        apply List.filter_eq_nil_iff.2
        intro p hp hpn
        have := le_of_ordered hps p hp
        have := beq_iff_eq.1 hpn
        omega
      have hself : ps.filter (·.1 != n) = ps := by
        apply List.filter_eq_self.2
        intro p hp
        have := le_of_ordered hps p hp
        exact bne_iff_ne.2 (by omega)
      simp [heq, hnil, hself]

/-- Going through the lines gives back pieces in the order of their lines. -/
theorem flatMap_lines (k : Nat) (hordered : Ordered n ps) (hlines : ∀ p ∈ ps, p.1 < n + k) :
    ((List.range' n k).flatMap fun m => ps.filter (·.1 == m)) = ps := by
  induction k generalizing n ps with
  | zero =>
    symm
    apply List.eq_nil_iff_forall_not_mem.2
    intro p hp
    have := le_of_ordered hordered p hp
    have := hlines p hp
    omega
  | succ k ih =>
    have hrest := ih (ordered_filter hordered) fun p hp => by
      have := hlines p (List.mem_filter.1 hp).1
      omega
    have hsame : ∀ m ∈ List.range' (n + 1) k,
        ps.filter (·.1 == m) = (ps.filter (·.1 != n)).filter (·.1 == m) := by
      intro m hm
      have hlt := (List.mem_range'_1.1 hm).1
      rw [List.filter_filter]
      apply List.filter_congr
      intro p _
      by_cases hp : p.1 = m
      · have hne : p.1 ≠ n := by omega
        simp [hne]
      · simp [hp]
    rw [List.range'_succ, List.flatMap_cons, List.flatMap_congr hsame, hrest]
    exact filter_append_filter hordered

/-- Pieces are read as they were written. -/
theorem pieces_layout (hordered : Ordered 0 ps) (hlast : ∀ p ∈ ps, p.1 ≤ last)
    (h : ∀ p ∈ ps, Plain p.2) : pieces (String.ofList (layout last ps)) = ps := by
  rw [pieces, String.toList_ofList, splitAt_layout h, List.range_eq_range', piecesFrom_range']
  simp only [pieces_of_line h]
  apply flatMap_lines (last + 1) hordered
  intro p hp
  have := hlast p hp
  omega

end Lines

end Coverage.Mappings

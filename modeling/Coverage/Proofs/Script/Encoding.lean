import Coverage.Proofs.Script.Exactness
import Coverage.Proofs.Script.Spelling
import Mathlib.Data.List.Pairwise

/-! How a source map is written, and that decoding reads back what was written. Every number is written as
a difference to the one before, columns from zero on each line; a segment with a source has four fields,
and a fifth if it has a name. -/
namespace Coverage.Mappings

/-- A segment and where it was in its source; one without a source writes nothing more. -/
structure Entry where
  segment : MappingSegment
  line : UInt32
  column : UInt32
  name : Option UInt32
  deriving DecidableEq

/-- The numbers to which differences are taken. -/
structure Carried where
  line : UInt32 := 0
  column : UInt32 := 0
  source : UInt32 := 0
  originalLine : UInt32 := 0
  originalColumn : UInt32 := 0
  name : UInt32 := 0

def difference (a b : UInt32) : Int := (a.toNat : Int) - b.toNat

/-- The fields of a segment behind what was written before. -/
def Entry.differences (e : Entry) (last : Carried) : List Int :=
  let column := difference e.segment.column (if e.segment.line = last.line then last.column else 0)
  match e.segment.source with
  | none => [column]
  | some source => [column, difference source last.source, difference e.line last.originalLine,
      difference e.column last.originalColumn] ++ (e.name.map (difference · last.name)).toList

def Carried.after (last : Carried) (e : Entry) : Carried :=
  match e.segment.source with
  | none => { last with line := e.segment.line, column := e.segment.column }
  | some source => ⟨e.segment.line, e.segment.column, source, e.line, e.column, e.name.getD last.name⟩

/-- The fields of all segments in a row, each with the line of its segment. -/
def differences (last : Carried) : List Entry → List (Nat × List Int)
  | [] => []
  | e :: l => (e.segment.line.toNat, e.differences last) :: differences (last.after e) l

/-- The pieces of a source map with these entries. -/
def written (entries : List Entry) : List (Nat × Text) :=
  (differences {} entries).map fun (line, fs) => (line, spell fs)

/-- The segments as they stand in a source map, with so many empty lines behind the last one. -/
def encode (blank : Nat) (entries : List Entry) : String :=
  let last := (entries.map (·.segment.line.toNat)).getLastD 0
  String.ofList (layout (last + blank) (written entries))

variable {e : Entry} {l : List Entry} {last : Carried}

section Entries

theorem Entry.differences_ne_nil (e : Entry) (last : Carried) : e.differences last ≠ [] := by
  rw [Entry.differences]
  cases e.segment.source <;> simp

theorem natAbs_difference_lt (a b : UInt32) : (difference a b).natAbs < UInt32.size := by
  have hsize : UInt32.size = 2 ^ 32 := rfl
  have := a.toNat_lt
  have := b.toNat_lt
  rw [difference]
  omega

theorem Entry.natAbs_lt_of_mem_differences {n : Int} (h : n ∈ e.differences last) :
    n.natAbs < UInt32.size := by
  rw [Entry.differences] at h
  cases hs : e.segment.source with
  | none =>
    simp only [hs, List.mem_singleton] at h
    rw [h]
    exact natAbs_difference_lt _ _
  | some source =>
    cases hn : e.name with
    | none =>
      simp only [hs, hn, Option.map_none, Option.toList_none, List.append_nil, List.mem_cons,
        List.not_mem_nil, or_false] at h
      rcases h with rfl | rfl | rfl | rfl <;> exact natAbs_difference_lt _ _
    | some name =>
      simp only [hs, hn, Option.map_some, Option.toList_some, List.cons_append, List.nil_append,
        List.mem_cons, List.not_mem_nil, or_false] at h
      rcases h with rfl | rfl | rfl | rfl | rfl <;> exact natAbs_difference_lt _ _

/-- Differences of numbers in 32 bits have at most 33 bits with their sign. -/
theorem unsigned_lt_of_mem_differences {n : Int} (h : n ∈ e.differences last) : unsigned n < 2 ^ 33 := by
  have hsize : UInt32.size = 2 ^ 32 := rfl
  have habs := Entry.natAbs_lt_of_mem_differences h
  rw [unsigned]
  split <;> omega

theorem short_readingOf (line : Nat) (e : Entry) (last : Carried) :
    (readingOf (line, e.differences last)).Short := by
  intro g hg
  obtain ⟨n, hn, rfl⟩ := List.mem_map.1 hg
  have hlt := unsigned_lt_of_mem_differences hn
  have hlength := length_digitsOf_le 6 (n := unsigned n) (by omega)
  omega

theorem lossless_readingOf (line : Nat) (e : Entry) (last : Carried) :
    (readingOf (line, e.differences last)).Lossless := by
  intro g hg
  obtain ⟨n, hn, rfl⟩ := List.mem_map.1 hg
  have hlt := unsigned_lt_of_mem_differences hn
  rw [amount_digitsOf]
  omega

/-- A segment as a position. -/
def position (s : MappingSegment) : Position :=
  ⟨s.line.toNat, s.column.toNat, s.source.map fun n => (n.toNat : Int)⟩

theorem fits_position (s : MappingSegment) : (position s).Fits := by
  have hlt : ∀ n : UInt32, 0 ≤ (n.toNat : Int) ∧ (n.toNat : Int) < UInt32.size := by
    intro n
    have hsize : UInt32.size = 2 ^ 32 := rfl
    have := n.toNat_lt
    omega
  refine ⟨s.line.toNat_lt, hlt s.column, ?_⟩
  intro n hn
  obtain ⟨m, _, rfl⟩ := Option.map_eq_some_iff.1 hn
  exact hlt m

theorem cut_toNat (n : UInt32) : cut n.toNat = n := by
  apply UInt32.toNat_inj.1
  apply Int.ofNat.inj
  exact toNat_cut_eq_iff.2 (fits_position ⟨0, n, none⟩).column

theorem cut_position (s : MappingSegment) : (position s).cut = s := by
  rw [position, Position.cut, UInt32.ofNat_toNat, cut_toNat, Option.map_map]
  have h : (cut ∘ fun n : UInt32 => (n.toNat : Int)) = id := funext cut_toNat
  rw [h, Option.map_id]
  rfl

/-- What is carried is where the pieces that are done stand. -/
def Carried.cursor (last : Carried) : Cursor := ⟨last.column.toNat, last.source.toNat⟩

variable {done : List Reading}

theorem namesSource_readingOf (line : Nat) : (readingOf (line, e.differences last)).NamesSource ↔
    e.segment.source.isSome := by
  rw [Reading.NamesSource, fields_readingOf, Entry.differences]
  cases e.segment.source <;> simp

theorem headD_differences (e : Entry) (last : Carried) : (e.differences last).headD 0 =
    difference e.segment.column (if e.segment.line = last.line then last.column else 0) := by
  rw [Entry.differences]
  cases e.segment.source <;> rfl

theorem line_after (last : Carried) (e : Entry) : (last.after e).line = e.segment.line := by
  rw [Carried.after]
  cases e.segment.source <;> rfl

theorem column_after (last : Carried) (e : Entry) : (last.after e).column = e.segment.column := by
  rw [Carried.after]
  cases e.segment.source <;> rfl

theorem column_on (last : Carried) (line : UInt32) :
    (last.cursor.on last.line.toNat line.toNat).column =
      ((if line = last.line then last.column else 0).toNat : Int) := by
  rw [Cursor.on]
  by_cases h : line = last.line
  · rw [if_pos h, if_pos (by rw [h])]
    rfl
  · rw [if_neg h, if_neg (mt UInt32.toNat_inj.1 h)]
    rfl

theorem source_on (last : Carried) (line : Nat) :
    (last.cursor.on last.line.toNat line).source = last.source.toNat := by
  rw [Cursor.on]
  split <;> rfl

theorem tracks_after (ht : Tracks (· = ·) done last.line.toNat last.cursor)
    (hle : last.line ≤ e.segment.line) :
    Tracks (· = ·) (done ++ [readingOf (e.segment.line.toNat, e.differences last)])
      e.segment.line.toNat (last.after e).cursor := by
  have hon := ht.on rfl (UInt32.le_iff_toNat_le.1 hle)
  have hcolumn := hon.column
  have hsource := hon.source
  rw [column_on] at hcolumn
  rw [source_on] at hsource
  refine Tracks.concat (r := readingOf (e.segment.line.toNat, e.differences last)) hon ?_ ?_ ?_
  · rw [fields_readingOf, headD_differences, Carried.cursor, column_after, difference]
    change (e.segment.column.toNat : Int) = columnOf e.segment.line.toNat done + _
    omega
  · intro hnamed
    obtain ⟨source, hs⟩ := Option.isSome_iff_exists.1 (namesSource_readingOf _ |>.1 hnamed)
    rw [fields_readingOf, ← hsource, Entry.differences, Carried.cursor, Carried.after]
    simp only [hs, List.cons_append, List.getD_cons_succ, List.getD_cons_zero, difference]
    omega
  · intro hunnamed
    have hs : e.segment.source = none := by
      rw [namesSource_readingOf] at hunnamed
      simpa using hunnamed
    rw [source_on, Carried.cursor, Carried.after]
    simp only [hs]

/-- The differences up to a segment come to its position. -/
theorem positionOf_readingOf
    (ht : Tracks (· = ·) done e.segment.line.toNat (last.after e).cursor) :
    positionOf done (readingOf (e.segment.line.toNat, e.differences last)) = position e.segment := by
  have hcolumn := ht.column
  have hsource := ht.source
  rw [Carried.cursor, column_after] at hcolumn
  rw [position, positionOf]
  change Position.mk e.segment.line.toNat (columnOf e.segment.line.toNat done) _ = _
  rw [← hcolumn]
  congr 1
  cases hs : e.segment.source with
  | none =>
    rw [if_neg]
    · rfl
    · rw [namesSource_readingOf, hs]
      simp
  | some source =>
    rw [if_pos, ← hsource, Carried.cursor, Carried.after]
    · simp only [hs]
      rfl
    · rw [namesSource_readingOf, hs]
      rfl

/-- Entries in the order of the lines of their segments. -/
def InOrder (prev : UInt32) (l : List Entry) : Prop :=
  (prev :: l.map (·.segment.line)).Pairwise (· ≤ ·)

theorem positionsFrom_readings (ht : Tracks (· = ·) done last.line.toNat last.cursor)
    (h : InOrder last.line l) : positionsFrom done ((differences last l).map readingOf) =
      l.map (position ·.segment) := by
  induction l generalizing last done with
  | nil => rfl
  | cons e l ih =>
    obtain ⟨hle, hrest⟩ := List.pairwise_cons.1 h
    have hafter := tracks_after ht (hle e.segment.line List.mem_cons_self)
    have hline := line_after last e
    rw [differences, List.map_cons, positionsFrom, List.map_cons, positionOf_readingOf hafter]
    rw [ih (hline ▸ hafter) (hline ▸ hrest)]

theorem mem_differences {p : Nat × List Int} (h : p ∈ differences last l) :
    ∃ e ∈ l, ∃ last, p = (e.segment.line.toNat, e.differences last) := by
  induction l generalizing last with
  | nil => cases h
  | cons e l ih =>
    rcases List.mem_cons.1 h with rfl | h
    · exact ⟨e, List.mem_cons_self, last, rfl⟩
    · obtain ⟨e', he', hp⟩ := ih h
      exact ⟨e', .tail _ he', hp⟩

theorem map_fst_differences (last : Carried) (l : List Entry) :
    (differences last l).map (·.1) = l.map (·.segment.line.toNat) := by
  induction l generalizing last with
  | nil => rfl
  | cons e l ih => rw [differences, List.map_cons, List.map_cons, ih]

end Entries

section RoundTrip

theorem reads_written (l : List Entry) : Reads (written l) ((differences {} l).map readingOf) := by
  rw [Reads, written, List.forall₂_map_left_iff, List.forall₂_map_right_iff, List.forall₂_same]
  intro p _
  exact reading?_spell p.1 p.2

theorem mem_written {p : Nat × Text} (h : p ∈ written l) :
    Plain p.2 ∧ ∃ e ∈ l, p.1 = e.segment.line.toNat := by
  obtain ⟨q, hq, rfl⟩ := List.mem_map.1 h
  obtain ⟨e, he, last, rfl⟩ := mem_differences hq
  exact ⟨plain_spell (e.differences_ne_nil last), e, he, rfl⟩

theorem ordered_written (h : l.Pairwise (·.segment.line ≤ ·.segment.line)) : Ordered 0 (written l) := by
  have hlines : (written l).map (·.1) = l.map (·.segment.line.toNat) := by
    rw [written, List.map_map]
    exact map_fst_differences {} l
  rw [Ordered, hlines, List.pairwise_cons, List.pairwise_map]
  exact ⟨fun _ _ => Nat.zero_le _, h.imp UInt32.le_iff_toNat_le.1⟩

theorem pieces_encode (blank : Nat) (h : l.Pairwise (·.segment.line ≤ ·.segment.line)) :
    pieces (encode blank l) = written l := by
  refine pieces_layout (ordered_written h) ?_ fun p hp => (mem_written hp).1
  intro p hp
  obtain ⟨_, e, he, hline⟩ := mem_written hp
  have hmem : e.segment.line.toNat ∈ l.map (·.segment.line.toNat) := List.mem_map_of_mem he
  have hsorted : (l.map (·.segment.line.toNat)).Pairwise (· ≤ ·) :=
    List.pairwise_map.2 (h.imp UInt32.le_iff_toNat_le.1)
  have hle := hsorted.rel_getLast hmem
  rw [List.getLastD_eq_getLast?, List.getLast?_eq_some_getLast (List.ne_nil_of_mem hmem), Option.getD_some]
  omega

/-- Segments in the order of their lines are decoded as they were encoded, whatever their positions in
their sources are. -/
theorem decode_of_encode (blank : Nat) (l : List Entry)
    (h : l.Pairwise (·.segment.line ≤ ·.segment.line)) :
    decode (encode blank l) = .ok (l.map (·.segment)) := by
  have hreadings : readings? (encode blank l) = some ((differences {} l).map readingOf) := by
    rw [readings?, pieces_encode blank h]
    exact mapM_eq_some_iff.2 (reads_written l)
  have hpositions : positions ((differences {} l).map readingOf) = l.map (position ·.segment) := by
    rw [positions_eq]
    refine positionsFrom_readings (tracks_nil rfl) (List.pairwise_cons.2 ⟨?_, ?_⟩)
    · intro n _
      exact UInt32.zero_le
    · exact List.pairwise_map.2 h
  rw [decode_of_fits hreadings, hpositions, List.map_map]
  · have hcut : ∀ e ∈ l, (Position.cut ∘ (position ·.segment)) e = e.segment := by
      intro e _
      exact cut_position e.segment
    rw [List.map_congr_left hcut]
  · intro r hr
    obtain ⟨p, hp, rfl⟩ := List.mem_map.1 hr
    obtain ⟨e, _, last, rfl⟩ := mem_differences hp
    exact ⟨short_readingOf _ e last, lossless_readingOf _ e last⟩
  · intro p hp
    rw [hpositions] at hp
    obtain ⟨e, _, rfl⟩ := List.mem_map.1 hp
    exact fits_position e.segment

/-- An empty line, a step back to an earlier column and source, and the largest numbers. -/
theorem decode_of_encode_sample :
    encode 0 [⟨⟨0, 3, some 1⟩, 4, 2, some 5⟩, ⟨⟨0, 1, none⟩, 0, 0, none⟩,
        ⟨⟨2, 4294967295, some 0⟩, 4294967295, 0, none⟩, ⟨⟨2, 0, some 4294967295⟩, 0, 1, some 0⟩] =
      "GCIEK,F;;+/////HD2/////HF,//////H+/////H//////HCL" ∧
    decode "GCIEK,F;;+/////HD2/////HF,//////H+/////H//////HCL" =
      .ok [⟨0, 3, some 1⟩, ⟨0, 1, none⟩, ⟨2, 4294967295, some 0⟩, ⟨2, 0, some 4294967295⟩] := by
  have hencode : encode 0 [⟨⟨0, 3, some 1⟩, 4, 2, some 5⟩, ⟨⟨0, 1, none⟩, 0, 0, none⟩,
        ⟨⟨2, 4294967295, some 0⟩, 4294967295, 0, none⟩, ⟨⟨2, 0, some 4294967295⟩, 0, 1, some 0⟩] =
      "GCIEK,F;;+/////HD2/////HF,//////H+/////H//////HCL" := by decide +kernel
  refine ⟨hencode, ?_⟩
  rw [← hencode]
  exact decode_of_encode 0 _ (by decide)

end RoundTrip

end Coverage.Mappings

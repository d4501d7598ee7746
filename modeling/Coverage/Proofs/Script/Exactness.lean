import Coverage.Proofs.Script.Tracking

/-! When no digit is lost the cursor is the exact position, and decoding refuses the positions that are
negative or have no room in 64 bits with sign. A string is exact or refused unless a position is decoded
that has no room in 32 bits. -/
namespace Coverage.Mappings

variable {prev : Nat} {c : Cursor} {ps : List (Nat × Text)} {mappings : String}
  {segments : List MappingSegment} {done rs : List Reading} {r : Reading}

/-- All numbers have room in words. -/
def Reading.Lossless (r : Reading) : Prop := ∀ g ∈ r.groups, amount g < 2 ^ 63

/-- The position has room in 64 bits with sign. -/
structure Position.InWords (p : Position) : Prop where
  column : 0 ≤ p.column ∧ p.column < 2 ^ 63
  source : ∀ n ∈ p.source, 0 ≤ n ∧ n < 2 ^ 63

theorem Position.Fits.inWords {p : Position} (h : p.Fits) : p.InWords := by
  have hsize : UInt32.size = 2 ^ 32 := rfl
  have hcolumn := h.column
  refine ⟨by omega, ?_⟩
  intro n hn
  have := h.source n hn
  omega

section Words

theorem word_of_lt {n : Int} (hlow : -2 ^ 63 ≤ n) (hhigh : n < 2 ^ 63) : word n = n := by
  apply Int.bmod_eq_of_le <;> omega

/-- A sum that is too large becomes negative. -/
theorem word_of_ge {n : Int} (hlow : 2 ^ 63 ≤ n) (hhigh : n < 2 ^ 64) : word n < 0 := by
  rw [word, Int.bmod_def]
  split <;> omega

theorem fieldOf_of_lt {n : Nat} (h : n < 2 ^ 63) : fieldOf n = signed n := by
  have hword : word n = n := word_of_lt (by omega) (by omega)
  rw [fieldOf, signed]
  generalize word n = w at hword
  split <;> omega

theorem signed_bounds {n : Nat} (h : n < 2 ^ 63) : -2 ^ 62 ≤ signed n ∧ signed n < 2 ^ 62 := by
  rw [signed]
  split <;> omega

theorem Reading.Lossless.words (hr : r.Lossless) : r.words = r.fields :=
  List.map_congr_left fun g hg => fieldOf_of_lt (hr g hg)

theorem Reading.Lossless.bounds (hr : r.Lossless) (i : Nat) :
    -2 ^ 62 ≤ r.fields.getD i 0 ∧ r.fields.getD i 0 < 2 ^ 62 := by
  rw [Reading.fields, List.getD_eq_getElem?_getD, List.getElem?_map]
  cases hg : r.groups[i]? with
  | none => decide
  | some g => exact signed_bounds (hr g (List.mem_of_getElem? hg))

end Words

/-- A cursor that is right and in words. -/
def Exact (a b : Int) : Prop := a = b ∧ 0 ≤ b ∧ b < 2 ^ 63

theorem exact_zero : Exact 0 0 := ⟨rfl, by decide, by decide⟩

section Acceptance
variable {a b f : Int}

theorem exact_word_iff (h : Exact a b) :
    Exact (word (a + f)) (b + f) ↔ 0 ≤ b + f ∧ b + f < 2 ^ 63 := by
  obtain ⟨rfl, hpos, hlt⟩ := h
  constructor
  · rintro ⟨_, hroom⟩
    exact hroom
  · intro hroom
    exact ⟨word_of_lt (by omega) hroom.2, hroom⟩

/-- The sign of the word tells whether there was room. -/
theorem exact_word_iff_nonneg (h : Exact a b) (hlow : -2 ^ 62 ≤ f) (hhigh : f < 2 ^ 62) :
    Exact (word (a + f)) (b + f) ↔ 0 ≤ word (a + f) := by
  rw [exact_word_iff h]
  obtain ⟨rfl, hpos, hlt⟩ := h
  by_cases hroom : a + f < 2 ^ 63
  · rw [word_of_lt (by omega) hroom]
    omega
  · have := word_of_ge (n := a + f) (by omega) (by omega)
    omega

variable (ht : Tracks Exact done r.line c) (hr : r.Lossless)
include ht hr

/-- Without losses the cursor stays exact as long as it is not negative. -/
theorem tracks_iff_nonneg : Tracks Exact (done ++ [r]) r.line (c.after r.words) ↔
    0 ≤ (c.after r.words).column ∧ (4 ≤ r.words.length → 0 ≤ (c.after r.words).source) := by
  rw [tracks_after_iff ht, length_words]
  refine and_congr ?_ (imp_congr_right fun hnamed => ?_)
  · have := hr.bounds 0
    rw [← headD_eq_getD] at this
    rw [hr.words, Cursor.after, exact_word_iff_nonneg ht.column this.1 this.2]
  · have := hr.bounds 1
    rw [source_after_of_named c hnamed, hr.words, exact_word_iff_nonneg ht.source this.1 this.2]

theorem tracks_iff_inWords : Tracks Exact (done ++ [r]) r.line (c.after r.words) ↔
    (positionOf (done ++ [r]) r).InWords := by
  rw [tracks_after_iff ht, hr.words, exact_word_iff ht.column, ← columnOf_concat (r := r) rfl]
  have hsource : (r.NamesSource → Exact (word (c.source + r.fields.getD 1 0))
      (sourceOf done + r.fields.getD 1 0)) ↔
        ∀ n ∈ (positionOf (done ++ [r]) r).source, 0 ≤ n ∧ n < 2 ^ 63 := by
    by_cases hnamed : r.NamesSource
    · rw [exact_word_iff ht.source, ← sourceOf_concat_of_named hnamed]
      simp [positionOf, hnamed]
    · simp [positionOf, hnamed]
  rw [hsource]
  exact ⟨fun h => ⟨h.1, h.2⟩, fun h => ⟨h.column, h.source⟩⟩

end Acceptance

/-- Without losses exactly the positions in words are decoded. -/
theorem follow_ok_iff (ht : Tracks Exact done prev c) (hordered : Ordered prev ps) (hrs : Reads ps rs)
    (hread : ∀ r ∈ rs, r.Short ∧ r.Lossless) :
    (∃ segments, follow prev c ps = .ok segments) ↔ ∀ p ∈ positionsFrom done rs, p.InWords := by
  induction hrs generalizing prev c done with
  | nil => exact iff_of_true ⟨[], rfl⟩ (by simp [positionsFrom])
  | @cons p r ps rs hr hrs ih =>
    obtain ⟨line, piece⟩ := p
    obtain ⟨hle, hrest⟩ := ordered_cons hordered
    obtain rfl := line_of_reading? hr
    rw [List.forall_mem_cons] at hread
    obtain ⟨⟨hshort, hlossless⟩, hread⟩ := hread
    have hon := ht.on exact_zero hle
    have hfields := (fields_eq_ok_iff_reading r.line).2 ⟨r, hr, hshort, rfl⟩
    rw [positionsFrom, List.forall_mem_cons, ← tracks_iff_inWords hon hlossless]
    constructor
    · rintro ⟨segments, hok⟩
      obtain ⟨s, d, tail, hsegment, hfollow, -⟩ := follow_cons_eq_ok_iff.1 hok
      obtain ⟨fs, hfs, rfl, -, hnonneg⟩ := segment_eq_ok_iff.1 hsegment
      obtain rfl := Except.ok.inj (hfs.symm.trans hfields)
      have hafter := (tracks_iff_nonneg hon hlossless).2 hnonneg
      exact ⟨hafter, (ih hafter hrest hread).1 ⟨tail, hfollow⟩⟩
    · rintro ⟨hafter, hpositions⟩
      obtain ⟨tail, htail⟩ := (ih hafter hrest hread).2 hpositions
      have hnonneg := (tracks_iff_nonneg hon hlossless).1 hafter
      have hsegment : segment r.line piece (c.on prev r.line) = .ok (_, _) :=
        segment_eq_ok_iff.2 ⟨r.words, hfields, rfl, rfl, hnonneg⟩
      exact ⟨_, follow_cons_eq_ok_iff.2 ⟨_, _, tail, hsegment, htail, rfl⟩⟩

theorem decode_ok_iff (hrs : readings? mappings = some rs) (hread : ∀ r ∈ rs, r.Short ∧ r.Lossless) :
    (∃ segments, decode mappings = .ok segments) ↔ ∀ p ∈ positions rs, p.InWords := by
  rw [positions_eq, decode_eq_follow]
  exact follow_ok_iff (tracks_nil exact_zero) (ordered_piecesFrom 0 _) (mapM_eq_some_iff.1 hrs) hread

/-- Positions that fit are decoded as they are. -/
theorem decode_of_fits (hrs : readings? mappings = some rs) (hread : ∀ r ∈ rs, r.Short ∧ r.Lossless)
    (hfits : ∀ p ∈ positions rs, p.Fits) : decode mappings = .ok ((positions rs).map Position.cut) := by
  obtain ⟨segments, hok⟩ := (decode_ok_iff hrs hread).2 fun p hp => (hfits p hp).inWords
  obtain ⟨rs', hrs', _, rfl⟩ := decode_sound hok
  obtain rfl := Option.some.inj (hrs.symm.trans hrs')
  exact hok

theorem forall₂_is_cut_iff {l : List Position} :
    List.Forall₂ Position.Is l (l.map Position.cut) ↔ ∀ p ∈ l, p.Fits := by
  rw [List.forall₂_map_right_iff, List.forall₂_same]
  simp only [Position.is_cut_iff]

/-- The string is refused, or each piece is read and a segment says its exact position. -/
def ExactOrRefused (mappings : String) : Prop :=
  (∃ fault, decode mappings = .error fault) ∨ ∃ rs segments, readings? mappings = some rs ∧
    decode mappings = .ok segments ∧ List.Forall₂ Position.Is (positions rs) segments

theorem exactOrRefused_iff : ExactOrRefused mappings ↔ ∀ rs segments,
    readings? mappings = some rs → decode mappings = .ok segments → ∀ p ∈ positions rs, p.Fits := by
  constructor
  · rintro (⟨fault, hfault⟩ | ⟨rs, segments, hrs, hok, his⟩) rs' segments' hrs' hok'
    · rw [hfault] at hok'
      cases hok'
    · obtain ⟨rs₀, hrs₀, _, rfl⟩ := decode_sound hok
      obtain rfl := Option.some.inj (hrs₀.symm.trans hrs)
      obtain rfl := Option.some.inj (hrs₀.symm.trans hrs')
      exact forall₂_is_cut_iff.1 his
  · intro h
    cases hok : decode mappings with
    | error fault => exact .inl ⟨fault, hok⟩
    | ok segments =>
      obtain ⟨rs, hrs, _, rfl⟩ := decode_sound hok
      exact .inr ⟨rs, _, hrs, hok, forall₂_is_cut_iff.2 (h rs _ hrs hok)⟩

/-- What is decoded is the exact positions cut to 32 bits. Without losses the only positions that are refused
are those out of words. So a string is exact or refused unless a position is decoded that does not fit. -/
theorem cut_of_pieces (mappings : String) :
    (∀ segments, decode mappings = .ok segments → ∃ rs, readings? mappings = some rs ∧
      (∀ r ∈ rs, r.groups ≠ [] ∧ r.Short) ∧ segments = (positions rs).map Position.cut) ∧
    (∀ rs, readings? mappings = some rs → (∀ r ∈ rs, r.Short ∧ r.Lossless) →
      ((∃ segments, decode mappings = .ok segments) ↔ ∀ p ∈ positions rs, p.InWords)) ∧
    (ExactOrRefused mappings ↔ ∀ rs segments, readings? mappings = some rs →
      decode mappings = .ok segments → ∀ p ∈ positions rs, p.Fits) :=
  ⟨fun _ => decode_sound, fun _ => decode_ok_iff, exactOrRefused_iff⟩

/-- Columns start over on the second line and the source does not; the last piece names none. -/
theorem cut_of_pieces_sample : ∃ rs, readings? "AAAA,GAAA;ACAA,U" = some rs ∧
    decode "AAAA,GAAA;ACAA,U" = .ok [⟨0, 0, some 0⟩, ⟨0, 3, some 0⟩, ⟨1, 0, some 1⟩, ⟨1, 10, none⟩] ∧
    positions rs = [⟨0, 0, some 0⟩, ⟨0, 3, some 0⟩, ⟨1, 0, some 1⟩, ⟨1, 10, none⟩] := by
  have hok : decode "AAAA,GAAA;ACAA,U" =
      .ok [⟨0, 0, some 0⟩, ⟨0, 3, some 0⟩, ⟨1, 0, some 1⟩, ⟨1, 10, none⟩] := by decide +kernel
  obtain ⟨rs, hrs, _⟩ := (cut_of_pieces _).1 _ hok
  refine ⟨rs, hrs, hok, ?_⟩
  have hpositions : (readings? "AAAA,GAAA;ACAA,U").map positions =
      some [⟨0, 0, some 0⟩, ⟨0, 3, some 0⟩, ⟨1, 0, some 1⟩, ⟨1, 10, none⟩] := by decide +kernel
  rw [hrs] at hpositions
  exact Option.some.inj hpositions

/-- A column of 2^32 comes back as 0. -/
theorem large_column_decoded : decode "ggggggI" = .ok [⟨0, 0, none⟩] ∧
    (readings? "ggggggI").map positions = some [⟨0, 4294967296, none⟩] := by decide +kernel

/-- A column of 2^63, with a digit that words have no place for, comes back as 0. -/
theorem lost_digit_decoded : decode "ggggggggggggQ" = .ok [⟨0, 0, none⟩] ∧
    (readings? "ggggggggggggQ").map positions = some [⟨0, 9223372036854775808, none⟩] := by
  decide +kernel

theorem not_exactOrRefused {n : Int} (h : decode mappings = .ok segments ∧
    (readings? mappings).map positions = some [⟨0, n, none⟩]) (hn : UInt32.size ≤ n) :
    ¬ ExactOrRefused mappings := by
  intro hexact
  obtain ⟨rs, hrs, hpositions⟩ := Option.map_eq_some_iff.1 h.2
  have hfits := exactOrRefused_iff.1 hexact rs segments hrs h.1 ⟨0, n, none⟩ (by simp [hpositions])
  have hcolumn : 0 ≤ n ∧ n < UInt32.size := hfits.column
  omega

/-- Both columns are decoded and neither fits. -/
theorem inexact_of_pieces :
    ¬ ExactOrRefused "ggggggI" ∧ ¬ ExactOrRefused "ggggggggggggQ" ∧
      ¬ ∀ mappings, ExactOrRefused mappings := by
  have hlarge := not_exactOrRefused large_column_decoded (by decide)
  have hlost := not_exactOrRefused lost_digit_decoded (by decide)
  exact ⟨hlarge, hlost, fun h => hlarge (h _)⟩

end Coverage.Mappings

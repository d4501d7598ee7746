import Coverage.Proofs.Script.Decoding

/-! Decoding works in words of 64 bits and may lose bits of a number. Its cursor still is the exact position
up to multiples of 2^32, so what is decoded is the exact position cut to 32 bits. -/
namespace Coverage.Mappings

variable {line prev : Nat} {piece : Text} {c d : Cursor} {fs : List Int} {ps : List (Nat × Text)}
  {mappings : String} {segments : List MappingSegment} {done rs : List Reading} {r : Reading}

section Words

/-- The fields of a piece in words. -/
def Reading.words (r : Reading) : List Int := r.groups.map fun g => fieldOf (amount g)

/-- No field has more digits than are taken. -/
def Reading.Short (r : Reading) : Prop := ∀ g ∈ r.groups, g.length ≤ 13

theorem length_words (r : Reading) : r.words.length = r.fields.length := by
  simp [Reading.words, Reading.fields]

theorem headD_eq_getD (l : List Int) : l.headD 0 = l.getD 0 0 := by cases l <;> rfl

/-- A piece can be read in words when it can be read at all and its fields are short. -/
theorem fields_eq_ok_iff_reading (line : Nat) : fields piece = .ok fs ↔
    ∃ r, reading? (line, piece) = some r ∧ r.Short ∧ fs = r.words := by
  rw [fields_eq_ok_iff]
  constructor
  · rintro ⟨ds, gs, hds, hgs, hshort, rfl⟩
    refine ⟨⟨line, gs⟩, ?_, hshort, rfl⟩
    rw [List.nil_append] at hgs
    simp [reading?, hds, hgs]
  · rintro ⟨r, hr, hshort, rfl⟩
    obtain ⟨gs, hgs, rfl⟩ := Option.map_eq_some_iff.1 hr
    obtain ⟨ds, hds, hgs⟩ := Option.bind_eq_some_iff.1 hgs
    exact ⟨ds, gs, hds, hgs, hshort, rfl⟩

theorem emod_word (n : Int) : word n % 2 ^ 64 = n % 2 ^ 64 := Int.bmod_emod

theorem word_modEq (n : Int) : word n ≡ n [ZMOD UInt32.size] := by
  have h := emod_word n
  have hsize : (UInt32.size : Int) = 2 ^ 32 := rfl
  rw [Int.ModEq, hsize]
  omega

/-- Words that lose bits of a field keep its lowest ones. -/
theorem fieldOf_modEq (n : Nat) : fieldOf n ≡ signed n [ZMOD UInt32.size] := by
  have h := emod_word n
  have hsize : (UInt32.size : Int) = 2 ^ 32 := rfl
  rw [Int.ModEq, hsize, fieldOf, signed]
  generalize word n = w at h
  split <;> omega

theorem getD_words_modEq (r : Reading) (i : Nat) :
    r.words.getD i 0 ≡ r.fields.getD i 0 [ZMOD UInt32.size] := by
  rw [Reading.words, Reading.fields, List.getD_eq_getElem?_getD, List.getD_eq_getElem?_getD,
    List.getElem?_map, List.getElem?_map]
  cases r.groups[i]? with
  | none => exact Int.ModEq.refl 0
  | some g => exact fieldOf_modEq (amount g)

end Words

section Tracking
variable {R : Int → Int → Prop}

/-- The cursor is related to the exact sums over the pieces that are done. -/
structure Tracks (R : Int → Int → Prop) (done : List Reading) (line : Nat) (c : Cursor) : Prop where
  lines : ∀ r ∈ done, r.line ≤ line
  column : R c.column (columnOf line done)
  source : R c.source (sourceOf done)

theorem tracks_nil (h : R 0 0) : Tracks R [] 0 ⟨0, 0⟩ := ⟨by simp, h, h⟩

theorem Tracks.on (ht : Tracks R done prev c) (h : R 0 0) (hle : prev ≤ line) :
    Tracks R done line (c.on prev line) := by
  refine ⟨fun r hr => Nat.le_trans (ht.lines r hr) hle, ?_, ?_⟩
  · rw [Cursor.on]
    split
    · next heq => exact heq ▸ ht.column
    · next hne =>
      rw [columnOf_eq_zero]
      · exact h
      · intro r hr
        have := ht.lines r hr
        omega
  · rw [Cursor.on]
    split
    · exact ht.source
    · exact ht.source

theorem Tracks.concat (ht : Tracks R done r.line c)
    (hcolumn : R d.column (columnOf r.line done + r.fields.headD 0))
    (hnamed : r.NamesSource → R d.source (sourceOf done + r.fields.getD 1 0))
    (hunnamed : ¬ r.NamesSource → d.source = c.source) : Tracks R (done ++ [r]) r.line d := by
  refine ⟨?_, ?_, ?_⟩
  · intro r' hr'
    rcases List.mem_append.1 hr' with hr' | hr'
    · exact ht.lines r' hr'
    · rw [List.mem_singleton.1 hr']
  · rw [columnOf_concat rfl]
    exact hcolumn
  · by_cases hr : r.NamesSource
    · rw [sourceOf_concat_of_named hr]
      exact hnamed hr
    · rw [sourceOf_concat_of_unnamed hr, hunnamed hr]
      exact ht.source

theorem source_after_of_named (c : Cursor) (h : r.NamesSource) :
    (c.after r.words).source = word (c.source + r.words.getD 1 0) := by
  rw [Cursor.after, length_words, if_pos]
  exact h

theorem source_after_of_unnamed (c : Cursor) (h : ¬ r.NamesSource) :
    (c.after r.words).source = c.source := by
  rw [Cursor.after, length_words, if_neg]
  exact h

/-- A piece keeps the relation exactly when both of its sums do. -/
theorem tracks_after_iff (ht : Tracks R done r.line c) :
    Tracks R (done ++ [r]) r.line (c.after r.words) ↔
      R (word (c.column + r.words.headD 0)) (columnOf r.line done + r.fields.headD 0) ∧
        (r.NamesSource →
          R (word (c.source + r.words.getD 1 0)) (sourceOf done + r.fields.getD 1 0)) := by
  constructor
  · intro hafter
    refine ⟨columnOf_concat (r := r) rfl ▸ hafter.column, ?_⟩
    intro hnamed
    rw [← source_after_of_named c hnamed, ← sourceOf_concat_of_named hnamed]
    exact hafter.source
  · rintro ⟨hcolumn, hsource⟩
    refine ht.concat hcolumn ?_ (source_after_of_unnamed c)
    intro hnamed
    rw [source_after_of_named c hnamed]
    exact hsource hnamed

/-- Up to multiples of 2^32 the cursor is never wrong. -/
theorem Tracks.after_modEq (ht : Tracks (· ≡ · [ZMOD UInt32.size]) done r.line c) :
    Tracks (· ≡ · [ZMOD UInt32.size]) (done ++ [r]) r.line (c.after r.words) := by
  refine (tracks_after_iff ht).2 ⟨?_, ?_⟩
  · rw [headD_eq_getD, headD_eq_getD]
    exact (word_modEq _).trans (ht.column.add (getD_words_modEq r 0))
  · intro _
    exact (word_modEq _).trans (ht.source.add (getD_words_modEq r 1))

/-- A segment is the exact position cut to 32 bits. -/
theorem segment_eq_cut (ht : Tracks (· ≡ · [ZMOD UInt32.size]) (done ++ [r]) r.line d) :
    d.segment r.line r.words = (positionOf (done ++ [r]) r).cut := by
  rw [Cursor.segment, Position.cut, positionOf, cut_congr ht.column, cut_congr ht.source, length_words]
  by_cases hr : r.NamesSource
  · rw [if_pos hr, if_pos (show 4 ≤ r.fields.length from hr)]
    rfl
  · rw [if_neg hr, if_neg (show ¬ 4 ≤ r.fields.length from hr)]
    rfl

end Tracking

/-- Whatever is decoded is the exact positions cut to 32 bits. -/
theorem follow_sound (ht : Tracks (· ≡ · [ZMOD UInt32.size]) done prev c) (hordered : Ordered prev ps)
    (h : follow prev c ps = .ok segments) : ∃ rs, Reads ps rs ∧ (∀ r ∈ rs, r.Short) ∧
      segments = (positionsFrom done rs).map Position.cut := by
  induction ps generalizing prev c done segments with
  | nil =>
    obtain rfl := Except.ok.inj h
    exact ⟨[], .nil, by simp, rfl⟩
  | cons p ps ih =>
    obtain ⟨line, piece⟩ := p
    obtain ⟨hle, hrest⟩ := ordered_cons hordered
    obtain ⟨s, d, tail, hsegment, hfollow, rfl⟩ := follow_cons_eq_ok_iff.1 h
    obtain ⟨fs, hfields, rfl, rfl, -, -⟩ := segment_eq_ok_iff.1 hsegment
    obtain ⟨r, hr, hshort, rfl⟩ := (fields_eq_ok_iff_reading line).1 hfields
    obtain rfl := line_of_reading? hr
    have hafter := (ht.on (Int.ModEq.refl 0) hle).after_modEq
    obtain ⟨rs, hrs, hrsShort, rfl⟩ := ih hafter hrest hfollow
    refine ⟨r :: rs, .cons hr hrs, ?_, ?_⟩
    · exact List.forall_mem_cons.2 ⟨hshort, hrsShort⟩
    · rw [positionsFrom, List.map_cons, segment_eq_cut hafter]

theorem decode_sound (h : decode mappings = .ok segments) : ∃ rs, readings? mappings = some rs ∧
    (∀ r ∈ rs, r.groups ≠ [] ∧ r.Short) ∧ segments = (positions rs).map Position.cut := by
  rw [decode_eq_follow] at h
  obtain ⟨rs, hrs, hshort, rfl⟩ :=
    follow_sound (tracks_nil (Int.ModEq.refl 0)) (ordered_piecesFrom 0 _) h
  have hne := hrs.groups_ne_nil fun p => ne_nil_of_mem_pieces
  exact ⟨rs, mapM_eq_some_iff.2 hrs, fun r hr => ⟨hne r hr, hshort r hr⟩, by rw [positions_eq]⟩

end Coverage.Mappings

import Coverage.Proofs.Script.Positions

/-! Decoding as one pass over the pieces of all lines, with a cursor that starts a new column on each
line. -/
namespace Coverage.Mappings

variable {n line prev : Nat} {piece : Text} {c d : Cursor} {fs : List Int} {s : MappingSegment}
  {ps rest : List (Nat × Text)} {segments : List MappingSegment}

/-- The cursor behind a piece with these fields. -/
def Cursor.after (c : Cursor) (fs : List Int) : Cursor :=
  ⟨word (c.column + fs.headD 0), if 4 ≤ fs.length then word (c.source + fs.getD 1 0) else c.source⟩

/-- The cursor as a segment of a piece with these fields. -/
def Cursor.segment (c : Cursor) (line : Nat) (fs : List Int) : MappingSegment :=
  ⟨UInt32.ofNat line, cut c.column, if 4 ≤ fs.length then some (cut c.source) else none⟩

/-- On a new line columns start over. -/
def Cursor.on (c : Cursor) (prev line : Nat) : Cursor :=
  if line = prev then c else { c with column := 0 }

theorem segment_of_fields (h : fields piece = .ok fs) : segment line piece c =
    if (c.after fs).column < 0 ∨ 4 ≤ fs.length ∧ (c.after fs).source < 0 then
      .error (.negativePosition (String.ofList piece))
    else .ok ((c.after fs).segment line fs, c.after fs) := by
  have hsource : (if decide (4 ≤ fs.length) = true then word (c.source + fs.getD 1 0) else c.source) =
      (c.after fs).source := by simp [Cursor.after]
  have hneg : (decide ((c.after fs).column < 0) ||
      decide (4 ≤ fs.length) && decide ((c.after fs).source < 0)) = true ↔
        (c.after fs).column < 0 ∨ 4 ≤ fs.length ∧ (c.after fs).source < 0 := by simp
  have hcolumn : word (c.column + fs.headD 0) = (c.after fs).column := rfl
  rw [segment, h]
  simp only [bind, Except.bind, hsource, hcolumn]
  split
  · next hor => rw [if_pos (hneg.1 hor)]; rfl
  · next hor =>
    rw [if_neg (mt hneg.2 hor)]
    simp [Cursor.segment, pure, Except.pure]

theorem segment_eq_ok_iff : segment line piece c = .ok (s, d) ↔
    ∃ fs, fields piece = .ok fs ∧ d = c.after fs ∧ s = d.segment line fs ∧ 0 ≤ d.column ∧
      (4 ≤ fs.length → 0 ≤ d.source) := by
  cases h : fields piece with
  | error e => simp [segment, h, bind, Except.bind]
  | ok fs =>
    rw [segment_of_fields h]
    constructor
    · intro hok
      split at hok
      · simp at hok
      · next hpos =>
        obtain ⟨rfl, rfl⟩ := Prod.mk.inj (Except.ok.inj hok)
        refine ⟨fs, rfl, rfl, rfl, by omega, fun hmapped => by omega⟩
    · rintro ⟨fs', hfs, rfl, rfl, hcolumn, hsource⟩
      obtain rfl := Except.ok.inj hfs
      rw [if_neg]
      rintro (hneg | ⟨hmapped, hneg⟩)
      · omega
      · have := hsource hmapped
        omega

/-- Decoding over the pieces of all lines in a row. -/
def follow : Nat → Cursor → List (Nat × Text) → Except MappingFault (List MappingSegment)
  | _, _, [] => .ok []
  | prev, c, (line, piece) :: rest => do
    let (s, c) ← segment line piece (c.on prev line)
    return s :: (← follow line c rest)

theorem follow_line (n : Nat) (l : List Text) (c : Cursor) (rest : List (Nat × Text)) :
    follow n c (l.map (n, ·) ++ rest) = do
      let (s, c) ← lineSegments n l c
      return s ++ (← follow n c rest) := by
  induction l generalizing c with
  | nil =>
    change follow n c rest = do return [] ++ (← follow n c rest)
    simp
  | cons piece l ih => simp [follow, lineSegments, Cursor.on, ih]

theorem piecesFrom_cons (n : Nat) (line : Text) (lines : List Text) :
    piecesFrom n (line :: lines) =
      ((Text.splitAt ',' line).filter (!·.isEmpty)).map (n, ·) ++ piecesFrom (n + 1) lines := by
  simp [piecesFrom, List.zipIdx_cons]

theorem follow_cons_on (prev line : Nat) (c : Cursor) (piece : Text) :
    follow prev c ((line, piece) :: rest) = follow line (c.on prev line) ((line, piece) :: rest) := by
  simp [follow, Cursor.on]

theorem linesSegments_eq_follow {lines : List Text}
    (h : ∀ m, n ≤ m → d.on prev m = { c with column := 0 }) :
    linesSegments n lines c = follow prev d (piecesFrom n lines) := by
  induction lines generalizing n prev c d with
  | nil => rfl
  | cons line lines ih =>
    rw [linesSegments, piecesFrom_cons]
    cases hl : (Text.splitAt ',' line).filter (!·.isEmpty) with
    | nil =>
      -- A line without pieces leaves the cursor alone.
      have hrest := ih (n := n + 1) (c := { c with column := 0 }) fun m hm => h m (by omega)
      simp only [lineSegments, bind, Except.bind, hrest, List.map_nil, List.nil_append]
      cases follow prev d (piecesFrom (n + 1) lines) <;> rfl
    | cons piece l =>
      rw [List.map_cons, List.cons_append, follow_cons_on, h n (Nat.le_refl n), ← List.cons_append,
        ← List.map_cons (f := (n, ·)), follow_line]
      cases lineSegments n (piece :: l) { c with column := 0 } with
      | error e => rfl
      | ok r =>
        have hrest : linesSegments (n + 1) lines r.2 = follow n r.2 (piecesFrom (n + 1) lines) :=
          ih fun m hm => by rw [Cursor.on, if_neg (by omega)]
        simp only [bind, Except.bind, hrest]

theorem decode_eq_follow (mappings : String) :
    decode mappings = follow 0 ⟨0, 0⟩ (pieces mappings) := by
  apply linesSegments_eq_follow
  intro m _
  rw [Cursor.on]
  split <;> rfl

theorem follow_cons_eq_ok_iff : follow prev c ((line, piece) :: rest) = .ok segments ↔
    ∃ s d tail, segment line piece (c.on prev line) = .ok (s, d) ∧ follow line d rest = .ok tail ∧
      segments = s :: tail := by
  rw [follow]
  cases segment line piece (c.on prev line) with
  | error e => simp [bind, Except.bind]
  | ok r =>
    obtain ⟨s, d⟩ := r
    cases hrest : follow line d rest with
    | error e =>
      simp only [bind, Except.bind, hrest, reduceCtorEq, false_iff]
      rintro ⟨s', d', tail, heq, htail, -⟩
      obtain ⟨rfl, rfl⟩ := Prod.mk.inj (Except.ok.inj heq)
      rw [hrest] at htail
      cases htail
    | ok tail =>
      simp only [bind, Except.bind, hrest, pure, Except.pure, Except.ok.injEq, Prod.mk.injEq]
      constructor
      · rintro rfl
        exact ⟨s, d, tail, ⟨rfl, rfl⟩, hrest, rfl⟩
      · rintro ⟨s', d', tail', ⟨rfl, rfl⟩, htail, rfl⟩
        rw [hrest] at htail
        rw [Except.ok.inj htail]

theorem ne_nil_of_mem_pieces {mappings : String} {p : Nat × Text} (h : p ∈ pieces mappings) :
    p.2 ≠ [] := by
  obtain ⟨_, _, hp⟩ := List.mem_flatMap.1 h
  obtain ⟨piece, hpiece, rfl⟩ := List.mem_map.1 hp
  simpa using (List.mem_filter.1 hpiece).2

/-- Pieces are in the order of their lines. -/
def Ordered (prev : Nat) (ps : List (Nat × Text)) : Prop :=
  (prev :: ps.map (·.1)).Pairwise (· ≤ ·)

theorem ordered_cons (h : Ordered prev ((line, piece) :: rest)) : prev ≤ line ∧ Ordered line rest := by
  obtain ⟨hprev, hrest⟩ := List.pairwise_cons.1 h
  exact ⟨hprev line List.mem_cons_self, hrest⟩

theorem le_of_mem_piecesFrom {lines : List Text} {p : Nat × Text} (h : p ∈ piecesFrom n lines) :
    n ≤ p.1 := by
  obtain ⟨⟨text, m⟩, hline, hp⟩ := List.mem_flatMap.1 h
  obtain ⟨piece, _, rfl⟩ := List.mem_map.1 hp
  exact List.le_snd_of_mem_zipIdx hline

theorem ordered_piecesFrom (n : Nat) (lines : List Text) : Ordered n (piecesFrom n lines) := by
  refine List.pairwise_cons.2 ⟨?_, ?_⟩
  · intro m hm
    obtain ⟨p, hp, rfl⟩ := List.mem_map.1 hm
    exact le_of_mem_piecesFrom hp
  · induction lines generalizing n with
    | nil => exact .nil
    | cons line lines ih =>
      rw [piecesFrom_cons, List.map_append, List.map_map, List.pairwise_append]
      refine ⟨?_, ih (n + 1), ?_⟩
      · exact List.pairwise_map.2 (List.pairwise_of_forall fun _ _ => Nat.le_refl n)
      · intro a ha b hb
        obtain ⟨_, _, rfl⟩ := List.mem_map.1 ha
        obtain ⟨p, hp, rfl⟩ := List.mem_map.1 hb
        have := le_of_mem_piecesFrom hp
        change n ≤ p.1
        omega

end Coverage.Mappings

import Coverage.Proofs.Script.Fields
import Mathlib.Data.Int.ModEq

/-! What a source map says of the generated code. Its pieces are read without bounds, and the position of a
piece sums the differences up to it: columns on its line only, sources from the start of the map. -/
namespace Coverage.Mappings

/-- The fields of a piece, by their digits, and the line on which the piece stands. -/
structure Reading where
  line : Nat
  groups : List (List Nat)
  deriving DecidableEq

def Reading.fields (r : Reading) : List Int := r.groups.map fun g => signed (amount g)

/-- Only a piece of four fields names a source. -/
def Reading.NamesSource (r : Reading) : Prop := 4 ≤ r.fields.length

instance (r : Reading) : Decidable r.NamesSource := inferInstanceAs (Decidable (4 ≤ r.fields.length))

/-- The pieces on lines that are counted from `n`. -/
def piecesFrom (n : Nat) (lines : List Text) : List (Nat × Text) :=
  (lines.zipIdx n).flatMap fun (line, n) =>
    ((Text.splitAt ',' line).filter (!·.isEmpty)).map (n, ·)

/-- The pieces between commas, each with its line between semicolons. -/
def pieces (mappings : String) : List (Nat × Text) :=
  piecesFrom 0 (Text.splitAt ';' mappings.toList)

def reading? (p : Nat × Text) : Option Reading := ((digits? p.2).bind groups?).map (⟨p.1, ·⟩)

def readings? (mappings : String) : Option (List Reading) := (pieces mappings).mapM reading?

section Reads
variable {line : Nat} {piece : Text} {ps : List (Nat × Text)} {rs : List Reading} {r : Reading}

theorem line_of_reading? (h : reading? (line, piece) = some r) : r.line = line := by
  obtain ⟨gs, _, rfl⟩ := Option.map_eq_some_iff.1 h
  rfl

/-- Pieces with what is read in each. -/
def Reads : List (Nat × Text) → List Reading → Prop := List.Forall₂ fun p r => reading? p = some r

/-- Pieces that are not empty have a field. -/
theorem Reads.groups_ne_nil (h : Reads ps rs) (hps : ∀ p ∈ ps, p.2 ≠ []) : ∀ r ∈ rs, r.groups ≠ [] := by
  induction h with
  | nil => simp
  | @cons p r ps rs hr hrs ih =>
    rw [List.forall_mem_cons] at hps ⊢
    refine ⟨?_, ih hps.2⟩
    obtain ⟨gs, hgs, rfl⟩ := Option.map_eq_some_iff.1 hr
    obtain ⟨ds, hds, hgs⟩ := Option.bind_eq_some_iff.1 hgs
    rintro rfl
    refine groups?_ne_nil ?_ hgs
    rintro rfl
    exact hps.1 (digits?_eq_nil_iff.1 hds)

end Reads

/-- The first fields of the pieces on a line together. -/
def columnOf (line : Nat) (read : List Reading) : Int :=
  ((read.filter (·.line == line)).map fun r => r.fields.headD 0).sum

/-- The second fields of the pieces that name a source together. -/
def sourceOf (read : List Reading) : Int :=
  ((read.filter fun r => r.NamesSource).map fun r => r.fields.getD 1 0).sum

structure Position where
  line : Nat
  column : Int
  source : Option Int
  deriving DecidableEq

/-- The position of a piece when it is the last one that was read. -/
def positionOf (read : List Reading) (r : Reading) : Position :=
  ⟨r.line, columnOf r.line read, if r.NamesSource then some (sourceOf read) else none⟩

/-- Each piece is read together with all pieces before it. -/
def positions (rs : List Reading) : List Position :=
  rs.mapIdx fun k r => positionOf (rs.take (k + 1)) r

namespace Position

/-- A segment that says just this. -/
structure Is (p : Position) (s : MappingSegment) : Prop where
  line : s.line.toNat = p.line
  column : (s.column.toNat : Int) = p.column
  source : s.source.map (fun n => (n.toNat : Int)) = p.source

/-- The position can be said in 32 bits. -/
structure Fits (p : Position) : Prop where
  line : p.line < UInt32.size
  column : 0 ≤ p.column ∧ p.column < UInt32.size
  source : ∀ n ∈ p.source, 0 ≤ n ∧ n < UInt32.size

/-- The segment that is left of the position in 32 bits. -/
def cut (p : Position) : MappingSegment :=
  ⟨UInt32.ofNat p.line, Mappings.cut p.column, p.source.map Mappings.cut⟩

end Position

theorem toNat_cut (n : Int) : ((cut n).toNat : Int) = n % UInt32.size := by
  have hsize : UInt32.size = 4294967296 := rfl
  have hlt : n % 0x100000000 < 0x100000000 := Int.emod_lt_of_pos n (by decide)
  have hpos : 0 ≤ n % 0x100000000 := Int.emod_nonneg n (by decide)
  rw [cut, UInt32.toNat_ofNat', hsize]
  omega

theorem toNat_cut_eq_iff {n : Int} : ((cut n).toNat : Int) = n ↔ 0 ≤ n ∧ n < UInt32.size := by
  have hsize : UInt32.size = 4294967296 := rfl
  rw [toNat_cut, hsize]
  omega

theorem cut_congr {a b : Int} (h : a ≡ b [ZMOD UInt32.size]) : cut a = cut b := by
  apply UInt32.toNat_inj.1
  apply Int.ofNat.inj
  change ((cut a).toNat : Int) = (cut b).toNat
  rw [toNat_cut, toNat_cut]
  exact h

/-- What is left says the position exactly when it fits. -/
theorem Position.is_cut_iff {p : Position} : p.Is p.cut ↔ p.Fits := by
  have hline : (UInt32.ofNat p.line).toNat = p.line ↔ p.line < UInt32.size := by
    rw [UInt32.toNat_ofNat']
    change _ % 2 ^ 32 = _ ↔ _ < 2 ^ 32
    omega
  have hsource : (p.source.map Mappings.cut).map (fun n => (n.toNat : Int)) = p.source ↔
      ∀ n ∈ p.source, 0 ≤ n ∧ n < UInt32.size := by
    cases p.source with
    | none => simp
    | some n => simpa using toNat_cut_eq_iff
  constructor
  · rintro ⟨hl, hc, hs⟩
    exact ⟨hline.1 hl, toNat_cut_eq_iff.1 hc, hsource.1 hs⟩
  · rintro ⟨hl, hc, hs⟩
    exact ⟨hline.2 hl, toNat_cut_eq_iff.2 hc, hsource.2 hs⟩

section Sums
variable {line : Nat} {done rs : List Reading} {r : Reading}

theorem columnOf_concat (h : r.line = line) :
    columnOf line (done ++ [r]) = columnOf line done + r.fields.headD 0 := by
  simp [columnOf, h]

theorem columnOf_eq_zero (h : ∀ r ∈ done, r.line ≠ line) : columnOf line done = 0 := by
  have hnil : done.filter (·.line == line) = [] := by
    apply List.filter_eq_nil_iff.2
    intro r hr heq
    exact h r hr (beq_iff_eq.1 heq)
  rw [columnOf, hnil]
  rfl

theorem sourceOf_concat_of_named (h : r.NamesSource) :
    sourceOf (done ++ [r]) = sourceOf done + r.fields.getD 1 0 := by
  simp [sourceOf, h]

theorem sourceOf_concat_of_unnamed (h : ¬ r.NamesSource) : sourceOf (done ++ [r]) = sourceOf done := by
  simp [sourceOf, h]

/-- The positions of pieces behind those that are done. -/
def positionsFrom (done : List Reading) : List Reading → List Position
  | [] => []
  | r :: rs => positionOf (done ++ [r]) r :: positionsFrom (done ++ [r]) rs

theorem positionsFrom_eq (done rs : List Reading) :
    positionsFrom done rs = rs.mapIdx fun k r => positionOf (done ++ rs.take (k + 1)) r := by
  induction rs generalizing done with
  | nil => rfl
  | cons r rs ih => simp [positionsFrom, List.mapIdx_cons, ih]

theorem positions_eq (rs : List Reading) : positions rs = positionsFrom [] rs := by
  rw [positionsFrom_eq]
  rfl

end Sums
end Coverage.Mappings

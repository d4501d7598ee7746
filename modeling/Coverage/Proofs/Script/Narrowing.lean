import Coverage.Conversion.Batch
import Coverage.Proofs.Script.Ranges
import Coverage.Proofs.Text.Lines
import Coverage.Syntax.Program
import Mathlib.Data.List.Forall2

/-! The ranges that a script is narrowed to. No span around a byte that the source map ascribes to the
user is skipped, and a script that cannot be narrowed is mapped as a whole. -/
namespace Coverage

/-- The segment ascribes a byte of the code to a source of the user's. -/
structure PositionMap.Ascribes (m : PositionMap) (code : Text) (s : MappingSegment) (n : Nat) :
    Prop where
  source : ∃ i name, s.source = some i ∧ m.sources[i.toNat]? = some name ∧ isVendor name = false
  place : ∃ start, code.StartsLine s.line.toNat start ∧ n = start + s.column.toNat
  inside : n < code.byteLength

theorem PositionMap.offset?_of_ascribes {m : PositionMap} {code : Text} {s : MappingSegment} {n : Nat}
    (h : m.Ascribes code s n) : m.offset? isVendor code.lineStarts s = some n := by
  obtain ⟨i, name, hi, hname, hvendor⟩ := h.source
  obtain ⟨start, hstart, rfl⟩ := h.place
  have hline : code.lineStarts[s.line.toNat]? = some start := Text.lineStart?_eq_some_iff.2 hstart
  simp [offset?, hi, hname, hvendor, hline]

namespace CodeRange
variable {code : Text} {m : PositionMap} {map : Option PositionMap} {o : RangeOptions}
  {segments : List MappingSegment} {s : MappingSegment} {n a b : Nat}

/-- Nothing says which parts of the code are the user's, or it is not worth asking. -/
def Unfiltered (code : Text) (map : Option PositionMap) (o : RangeOptions) : Prop :=
  code.byteLength ≤ o.minSize ∨ map = none ∨
    ∃ m fault, map = some m ∧ Mappings.decode m.mappings = .error fault

theorem ofScript_of_unfiltered (h : Unfiltered code map o) : ofScript code map o = [] := by
  rcases h with hsmall | rfl | ⟨m, fault, rfl, hfault⟩
  · cases map with
    | none => rfl
    | some m => simp [ofScript, hsmall]
  · rfl
  · simp [ofScript, PositionMap.userOffsets, hfault, Except.map]

theorem ofScript_of_segments (hlarge : o.minSize < code.byteLength)
    (h : Mappings.decode m.mappings = .ok segments) : ofScript code (some m) o =
      cover (segments.filterMap (m.offset? PositionMap.isVendor code.lineStarts))
        code.byteLength o := by
  simp [ofScript, PositionMap.userOffsets, h, Except.map, Nat.not_le.2 hlarge]

theorem within_ofScript : ∀ r ∈ ofScript code map o, Within code.byteLength r := by
  by_cases h : Unfiltered code map o
  · simp [ofScript_of_unfiltered h]
  · obtain ⟨hlarge, hmap, hdecode⟩ : o.minSize < code.byteLength ∧ map ≠ none ∧
        ¬ ∃ m fault, map = some m ∧ Mappings.decode m.mappings = .error fault := by
      simpa [Unfiltered] using h
    obtain ⟨m, rfl⟩ := Option.ne_none_iff_exists'.1 hmap
    cases hd : Mappings.decode m.mappings with
    | error fault => exact (hdecode ⟨m, fault, rfl, hd⟩).elim
    | ok segments =>
      rw [ofScript_of_segments hlarge hd]
      exact within_cover

theorem skips_ofScript_of_ascribes (hd : Mappings.decode m.mappings = .ok segments)
    (hs : s ∈ segments) (h : m.Ascribes code s n) (ha : a ≤ n) (hb : n < b) :
    skips (ofScript code (some m) o) a b = false := by
  by_cases hlarge : o.minSize < code.byteLength
  · rw [ofScript_of_segments hlarge hd]
    have hn : n ∈ segments.filterMap (m.offset? PositionMap.isVendor code.lineStarts) :=
      List.mem_filterMap.2 ⟨s, hs, PositionMap.offset?_of_ascribes h⟩
    exact skips_of_holds (holds_cover hn h.inside) ha hb
  · rw [ofScript_of_unfiltered (.inl (Nat.not_lt.1 hlarge))]
    rfl

end CodeRange

namespace Conversion
variable {maps : PositionMaps} {o : RangeOptions} {s : RawScript} {t : Task} {i : Input}

theorem skips_of_input? [Syntax.Parser] (h : t.input? = some i) (e : Syntax.Extent) :
    i.skips e = CodeRange.skips t.effectiveRanges e.start e.stop := by
  obtain ⟨outline, -, rfl⟩ := Option.map_eq_some_iff.1 h
  rfl

/-- The task of a script, with ranges that hide nothing of the user's. -/
structure Narrowed [Syntax.Parser] (maps : PositionMaps) (o : RangeOptions) (s : RawScript) (t : Task) : Prop where
  url : t.url = s.url
  code : s.code = some t.code
  /-- The mapper skips by the ranges of the task. -/
  skips : ∀ i, t.input? = some i → ∀ e, i.skips e = CodeRange.skips t.effectiveRanges e.start e.stop
  within : ∀ r ∈ t.effectiveRanges, r.Within (Text.byteLength t.code.toList)
  spared : ∀ m segments segment n, maps s = some m → Mappings.decode m.mappings = .ok segments →
    segment ∈ segments → m.Ascribes t.code.toList segment n → ∀ a b, a ≤ n → n < b →
      CodeRange.skips t.effectiveRanges a b = false
  whole : CodeRange.Unfiltered t.code.toList (maps s) o →
    ∀ a b, CodeRange.skips t.effectiveRanges a b = false

theorem narrowed_of_ofScript? [Syntax.Parser] (h : Task.ofScript? maps o s = some t) : Narrowed maps o s t := by
  obtain ⟨code, hcode, rfl⟩ := Option.map_eq_some_iff.1 h
  have hranges : Task.effectiveRanges
      { url := s.url, code, map := maps s, functions := s.functions
        ranges := CodeRange.ofScript code.toList (maps s) o } =
      CodeRange.ofScript code.toList (maps s) o := by
    simp only [Task.effectiveRanges]
    split
    · next hempty => simpa using (List.isEmpty_iff.1 hempty).symm
    · rfl
  refine
    { url := rfl
      code := (Option.filter_eq_some_iff.1 hcode).1
      skips := fun _ => skips_of_input?
      within := ?_
      spared := ?_
      whole := ?_ }
  · rw [hranges]
    exact CodeRange.within_ofScript
  · intro m segments segment n hm hd hs hn a b ha hb
    rw [hranges, hm]
    exact CodeRange.skips_ofScript_of_ascribes hd hs hn ha hb
  · intro hun a b
    rw [hranges, CodeRange.ofScript_of_unfiltered hun]
    rfl

theorem forall₂_filterMap {α β : Type} {R : α → β → Prop} {f : α → Option β}
    (h : ∀ a b, f a = some b → R a b) (l : List α) :
    List.Forall₂ R (l.filter fun a => (f a).isSome) (l.filterMap f) := by
  induction l with
  | nil => exact .nil
  | cons a l ih =>
    cases ha : f a with
    | none => simpa [ha] using ih
    | some b => simpa [ha] using ⟨h a b ha, ih⟩

/-- Every script that can be used has a task, in the order of the scripts, whose ranges hide nothing of
the user's. -/
theorem narrowed_of_scripts [Syntax.Parser] (maps : PositionMaps) (o : RangeOptions) (scripts : List RawScript) :
    List.Forall₂ (Narrowed maps o) (scripts.filter (·.usable?.isSome))
      (Batch.tasks maps o scripts) := by
  have husable : (fun s : RawScript => s.usable?.isSome) =
      fun s => (Task.ofScript? maps o s).isSome := by
    funext s
    rw [Task.ofScript?, Option.isSome_map]
  rw [husable]
  exact forall₂_filterMap (fun _ _ => narrowed_of_ofScript?) scripts

/-- The second line of the script comes from the user, the two around it from a package. -/
def bundle : RawScript := ⟨"/b.js", some "a();\nb();\na();", []⟩

def bundleMap : PositionMap := ⟨["node_modules/a.js", "src/b.js"], none, "AAAA;ACAA;ADAA", []⟩

/-- Ranges for scripts of any size, without room around them. -/
def tight : RangeOptions := ⟨1, 0, 0, 0⟩

theorem narrowed_of_scripts_sample :
    List.Forall₂ (Narrowed (fun _ => some bundleMap) tight) ([bundle].filter (·.usable?.isSome))
      (Batch.tasks (fun _ => some bundleMap) tight [bundle]) ∧
    Mappings.decode bundleMap.mappings = .ok [⟨0, 0, some 0⟩, ⟨1, 0, some 1⟩, ⟨2, 0, some 0⟩] ∧
    bundleMap.Ascribes "a();\nb();\na();".toList ⟨1, 0, some 1⟩ 5 ∧
    (Batch.tasks (fun _ => some bundleMap) tight [bundle]).map (fun t =>
      [(0, 4), (0, 14), (5, 9), (10, 14)].map fun e => CodeRange.skips t.effectiveRanges e.1 e.2) =
        [[true, false, false, true]] := by
  refine ⟨narrowed_of_scripts _ tight [bundle], by decide +kernel, ?_, by decide +kernel⟩
  exact
    { source := ⟨1, "src/b.js", rfl, rfl, by decide +kernel⟩
      place := ⟨5, .behind "a();".toList "b();\na();".toList (by decide), rfl⟩
      inside := by decide }

end Conversion
end Coverage

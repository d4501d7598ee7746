import Coverage.Proofs.Fixups.Removal
import Coverage.Proofs.Invariants.Writable
import Coverage.Proofs.Text.Locations
import Coverage.Syntax.Program

/-! Branches of logical expressions that stay. A span is read twice, once by bytes and once by whole lines,
and an operator that the first reading finds is on one of the lines of the second. -/
namespace Coverage

namespace Syntax

/-- What a parser is relied on for: that an operator stands inside its expression, and that its places are
words of 32 bits. -/
def Mark.Placed : Mark → Prop
  | .binary e _ operator _ => e.start ≤ operator.start ∧ operator.stop ≤ e.stop ∧ e.stop < UInt32.size
  | _ => True

instance : ∀ m : Mark, Decidable m.Placed
  | .binary _ _ _ _ => inferInstanceAs (Decidable (_ ∧ _))
  | .statement _ | .choice _ _ _ | .conditional _ _ _ => .isTrue trivial

end Syntax

namespace Passes
open Text

variable {f g : FileCoverage} {t a b w x : Text} {id : Id} {r : BranchSite} {s : Span} {e operator : Syntax.Extent}

theorem logicalOperators_eq : logicalOperators = ["&&", "||", "??"].map String.toList := by decide

/-- What makes a logical expression: one of the operators, on one line. -/
structure Operator (w : Text) : Prop where
  listed : w ∈ logicalOperators
  size : 0 < byteLength w
  newline : '\n' ∉ w
  carriage : '\r' ∉ w

theorem operator_of_mem (h : w ∈ logicalOperators) : Operator w := by
  have hall : ∀ w ∈ logicalOperators, 0 < byteLength w ∧ '\n' ∉ w ∧ '\r' ∉ w := by decide
  obtain ⟨hsize, hnewline, hreturn⟩ := hall w h
  exact ⟨h, hsize, hnewline, hreturn⟩

/-- A line of the span on which one of the operators stands. -/
def OperatorOn (t : Text) (s : Span) : Prop :=
  ∃ n l w, OnSpan s n ∧ t.line? n = some l ∧ w ∈ logicalOperators ∧ w <:+: l

/-- The span has the lines from that of its start to that of its stop. -/
theorem operatorOn_of_cut (h : t = a ++ w ++ b) (hw : Operator w)
    (hstart : s.start.line.toNat ≤ a.count '\n' + 1) (hstop : a.count '\n' + 1 ≤ s.stop.line.toNat) :
    OperatorOn t s := by
  have hlt := s.stop.line.toNat_lt
  have hn : (UInt32.ofNat (a.count '\n' + 1)).toNat = a.count '\n' + 1 := by
    rw [UInt32.toNat_ofNat', Nat.mod_eq_of_lt (by omega)]
  obtain ⟨l, hl, hin⟩ := exists_line?_of_cut h hw.newline hw.carriage hn
  refine ⟨_, l, w, ⟨?_, .inr ?_⟩, hl, hw.listed, hin⟩
  · rwa [UInt32.le_iff_toNat_le, hn]
  · rwa [UInt32.le_iff_toNat_le, hn]

/-- The stop of a span may be missing, which is read as the end of the text, but not be line zero. -/
theorem operatorOn_of_sliceSpan? (hline : 1 ≤ s.stop.line) (hx : t.sliceSpan? s = some x)
    (hw : Operator w) (hin : w <:+: x) : OperatorOn t s := by
  obtain ⟨a, b, ht, hstart, hlen⟩ := sliceSpan?_eq_some_iff.1 hx
  obtain ⟨u, v, rfl⟩ := hin
  have hcut : t = a ++ u ++ w ++ (v ++ b) := by simpa using ht
  have hsize := hw.size
  have hau : a ++ u <+: t := ⟨w ++ (v ++ b), by rw [hcut, List.append_assoc (a ++ u)]⟩
  have hauw : byteLength (a ++ u) ≤ (t.offset? s.stop).getD t.byteLength := by
    simp only [byteLength_append] at hlen ⊢
    omega
  refine operatorOn_of_cut hcut hw (line_le_of_offset? hstart hau ?_) ?_
  · rw [byteLength_append]
    exact Nat.le_add_right _ _
  · cases hstop : t.offset? s.stop with
    | some n =>
      rw [hstop, Option.getD_some] at hauw
      exact le_line_of_offset? hstop hau hauw
    | none =>
      rcases line?_eq_none_iff.1 (offset?_eq_none_iff.1 hstop) with hzero | hbeyond
      · rw [hzero] at hline
        exact absurd hline (by decide)
      · have := count_le_of_prefix hau
        omega

theorem isLogical_iff : Backfill.isLogical t operator = true ↔
    ∃ w ∈ logicalOperators, t.slice? operator.start operator.stop = some w := by
  rw [Backfill.isLogical]
  cases t.slice? operator.start operator.stop with
  | none => simp
  | some w => simp

/-- A generated span runs over the lines of its bytes, and so over that of the operator between them. -/
theorem operatorOn_spanOf (h : Backfill.isLogical t operator = true) (hstart : e.start ≤ operator.start)
    (hstop : operator.stop ≤ e.stop) (hword : e.stop < UInt32.size) :
    OperatorOn t (Backfill.spanOf t.lineStarts e) := by
  obtain ⟨w, hw, hslice⟩ := isLogical_iff.1 h
  have hw := operator_of_mem hw
  obtain ⟨a, b, hcut, ha, hlen⟩ := slice?_eq_some_iff.1 hslice
  have hline : (t.lineStarts.takeWhile (· ≤ byteLength a)).length = a.count '\n' + 1 :=
    length_takeWhile_of_cut (b := w ++ b) (by rw [hcut, List.append_assoc])
  -- the operator has bytes and no newline, so the number of the last line is a word as the last byte is
  have hlast : (t.lineStarts.takeWhile (· ≤ e.stop)).length < UInt32.size := by
    have hle := length_takeWhile_lineStarts_le hcut hw.newline e.stop
    have hcount := count_le_byteLength '\n' a
    have hsize := hw.size
    rw [byteLength_append] at hle
    omega
  refine operatorOn_of_cut hcut hw ?_ ?_
  · rw [← hline, Backfill.spanOf, toNat_line_locationOf]
    exact (Nat.mod_le _ _).trans (length_takeWhile_le_of_le _ (by omega))
  · rw [← hline, Backfill.spanOf, toNat_line_locationOf, Nat.mod_eq_of_lt hlast]
    exact length_takeWhile_le_of_le _ (by omega)

/-- A branch that is there after the spurious ones are gone, with its counts. -/
structure Spared (f : FileCoverage) (t : Text) (id : Id) (r : BranchSite) : Prop where
  record : (eraseSpuriousBranches f t).branches.records.get? id = some r
  hits : (eraseSpuriousBranches f t).branches.hits.get? id = f.branches.hits.get? id

theorem spared_iff (hr : f.branches.records.get? id = some r) : Spared f t id r ↔ ¬Spurious t r := by
  have herased : id ∈ spuriousBranches f t ↔ Spurious t r := by
    rw [mem_spuriousBranches, hr]
    simp
  rw [← herased]
  constructor
  · intro h hid
    have hnone := h.record
    rw [eraseSpuriousBranches, FileCoverage.eraseBranches, Table.get?_records_eraseAll, if_pos hid] at hnone
    cases hnone
  · intro hid
    refine ⟨?_, ?_⟩
    · rw [eraseSpuriousBranches, FileCoverage.eraseBranches, Table.get?_records_eraseAll, if_neg hid, hr]
    · rw [eraseSpuriousBranches, FileCoverage.eraseBranches, Table.get?_hits_eraseAll, if_neg hid]

theorem not_spurious_of_operatorOn (h : OperatorOn t r.span) : ¬Spurious t r := by
  obtain ⟨n, l, w, hn, hl, hw, hin⟩ := h
  rw [logicalOperators_eq] at hw
  obtain ⟨s, hs, rfl⟩ := List.mem_map.1 hw
  exact fun h => h.bare n l hn hl s hs hin

end Passes

namespace Backfill
open Passes Syntax

variable {f g : FileCoverage} {t : Text} {id : Id} {r : BranchSite} {n : Nat} {marks : List Mark}

theorem operatorOn_of_branch? {m : Mark} (hm : m.Placed) (h : branch? t t.lineStarts m = some r)
    (hkind : r.kind = .logical) : OperatorOn t r.span := by
  cases m with
  | statement e => simp [branch?] at h
  | choice e consequence alternative =>
    obtain rfl := Option.some.inj h
    cases hkind
  | conditional e consequence alternative =>
    obtain rfl := Option.some.inj h
    cases hkind
  | binary e left operator right =>
    obtain ⟨hstart, hstop, hword⟩ := hm
    rw [branch?] at h
    split at h
    · next hlogical =>
      obtain rfl := Option.some.inj h
      exact operatorOn_spanOf hlogical hstart hstop hword
    · cases h

/-- The branches that a text adds to a file are no spurious ones of this text. -/
theorem not_spurious_of_fill (hmarks : ∀ m ∈ marks, m.Placed)
    (hr : (fill f t marks).1.branches.records.get? id = some r)
    (hnew : f.branches.records.get? id = none) : ¬Spurious t r := by
  intro hspurious
  refine not_spurious_of_operatorOn ?_ hspurious
  rcases Table.of_get?_records_addAll hr with hold | ⟨e, he, rfl⟩
  · rw [hnew] at hold
    cases hold
  · obtain ⟨b, hb, rfl⟩ := List.mem_map.1 he
    split at hb
    · obtain ⟨m, hmem, hm⟩ := List.mem_filterMap.1 hb
      exact operatorOn_of_branch? (hmarks m hmem) hm hspurious.kind
    · cases hb

end Backfill

namespace Passes
variable {f : FileCoverage} {t : Text} {id : Id} {r : BranchSite}

/-- What a branch is kept for: that an operator is in the text under its span, which does not stop on line
zero, that it is not of a logical expression, or that the text has none of its lines. -/
inductive Founded (t : Text) (r : BranchSite) : Prop
  | operator {x : Text} {w : String} (hstop : 1 ≤ r.span.stop.line) (hx : t.sliceSpan? r.span = some x)
      (hw : w ∈ ["&&", "||", "??"]) (hin : w.toList <:+: x)
  | kind (hkind : r.kind ≠ .logical)
  | outside (hlines : ∀ n, OnSpan r.span n → t.line? n = none)

theorem Founded.not_spurious (h : Founded t r) : ¬Spurious t r := by
  cases h with
  | operator hstop hx hw hin =>
    have hw := operator_of_mem (logicalOperators_eq ▸ List.mem_map_of_mem hw)
    exact not_spurious_of_operatorOn (operatorOn_of_sliceSpan? hstop hx hw hin)
  | kind hkind => exact fun h => hkind h.kind
  | outside hlines =>
    intro h
    obtain ⟨n, l, hn, hl⟩ := h.present
    rw [hlines n hn] at hl
    cases hl

/-- No branch is taken away that has an operator in the text under its span, that is not of a logical
expression or that is outside the text, and none that was generated from what a parser gave for the text. -/
theorem spared_of_founded :
    (∀ f t id r, f.branches.records.get? id = some r → Founded t r → Spared f t id r) ∧
    ∀ [Syntax.Parser], ∀ f t g n,
      (∀ o, Syntax.Parser.outline? (.ofPath f.path) t = some o → ∀ m ∈ o.marks, m.Placed) →
      Backfill.apply f t = .ok (g, n) → ∀ id r, g.branches.records.get? id = some r →
      f.branches.records.get? id = none → Spared g t id r := by
  constructor
  · intro f t id r hr h
    exact (spared_iff hr).2 h.not_spurious
  · intro _ f t g n hmarks happly id r hr hnew
    rw [Backfill.apply] at happly
    split at happly
    · cases happly
    · next o ho =>
      obtain rfl : (Backfill.fill f t o.marks).1 = g := congrArg Prod.fst (Except.ok.inj happly)
      exact (spared_iff hr).2 (Backfill.not_spurious_of_fill (hmarks o ho) hr hnew)

/-- An expression on two lines. -/
def sampleText : Text := "é\r\n|| b;\r\n".toList

def sampleOutline : Syntax.Outline :=
  ⟨[⟨0, 9⟩], [.statement ⟨0, 9⟩, .binary ⟨0, 8⟩ ⟨0, 2⟩ ⟨4, 6⟩ ⟨7, 8⟩]⟩

def generatedBranch : BranchSite :=
  ⟨.ofNumbers 1 0 2 4, .logical, [.ofNumbers 1 0 1 2, .ofNumbers 2 3 2 4], 1⟩

/-- The same from behind the end of its first line up to a line behind the text. -/
def widenedBranch : BranchSite := { generatedBranch with span := .ofNumbers 1 9 7 2 }

def unbranchedFile : FileCoverage where
  path := "/a.js"
  statements := ∅
  functions := ⟨.ofList [(0, ⟨"load", .ofNumbers 1 0 1 5, .ofNumbers 1 6 1 9, 1⟩)], .ofList [(0, 4)]⟩
  branches := ∅

def branchedFile : FileCoverage :=
  { unbranchedFile with branches := ⟨.ofList [(4, widenedBranch)], .ofList [(4, [1, 0])]⟩ }

theorem spared_of_founded_sample :
    Founded sampleText widenedBranch ∧ Spared branchedFile sampleText 4 widenedBranch ∧
    Syntax.Parser.outline? (.ofPath unbranchedFile.path) sampleText = some sampleOutline ∧
    (∀ m ∈ sampleOutline.marks, m.Placed) ∧
    ∃ g, Backfill.apply unbranchedFile sampleText = .ok (g, 2) ∧
      g.branches.records.get? 0 = some generatedBranch ∧ Spared g sampleText 0 generatedBranch := by
  have hfounded : Founded sampleText widenedBranch := by
    refine .operator (x := "\r\n|| b;\r\n".toList) (w := "||") ?_ ?_ ?_ ?_
    · decide
    · decide +kernel
    · decide
    · exact ⟨['\r', '\n'], " b;\r\n".toList, rfl⟩
  have houtline : Syntax.Parser.outline? (.ofPath unbranchedFile.path) sampleText = some sampleOutline := by
    decide +kernel
  have hplaced : ∀ m ∈ sampleOutline.marks, m.Placed := by decide
  have happly : Backfill.apply unbranchedFile sampleText =
      .ok (Backfill.fill unbranchedFile sampleText sampleOutline.marks) := by
    rw [Backfill.apply, houtline]
  refine ⟨hfounded, spared_of_founded.1 _ _ _ _ (by decide) hfounded, houtline, hplaced, _, happly, ?_, ?_⟩
  · decide +kernel
  · refine spared_of_founded.2 _ _ _ _ (fun o ho => ?_) happly _ _ (by decide +kernel) (by decide)
    rw [houtline] at ho
    exact Option.some.inj ho ▸ hplaced

end Passes
end Coverage

import Coverage.Fixups
import Coverage.Proofs.Fixups.Passes

/-! One file on its way through the passes. It comes out valid or stays as it was, and a valid file fails
only if its structure is to be rebuilt from a text that has a syntax error. -/
namespace Coverage

namespace Table
variable {ρ η : Type} {t : Table ρ η}

theorem counted_add (h : t.Counted) (r : ρ) (n : η) : (t.add r n).Counted := by
  intro id hid
  rw [ids, add, SortedMap.mem_keys_iff, SortedMap.get?_insert] at hid
  rw [add, SortedMap.get?_insert]
  by_cases he : t.nextId = id
  · simp [he]
  · rw [if_neg he] at hid ⊢
    exact h id (SortedMap.mem_keys_iff.2 hid)

theorem counted_addAll (h : t.Counted) (l : List (ρ × η)) : (t.addAll l).Counted := by
  rw [addAll]
  induction l generalizing t with
  | nil => exact h
  | cons e l ih => exact ih (counted_add h e.1 e.2)

end Table

namespace FileCoverage
variable {f : FileCoverage} {t : Table BranchSite (List Hits)}

theorem armsCounted_add (h : ArmsCounted t) {b : BranchSite} {counts : List Hits}
    (hlen : counts.length = b.arms.length) : ArmsCounted (t.add b counts) := by
  intro id b' hb
  rw [Table.add, SortedMap.get?_insert] at hb
  rw [Table.add, SortedMap.get?_insert]
  by_cases he : t.nextId = id
  · rw [if_pos he] at hb ⊢
    obtain rfl : b = b' := Option.some.inj hb
    exact ⟨counts, rfl, hlen⟩
  · rw [if_neg he] at hb ⊢
    exact h id b' hb

theorem armsCounted_addAll (h : ArmsCounted t) {l : List (BranchSite × List Hits)}
    (hlen : ∀ e ∈ l, e.2.length = e.1.arms.length) : ArmsCounted (t.addAll l) := by
  rw [Table.addAll]
  induction l generalizing t with
  | nil => exact h
  | cons e l ih =>
    exact ih (armsCounted_add h (hlen e List.mem_cons_self))
      fun e he => hlen e (List.mem_cons_of_mem _ he)

theorem valid_reconcileStatements (h : f.Valid) : (Passes.reconcileStatements f).Valid := by
  obtain ⟨hs, hf, hb⟩ := valid_iff.1 h
  refine valid_iff.2 ⟨fun id hid => ?_, hf, hb⟩
  rw [Passes.get?_hits_reconcileStatements, Option.isSome_map]
  exact hs id hid

theorem valid_fill (h : f.Valid) (t : Text) (marks : List Syntax.Mark) :
    (Backfill.fill f t marks).1.Valid := by
  obtain ⟨hs, hf, hb⟩ := valid_iff.1 h
  refine valid_iff.2 ⟨Table.counted_addAll hs _, hf, armsCounted_addAll hb ?_⟩
  intro e he
  obtain ⟨b, _, rfl⟩ := List.mem_map.1 he
  exact List.length_map _

end FileCoverage

namespace Fixups
variable {f : FileCoverage} {source : Option String} {backfill : Bool} {x y : Fixed}

theorem validate_eq_ok_iff : f.validate = .ok () ↔ f.Valid := by
  rw [FileCoverage.validate, FileCoverage.Valid]
  cases f.defect? <;> simp

/-- The file behind the passes that erase records and reconcile counts. -/
def cleaned (source : Option String) (f : FileCoverage) : Fixed :=
  match source with
  | some s => textual s.toList (structural f)
  | none => structural f

theorem path_cleaned (source : Option String) (f : FileCoverage) : (cleaned source f).1.path = f.path := by
  cases source <;> rfl

theorem failedFiles_cleaned : (cleaned source f).2.failedFiles = 0 := by
  cases source <;> rfl

theorem valid_cleaned (h : f.Valid) : (cleaned source f).1.Valid := by
  have hstructural : (structural f).1.Valid := FileCoverage.valid_eraseFunctions
    (FileCoverage.valid_reconcileStatements (FileCoverage.valid_eraseBranches h))
  cases source with
  | none => exact hstructural
  | some s =>
    exact FileCoverage.valid_eraseBranches (FileCoverage.valid_eraseFunctions hstructural)

variable [Syntax.Parser]

/-- Structure is rebuilt last, if that is wanted and there is a text. -/
def rebuilt (backfill : Bool) (source : Option String) (x : Fixed) : Except Failure Fixed :=
  match source with
  | some s => if backfill then backfilled s.toList x else .ok x
  | none => .ok x

theorem rebuilt_without_backfill : rebuilt false source x = .ok x := by
  cases source <;> rfl

theorem backfilled_cases (t : Text) (x : Fixed) :
    (Backfill.isNeeded x.1 = false ∧ backfilled t x = .ok x) ∨
    (Backfill.isNeeded x.1 = true ∧ Syntax.Parser.outline? (.ofPath x.1.path) t = none ∧
      backfilled t x = .error .syntaxError) ∨
    ∃ o, Backfill.isNeeded x.1 = true ∧ Syntax.Parser.outline? (.ofPath x.1.path) t = some o ∧
      backfilled t x = .ok ((Backfill.fill x.1 t o.marks).1,
        x.2.add { backfilledRecords := (Backfill.fill x.1 t o.marks).2 }) := by
  rw [backfilled, Backfill.apply]
  cases hn : Backfill.isNeeded x.1 with
  | false => exact .inl ⟨rfl, rfl⟩
  | true =>
    cases ho : Syntax.Parser.outline? (.ofPath x.1.path) t with
    | none => exact .inr (.inl ⟨rfl, rfl, rfl⟩)
    | some o => exact .inr (.inr ⟨o, rfl, rfl, rfl⟩)

/-- Nothing but a syntax error keeps structure from being rebuilt. -/
theorem rebuilt_eq_error_iff : (∃ e, rebuilt backfill source x = .error e) ↔
    backfill = true ∧ ∃ s, source = some s ∧ Backfill.isNeeded x.1 = true ∧
      Syntax.Parser.outline? (.ofPath x.1.path) s.toList = none := by
  cases source with
  | none => simp [rebuilt]
  | some s =>
    cases backfill with
    | false => simp [rebuilt]
    | true =>
      simp only [rebuilt, if_true, true_and, Option.some.injEq, exists_eq_left']
      rcases backfilled_cases s.toList x with ⟨hn, he⟩ | ⟨hn, ho, he⟩ | ⟨o, hn, ho, he⟩
      · simp [hn, he]
      · simp [hn, ho, he]
      · simp [hn, ho, he]

theorem of_rebuilt (h : rebuilt backfill source x = .ok y) :
    (x.1.Valid → y.1.Valid) ∧ y.2.failedFiles = x.2.failedFiles := by
  cases source with
  | none =>
    obtain rfl := Except.ok.inj h
    exact ⟨id, rfl⟩
  | some s =>
    cases backfill with
    | false =>
      obtain rfl := Except.ok.inj h
      exact ⟨id, rfl⟩
    | true =>
      have h : backfilled s.toList x = .ok y := h
      rcases backfilled_cases s.toList x with ⟨_, he⟩ | ⟨_, _, he⟩ | ⟨o, _, _, he⟩
      · rw [he] at h
        obtain rfl := Except.ok.inj h
        exact ⟨id, rfl⟩
      · simp [he] at h
      · rw [he] at h
        obtain rfl := Except.ok.inj h
        exact ⟨fun hx => FileCoverage.valid_fill hx _ _, rfl⟩

theorem file_eq : file backfill source f =
    (rebuilt backfill source (cleaned source f)).bind fun x => x.1.validate.map fun _ => x := by
  cases source with
  | none => rfl
  | some s => cases backfill <;> rfl

theorem file_of_rebuilt (h : rebuilt backfill source (cleaned source f) = .ok x) (hx : x.1.Valid) :
    file backfill source f = .ok x := by
  rw [file_eq, h, Except.bind, validate_eq_ok_iff.2 hx]
  rfl

theorem exists_error_of_rebuilt
    (h : ∀ x, rebuilt backfill source (cleaned source f) = .ok x → ¬ x.1.Valid) :
    ∃ e, file backfill source f = .error e := by
  rw [file_eq]
  cases hr : rebuilt backfill source (cleaned source f) with
  | error e => exact ⟨e, rfl⟩
  | ok x =>
    have hx := h x hr
    cases hv : x.1.validate with
    | ok => exact (hx (validate_eq_ok_iff.1 hv)).elim
    | error e => exact ⟨e, by simp [Except.bind, hv, Except.map]⟩

/-- A file comes out valid, or it is as it was and nothing is reported but that it failed. -/
theorem fileOrSame_cases (backfill : Bool) (source : Option String) (f : FileCoverage) :
    (∃ x, rebuilt backfill source (cleaned source f) = .ok x ∧ x.1.Valid ∧
      x.2.failedFiles = 0 ∧ fileOrSame backfill source f = x) ∨
    ((∀ x, rebuilt backfill source (cleaned source f) = .ok x → ¬ x.1.Valid) ∧
      fileOrSame backfill source f = (f, { failedFiles := 1 })) := by
  by_cases h : ∃ x, rebuilt backfill source (cleaned source f) = .ok x ∧ x.1.Valid
  · obtain ⟨x, hx, hv⟩ := h
    refine .inl ⟨x, hx, hv, (of_rebuilt hx).2.trans failedFiles_cleaned, ?_⟩
    rw [fileOrSame, file_of_rebuilt hx hv]
  · have hno : ∀ x, rebuilt backfill source (cleaned source f) = .ok x → ¬ x.1.Valid :=
      fun x hx hv => h ⟨x, hx, hv⟩
    obtain ⟨e, he⟩ := exists_error_of_rebuilt hno
    refine .inr ⟨hno, ?_⟩
    rw [fileOrSame, he]

theorem fileOrSame_without_backfill (source : Option String) (f : FileCoverage) :
    fileOrSame false source f =
      if (cleaned source f).1.Valid then cleaned source f else (f, { failedFiles := 1 }) := by
  rcases fileOrSame_cases false source f with ⟨x, hx, hv, _, he⟩ | ⟨hno, he⟩
  · obtain rfl : cleaned source f = x := by simpa [rebuilt_without_backfill] using hx
    rw [he, if_pos hv]
  · rw [he, if_neg (hno _ rebuilt_without_backfill)]

/-- Only a syntax error in a text that structure is to be rebuilt from fails a valid file. -/
theorem failed_iff_of_valid (h : f.Valid) :
    (fileOrSame backfill source f).2.failedFiles = 1 ↔
      backfill = true ∧ ∃ s, source = some s ∧ Backfill.isNeeded (cleaned source f).1 = true ∧
        Syntax.Parser.outline? (.ofPath f.path) s.toList = none := by
  rw [← path_cleaned source f, ← rebuilt_eq_error_iff]
  rcases fileOrSame_cases backfill source f with ⟨x, hx, _, h0, he⟩ | ⟨hno, he⟩
  · rw [he, h0, hx]
    simp
  · rw [he]
    refine iff_of_true rfl ?_
    cases hr : rebuilt backfill source (cleaned source f) with
    | error e => exact ⟨e, rfl⟩
    | ok x => exact (hno x hr ((of_rebuilt hr).1 (valid_cleaned h))).elim

end Fixups
end Coverage

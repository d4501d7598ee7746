import Coverage.Proofs.Fixups.Erasure
import Coverage.Proofs.Text.Words
import Coverage.Passes
import Mathlib.Data.List.TakeWhile

/-!
Callbacks of the keyword kind, which return an expression at once. One is judged by that expression only
if no arrow stands in it; else the text behind the first arrow is taken for the body.
-/
namespace Coverage.Markup
open Text

variable {p e a b s : Text} {c : Char}

def arrow : Text := ['=', '>']

/-- Behind blanks and opening parentheses an element starts. -/
def StartsMarkup (e : Text) : Prop :=
  ∃ lead rest, (∀ c ∈ lead, isBlank c = true ∨ c = '(') ∧ e = lead ++ '<' :: rest

/-- A body is markup, or a block that returns markup at once. -/
def Renders (b : Text) : Prop :=
  StartsMarkup b ∨ ∃ s s' e, (∀ c ∈ s, isBlank c = true) ∧ (∀ c ∈ s', isBlank c = true) ∧
    b = s ++ '\x7b' :: (s' ++ "return".toList ++ e) ∧ StartsMarkup e

section Body

theorem startsMarkup_iff :
    (e.dropWhile fun c => isBlank c || c == '(').head? = some '<' ↔ StartsMarkup e := by
  constructor
  · intro h
    obtain ⟨rest, hrest⟩ := List.head?_eq_some_iff.1 h
    refine ⟨e.takeWhile fun c => isBlank c || c == '(', rest, fun c hc => ?_, ?_⟩
    · simpa using List.mem_takeWhile_imp hc
    · rw [← hrest, List.takeWhile_append_dropWhile]
  · rintro ⟨lead, rest, hlead, rfl⟩
    rw [List.dropWhile_append_of_pos fun c hc => by simpa using hlead c hc]
    rfl

theorem startsMarkup_blanks_append (hs : ∀ c ∈ s, isBlank c = true) :
    StartsMarkup (s ++ e) ↔ StartsMarkup e := by
  rw [← startsMarkup_iff, ← startsMarkup_iff,
    List.dropWhile_append_of_pos fun c hc => by simp [hs c hc]]

theorem not_startsMarkup_block : ¬ StartsMarkup ('\x7b' :: b) := by
  rw [← startsMarkup_iff, List.dropWhile_cons_of_neg (by decide)]
  simp

theorem blanks_append_trimStart (t : Text) :
    ∃ s, (∀ c ∈ s, isBlank c = true) ∧ t = s ++ trimStart t :=
  ⟨t.takeWhile isBlank, fun _ hc => List.mem_takeWhile_imp hc, List.takeWhile_append_dropWhile.symm⟩

theorem trimStart_blanks_append (hs : ∀ c ∈ s, isBlank c = true) (hc : isBlank c = false) :
    trimStart (s ++ c :: e) = c :: e := by
  rw [trimStart, List.dropWhile_append_of_pos hs, List.dropWhile_cons_of_neg (by simp [hc])]

theorem returned?_block (hs : ∀ c ∈ s, isBlank c = true) (b : Text) :
    returned? (s ++ '\x7b' :: b) = dropWord? "return".toList (trimStart b) := by
  rw [returned?, trimStart_blanks_append hs (by decide)]
  rfl

theorem returned?_expression (h : ∀ b', trimStart b ≠ '\x7b' :: b') :
    returned? b = some (trimStart b) := by
  rw [returned?]
  split
  · next b' hb => exact absurd hb (h b')
  · rfl

/-- What a body gives to be looked at is markup exactly if the body renders. -/
theorem renders_iff : (∃ x, returned? b = some x ∧ StartsMarkup x) ↔ Renders b := by
  obtain ⟨s, hs, hb⟩ := blanks_append_trimStart b
  constructor
  · rintro ⟨x, hx, hmarkup⟩
    by_cases hblock : ∃ b', trimStart b = '\x7b' :: b'
    · obtain ⟨b', hb'⟩ := hblock
      rw [hb, hb', returned?_block hs, dropWord?_eq_some_iff] at hx
      obtain ⟨s', hs', hreturn⟩ := blanks_append_trimStart b'
      refine .inr ⟨s, s', x, hs, hs', ?_, hmarkup⟩
      rw [List.append_assoc, ← hx, ← hreturn, ← hb', ← hb]
    · rw [returned?_expression (not_exists.1 hblock)] at hx
      obtain rfl := Option.some.inj hx
      rw [hb, Renders, startsMarkup_blanks_append hs]
      exact .inl hmarkup
  · rintro (hmarkup | ⟨s, s', e, hs, hs', rfl, hmarkup⟩)
    · rw [hb, startsMarkup_blanks_append hs] at hmarkup
      refine ⟨_, returned?_expression fun b' hb' => ?_, hmarkup⟩
      rw [hb'] at hmarkup
      exact not_startsMarkup_block hmarkup
    · refine ⟨e, ?_, hmarkup⟩
      have hreturn : trimStart (s' ++ "return".toList ++ e) = "return".toList ++ e := by
        rw [List.append_assoc]
        exact trimStart_blanks_append hs' (by decide)
      rw [returned?_block hs, hreturn, dropWord?_eq_some_iff]

theorem bodyIsMarkup_iff {t : Text} (h : body? t = some b) : bodyIsMarkup t = true ↔ Renders b := by
  rw [← renders_iff, bodyIsMarkup, h, Option.bind_some]
  cases returned? b with
  | none => simp
  | some x => simp [← startsMarkup_iff]

end Body

section Callback

/-- What stands before the parameters. -/
def opening : Text := "function (".toList

/-- What stands between the parameters and the expression, without the closing parenthesis. -/
def block : Text := " \x7b return ".toList

/-- A function with these parameters that returns an expression at once, up to its end. -/
def callback (p e : Text) : Text := opening ++ p ++ [')'] ++ block ++ e

/-- Neither the parameters nor what stands around them has an arrow, so the first one is in the
expression. -/
theorem after?_arrow_callback (hp : ¬ arrow <:+: p) : after? arrow (callback p e) = after? arrow e := by
  have hopening : ¬ arrow <:+: opening ∧ opening.getLast? ≠ some '=' := by decide +kernel
  have hblock : ¬ arrow <:+: [')'] ++ block ∧ ([')'] ++ block).getLast? ≠ some '=' := by
    decide +kernel
  have hcallback : callback p e = opening ++ (p ++ ([')'] ++ block ++ e)) := by
    simp only [callback, List.append_assoc]
  rw [hcallback]
  rw [arrow] at *
  rw [after?_pair_append hopening.1 (.inl hopening.2), after?_pair_append hp (.inr (by simp)),
    after?_pair_append hblock.1 (.inl hblock.2)]

theorem body?_callback_of_no_arrow (hp : ')' ∉ p) (harrow : ¬ arrow <:+: p) (he : ¬ arrow <:+: e) :
    body? (callback p e) = some (block ++ e) := by
  have hopening : ')' ∉ opening := by decide +kernel
  have hparameters : ')' ∉ opening ++ p := by
    rw [List.mem_append]
    exact not_or.2 ⟨hopening, hp⟩
  have hcallback : callback p e = opening ++ p ++ ')' :: (block ++ e) := by
    simp only [callback, List.append_assoc, List.cons_append, List.nil_append]
  rw [body?, ← arrow, after?_arrow_callback harrow, after?_eq_none_iff.2 he, hcallback]
  exact after?_singleton_append hparameters

theorem body?_callback_of_arrow (harrow : ¬ arrow <:+: p) (ha : ¬ arrow <:+: a) :
    body? (callback p (a ++ arrow ++ b)) = some b := by
  have hfirst : after? arrow (a ++ arrow ++ b) = some b := by
    rw [List.append_assoc, arrow, after?_pair_append ha (.inr (by simp))]
    exact (after?_of_start (List.prefix_append _ b)).trans (dropWord?_eq_some_iff.2 rfl)
  rw [body?, ← arrow, after?_arrow_callback harrow, hfirst]

theorem renders_block : Renders (block ++ e) ↔ StartsMarkup e := by
  have hreturned : returned? (block ++ e) = some ([' '] ++ e) := rfl
  have hblank : ∀ c ∈ [' '], isBlank c = true := by simp [isBlank]
  rw [← renders_iff, hreturned]
  simp only [Option.some.injEq, exists_eq_left']
  exact startsMarkup_blanks_append hblank

end Callback

section Pass
open Passes

variable {f : FileCoverage} {t : Text} {i : Id} {r : FunctionSite} {J : Prop}

/-- The pass leaves this function with its count. -/
def Kept (f : FileCoverage) (t : Text) (i : Id) (r : FunctionSite) : Prop :=
  (eraseMarkupCallbacks f t).functions.records.get? i = some r ∧
    (eraseMarkupCallbacks f t).functions.hits.get? i = f.functions.hits.get? i

theorem kept_iff (hr : f.functions.records.get? i = some r) :
    Kept f t i r ↔ isCallback t r = false := by
  have hmem : i ∈ markupCallbacks f t ↔ isCallback t r = true := by
    rw [markupCallbacks, Table.mem_idsWhere, hr]
    simp
  rw [Kept, eraseMarkupCallbacks, FileCoverage.eraseFunctions, Table.get?_records_eraseAll,
    Table.get?_hits_eraseAll, hr]
  simp only [hmem]
  cases isCallback t r <;> simp

/-- Whether functions with this text are taken for markup and, near a call of an array method and without
a name, erased is decided by `J`. -/
structure JudgedBy (c : Text) (J : Prop) : Prop where
  body : bodyIsMarkup c = true ↔ J
  pass : ∀ f t i r, f.functions.records.get? i = some r → t.sliceSpan? r.body = some c →
    (Kept f t i r ↔ ¬ (r.isAnonymous = true ∧ nearArrayCall t r.body.start.line = true ∧ J))

theorem judgedBy_of_body? {c : Text} (h : body? c = some b) : JudgedBy c (Renders b) where
  body := bodyIsMarkup_iff h
  pass f t i r hr hc := by
    rw [kept_iff hr, isCallback, hc, ← bodyIsMarkup_iff h, ← Bool.not_eq_true]
    simp [and_assoc]

/-- A function that returns an expression at once is judged by it, if the expression has no arrow. If it
has one, what stands behind the first arrow is judged in its place. -/
theorem judged_of_callback (hp : ')' ∉ p) (harrow : ¬ arrow <:+: p) :
    (¬ arrow <:+: e → JudgedBy (callback p e) (StartsMarkup e)) ∧
    (arrow <:+: e → ∃ a b, e = a ++ arrow ++ b ∧ ¬ arrow <:+: a ∧
      JudgedBy (callback p e) (Renders b)) := by
  constructor
  · intro he
    rw [← renders_block]
    exact judgedBy_of_body? (body?_callback_of_no_arrow hp harrow he)
  · intro he
    obtain ⟨a, b, rfl, ha⟩ := exists_first (by decide) he
    exact ⟨a, b, rfl, ha, judgedBy_of_body? (body?_callback_of_arrow harrow ha)⟩

/-- One callback that returns a list made by another one. -/
def sampleText : Text := "rows.map(function (x) \x7b return x.map(i => <li/>) \x7d)".toList

/-- What the outer callback of the sample returns, up to the end of the text. -/
def sampleExpression : Text := "x.map(i => <li/>) \x7d)".toList

def sampleCallback : FunctionSite := ⟨"", .ofNumbers 1 9 1 17, .ofNumbers 1 9 2 0, 1⟩

def sampleFile : FileCoverage where
  path := "/a.jsx"
  statements := ∅
  functions := ⟨.ofList [(0, sampleCallback)], .ofList [(0, 3)]⟩
  branches := ∅

instance : Decidable (StartsMarkup e) := decidable_of_iff _ startsMarkup_iff

/-- A callback that returns a name is not markup, and one with an arrow in it is judged by what stands
behind that. -/
theorem judged_of_callback_sample :
    JudgedBy (callback ['x'] ['x', ';']) (StartsMarkup ['x', ';']) ∧
    ∃ a b, sampleExpression = a ++ arrow ++ b ∧ ¬ arrow <:+: a ∧
      JudgedBy (callback ['x'] sampleExpression) (Renders b) := by
  have hp : ')' ∉ ['x'] := by decide
  have harrow : ¬ arrow <:+: ['x'] := by decide
  exact ⟨(judged_of_callback hp harrow).1 (by decide),
    (judged_of_callback hp harrow).2 (by decide +kernel)⟩

/-- The outer callback returns no markup, and it is taken for markup and erased. -/
theorem erased_callback_without_markup :
    ')' ∉ ['x'] ∧ ¬ arrow <:+: ['x'] ∧ ¬ StartsMarkup sampleExpression ∧
    bodyIsMarkup (callback ['x'] sampleExpression) = true ∧
    sampleFile.functions.records.get? 0 = some sampleCallback ∧ sampleCallback.isAnonymous = true ∧
    sampleText.sliceSpan? sampleCallback.body = some (callback ['x'] sampleExpression) ∧
    (eraseMarkupCallbacks sampleFile sampleText).functions.records.get? 0 = none := by
  refine ⟨by decide, by decide, by decide +kernel, by decide +kernel, by decide, by decide +kernel,
    by decide +kernel, by decide +kernel⟩

end Pass
end Coverage.Markup

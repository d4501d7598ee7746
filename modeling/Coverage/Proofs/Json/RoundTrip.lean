import Coverage.Proofs.Json.Canonical
import Coverage.Proofs.Json.Digits
import Coverage.Proofs.Json.Quoted
import Mathlib.Data.List.DropRight

/-! Documents in text. What is written for a document is read back as that document, as long as its
numbers are natural. -/
namespace Coverage.Json

variable {j x : Json} {l r : List Json} {m n k : Nat} {t b : Text} {acc : List Json}

section Blanks

theorem skipBlanks_append (hb : ∀ c ∈ b, isBlank c = true) : skipBlanks (b ++ t) = skipBlanks t :=
  List.dropWhile_append_of_pos hb

theorem isBlank_newline : ∀ c ∈ (newline k).toList, isBlank c = true := by
  intro c hc
  simp only [newline, String.toList_ofList, List.mem_cons, List.mem_replicate] at hc
  rcases hc with rfl | ⟨-, rfl⟩
  · rfl
  · rfl

theorem readValue_append (hb : ∀ c ∈ b, isBlank c = true) : readValue n (b ++ t) = readValue n t := by
  cases n with
  | zero => simp [readValue]
  | succ n => simp only [readValue, skipBlanks_append hb]

end Blanks

/-- How an array goes on behind an element. -/
def elementsBehind (n : Nat) (acc : List Json) (t : Text) : Option (Json × Text) :=
  match skipBlanks t with
  | ']' :: t => some (array acc.reverse, t)
  | ',' :: t => readElements n acc t
  | _ => none

theorem readElements_succ : readElements (n + 1) acc t =
    (readValue n t).bind fun p => elementsBehind n (p.1 :: acc) p.2 := by
  rw [readElements]
  cases readValue n t with
  | none => rfl
  | some p => rfl

/-- How an object goes on behind a member. -/
def membersBehind (n : Nat) (acc : List (String × Json)) (t : Text) : Option (Json × Text) :=
  match skipBlanks t with
  | '\x7d' :: t => some (object acc.reverse, t)
  | ',' :: t => readMembers n acc true t
  | _ => none

/-- What is written for a value, at any depth, is read back, provided that there is fuel for its text. -/
def Reads (x : Json) : Prop := ∀ k n t, 2 * (pretty k x).toList.length ≤ n → Number.Ends t →
  readValue n ((pretty k x).toList ++ t) = some (x, t)

theorem ends_of_head {c : Char} (hc : c = ',' ∨ c = '\n') : Number.Ends (c :: t) := by
  intro d hd
  obtain rfl : c = d := by simpa using hd
  rcases hc with rfl | rfl <;> decide

theorem ends_newline : Number.Ends ((newline k).toList ++ t) := by
  simpa [newline] using ends_of_head (.inr rfl)

theorem ends_elements (r : List Json) : Number.Ends ((prettyElements m r).toList ++
    ((newline k).toList ++ t)) := by
  cases r with
  | nil => simpa [prettyElements] using ends_newline
  | cons x r => simpa [prettyElements] using ends_of_head (.inl rfl)

theorem ends_members (r : List (String × Json)) : Number.Ends ((prettyMembers m r).toList ++
    ((newline k).toList ++ t)) := by
  cases r with
  | nil => simpa [prettyMembers] using ends_newline
  | cons e r => simpa [prettyMembers] using ends_of_head (.inl rfl)

theorem elementsBehind_pretty (hr : ∀ x ∈ r, Reads x)
    (hn : 2 * (prettyElements m r).toList.length ≤ n) :
    elementsBehind n acc ((prettyElements m r).toList ++ ((newline k).toList ++ ']' :: t)) =
      some (array (acc.reverse ++ r), t) := by
  induction r generalizing n acc with
  | nil =>
    have hskip : skipBlanks (']' :: t) = ']' :: t := rfl
    simp [elementsBehind, prettyElements, skipBlanks_append isBlank_newline, hskip]
  | cons x r ih =>
    have htext : (prettyElements m (x :: r)).toList =
        ',' :: ((newline m).toList ++ ((pretty m x).toList ++ (prettyElements m r).toList)) := by
      simp [prettyElements]
    rw [htext] at hn ⊢
    simp only [List.length_cons, List.length_append] at hn
    have hskip : ∀ u, skipBlanks (',' :: u) = ',' :: u := fun _ => rfl
    obtain ⟨n, rfl⟩ : ∃ i, n = i + 1 := ⟨n - 1, by omega⟩
    simp only [elementsBehind, List.cons_append, List.append_assoc, hskip]
    rw [readElements_succ, readValue_append isBlank_newline,
      hr x List.mem_cons_self m n _ (by omega) (ends_elements r), Option.bind_some,
      ih (fun y hy => hr y (List.mem_cons_of_mem _ hy)) (by omega)]
    simp

/-- A member is read up to the text behind its value. -/
theorem readMembers_member {key : String} {acc : List (String × Json)} (hx : Reads x)
    (hn : 2 * (pretty m x).toList.length ≤ n) (ht : Number.Ends t) :
    readMembers (n + 1) acc true
        ((newline k).toList ++ ((quoted key).toList ++ (':' :: ' ' :: ((pretty m x).toList ++ t)))) =
      membersBehind n ((key, x) :: acc) t := by
  obtain ⟨u, hquoted, hscan⟩ := exists_quoted key
  have hskip : ∀ v, skipBlanks ('"' :: v) = '"' :: v ∧ skipBlanks (':' :: v) = ':' :: v :=
    fun _ => ⟨rfl, rfl⟩
  have hvalue : readValue n (' ' :: ((pretty m x).toList ++ t)) = some (x, t) := by
    have hblank : ∀ c ∈ [' '], isBlank c = true := by simp [isBlank]
    exact (readValue_append hblank).trans (hx m n t hn ht)
  rw [readMembers, skipBlanks_append isBlank_newline, hquoted, List.cons_append, (hskip _).1]
  simp only [hscan, (hskip _).2, hvalue, Option.bind_eq_bind, Option.bind_some, Option.getD_some,
    Option.isSome_some, Bool.and_true, if_true]
  rfl

theorem membersBehind_pretty {r acc : List (String × Json)} (hr : ∀ e ∈ r, Reads e.2)
    (hn : 2 * (prettyMembers m r).toList.length ≤ n) :
    membersBehind n acc ((prettyMembers m r).toList ++ ((newline k).toList ++ '\x7d' :: t)) =
      some (object (acc.reverse ++ r), t) := by
  induction r generalizing n acc with
  | nil =>
    have hskip : skipBlanks ('\x7d' :: t) = '\x7d' :: t := rfl
    simp [membersBehind, prettyMembers, skipBlanks_append isBlank_newline, hskip]
  | cons e r ih =>
    obtain ⟨key, x⟩ := e
    have htext : (prettyMembers m ((key, x) :: r)).toList = ',' :: ((newline m).toList ++
        ((quoted key).toList ++ (':' :: ' ' :: ((pretty m x).toList ++ (prettyMembers m r).toList)))) := by
      simp [prettyMembers]
    rw [htext] at hn ⊢
    simp only [List.length_cons, List.length_append] at hn
    have hskip : ∀ u, skipBlanks (',' :: u) = ',' :: u := fun _ => rfl
    obtain ⟨n, rfl⟩ : ∃ i, n = i + 1 := ⟨n - 1, by omega⟩
    have hx : Reads x := hr (key, x) List.mem_cons_self
    simp only [membersBehind, List.cons_append, List.append_assoc, hskip]
    rw [readMembers_member hx (by omega) (ends_members r),
      ih (fun y hy => hr y (List.mem_cons_of_mem _ hy)) (by omega)]
    simp

theorem isBlank_of_isDigit {c : Char} (h : c.isDigit = true) : isBlank c = false := by
  rw [isBlank, Bool.or_eq_false_iff, Bool.or_eq_false_iff, Bool.or_eq_false_iff]
  refine ⟨⟨⟨?_, ?_⟩, ?_⟩, ?_⟩
  all_goals
    rw [beq_eq_false_iff_ne]
    rintro rfl
    exact absurd h (by decide)

theorem readValue_digit {c : Char} (hc : c.isDigit = true) : readValue (n + 1) (c :: t) =
    (Number.read? (c :: t)).map fun p => (p.1.elim void number, p.2) := by
  have hskip : skipBlanks (c :: t) = c :: t := by
    simp [skipBlanks, isBlank_of_isDigit hc]
  rw [readValue, hskip]
  split
  all_goals try (next heq => obtain ⟨rfl, -⟩ := List.cons.inj heq; exact absurd hc (by decide))
  cases Number.read? (c :: t) with
  | none => rfl
  | some p => rfl

theorem reads_natural (hn : n < Number.limit) : Reads (number (.natural n)) := by
  intro k fuel t hfuel ht
  have htext : (pretty k (number (.natural n))).toList = Nat.toDigits 10 n := by
    rw [pretty, Number.text, Nat.toString_eq_ofList_toDigits, String.toList_ofList]
  obtain ⟨hne, hdigits, -⟩ := Number.isDecimal_toDigits n
  obtain ⟨c, l, hl⟩ := List.exists_cons_of_ne_nil hne
  have hread := Number.read?_toDigits hn ht
  rw [htext] at hfuel ⊢
  rw [hl] at hfuel hread ⊢
  simp only [List.length_cons] at hfuel
  obtain ⟨fuel, rfl⟩ : ∃ i, fuel = i + 1 := ⟨fuel - 1, by omega⟩
  rw [List.cons_append, readValue_digit (hdigits c (by simp [hl])), ← List.cons_append, hread]
  rfl

/-- A value is read from behind the blanks. -/
theorem readValue_skipBlanks : readValue n (skipBlanks t) = readValue n t := by
  have hskip : skipBlanks (skipBlanks t) = skipBlanks t := List.dropWhile_idempotent _ _
  cases n with
  | zero => simp [readValue]
  | succ n => simp only [readValue, hskip]

/-- No value starts by closing an array. -/
theorem readValue_eq_none_of_close (h : skipBlanks t = ']' :: b) : readValue n t = none := by
  cases n with
  | zero => simp [readValue]
  | succ n =>
    have hread : Number.read? (']' :: b) = none := rfl
    simp [readValue, h, hread]

theorem readValue_array (h : readValue n t = some (x, b)) :
    readValue (n + 2) ('[' :: t) = elementsBehind n [x] b := by
  have hskip : skipBlanks ('[' :: t) = '[' :: t := rfl
  rw [readValue, hskip]
  simp only
  split
  · next v hclose =>
    rw [readValue_eq_none_of_close hclose] at h
    simp at h
  · rw [readElements_succ, readValue_skipBlanks, h, Option.bind_some]

theorem readValue_object {key : String} :
    readValue (n + 1) ('\x7b' :: ((newline k).toList ++ ((quoted key).toList ++ t))) =
      readMembers n [] true ((newline k).toList ++ ((quoted key).toList ++ t)) := by
  obtain ⟨u, hquoted, -⟩ := exists_quoted key
  have hskip : ∀ v, skipBlanks ('\x7b' :: v) = '\x7b' :: v ∧ skipBlanks ('"' :: v) = '"' :: v :=
    fun _ => ⟨rfl, rfl⟩
  rw [readValue, (hskip _).1]
  simp only [skipBlanks_append isBlank_newline, hquoted, List.cons_append, (hskip _).2]
  cases n with
  | zero => simp [readMembers]
  | succ n =>
    simp only [readMembers, skipBlanks_append isBlank_newline, (hskip _).2]
    rfl

theorem reads_array (hl : ∀ x ∈ l, Reads x) : Reads (array l) := by
  intro k n t hn ht
  cases l with
  | nil =>
    have htext : (pretty k (array [])).toList = ['[', ']'] := by simp [pretty]
    rw [htext] at hn ⊢
    simp only [List.length_cons, List.length_nil] at hn
    obtain ⟨n, rfl⟩ : ∃ i, n = i + 1 := ⟨n - 1, by omega⟩
    rfl
  | cons x r =>
    have htext : (pretty k (array (x :: r))).toList = '[' :: ((newline (k + 1)).toList ++
        ((pretty (k + 1) x).toList ++ ((prettyElements (k + 1) r).toList ++
          ((newline k).toList ++ [']'])))) := by
      simp [pretty]
    rw [htext] at hn ⊢
    simp only [List.length_cons, List.length_append] at hn
    obtain ⟨n, rfl⟩ : ∃ i, n = i + 2 := ⟨n - 2, by omega⟩
    simp only [List.cons_append, List.append_assoc, List.nil_append]
    have hx := hl x List.mem_cons_self (k + 1) n ((prettyElements (k + 1) r).toList ++
      ((newline k).toList ++ ']' :: t)) (by omega) (ends_elements r)
    rw [readValue_array ((readValue_append isBlank_newline).trans hx),
      elementsBehind_pretty (fun y hy => hl y (List.mem_cons_of_mem _ hy)) (by omega)]
    rfl

theorem reads_object {l : List (String × Json)} (hl : ∀ e ∈ l, Reads e.2) : Reads (object l) := by
  intro k n t hn ht
  cases l with
  | nil =>
    have htext : (pretty k (object [])).toList = ['\x7b', '\x7d'] := by simp [pretty]
    rw [htext] at hn ⊢
    simp only [List.length_cons, List.length_nil] at hn
    obtain ⟨n, rfl⟩ : ∃ i, n = i + 1 := ⟨n - 1, by omega⟩
    rfl
  | cons e r =>
    obtain ⟨key, x⟩ := e
    have hx : Reads x := hl (key, x) List.mem_cons_self
    have htext : (pretty k (object ((key, x) :: r))).toList = '\x7b' :: ((newline (k + 1)).toList ++
        ((quoted key).toList ++ (':' :: ' ' :: ((pretty (k + 1) x).toList ++
          ((prettyMembers (k + 1) r).toList ++ ((newline k).toList ++ ['\x7d'])))))) := by
      simp [pretty]
    rw [htext] at hn ⊢
    simp only [List.length_cons, List.length_append] at hn
    obtain ⟨n, rfl⟩ : ∃ i, n = i + 2 := ⟨n - 2, by omega⟩
    simp only [List.cons_append, List.append_assoc, List.nil_append]
    rw [readValue_object, readMembers_member hx (by omega) (ends_members r),
      membersBehind_pretty (fun y hy => hl y (List.mem_cons_of_mem _ hy)) (by omega)]
    rfl

/-- A value without parts is read from its own text, which is not empty. -/
theorem reads_of_text (u : Text) (hu : u ≠ []) (htext : ∀ k, (pretty k j).toList = u)
    (hread : ∀ n t, readValue (n + 1) (u ++ t) = some (j, t)) : Reads j := by
  intro k n t hn ht
  rw [htext] at hn ⊢
  have hpos := List.length_pos_iff.2 hu
  obtain ⟨n, rfl⟩ : ∃ i, n = i + 1 := ⟨n - 1, by omega⟩
  exact hread n t

theorem reads_string (s : String) : Reads (string s) := by
  obtain ⟨u, hquoted, hscan⟩ := exists_quoted s
  refine reads_of_text ('"' :: u) (by simp) (fun k => by rw [pretty, hquoted]) fun n t => ?_
  have hskip : skipBlanks ('"' :: (u ++ t)) = '"' :: (u ++ t) := rfl
  rw [List.cons_append, readValue, hskip]
  simp [hscan]

theorem reads_of_isPlain (h : j.IsPlain) : Reads j := by
  induction j using inductionOn with
  | null => exact reads_of_text "null".toList (by decide) (fun _ => rfl) fun _ _ => rfl
  | bool b =>
    cases b with
    | true => exact reads_of_text "true".toList (by decide) (fun _ => rfl) fun _ _ => rfl
    | false => exact reads_of_text "false".toList (by decide) (fun _ => rfl) fun _ _ => rfl
  | number n =>
    cases n with
    | natural n => exact reads_natural h
    | negative n => exact h.elim
    | real minus x => exact h.elim
  | string s => exact reads_string s
  | array l ih => exact reads_array fun x hx => ih x hx (isPlain_array_iff.1 h x hx)
  | object l ih => exact reads_object fun e he => ih e he (isPlain_object_iff.1 h e he)
  | void => exact h.elim

theorem document?_text (h : j.IsPlain) : document? j.text = some j := by
  have hread := reads_of_isPlain h 0 (2 * j.text.toList.length + 2) [] (by simp [text]) (by
    intro c hc
    simp at hc)
  rw [List.append_nil] at hread
  have hread : readValue (2 * j.text.toList.length + 2) j.text.toList = some (j, []) := hread
  rw [document?, hread]
  rfl

theorem ofText?_text (h : j.IsPlain) (hdepth : j.depth ≤ depthLimit) :
    ofText? j.text = some j.canonical := by
  simp [ofText?, document?_text h, value?, isSound_of_isPlain h, hdepth]

end Coverage.Json

import Coverage.Document

/-! Numbers in decimal digits. Each has one spelling, which is the one that is written and the only one
that is read, for numbers in a text as for ids. -/
namespace Coverage

namespace Json.Number
variable {l : List Char} {c : Char} {n : Nat} {rest : Text}

/-- Digits without a zero in front, unless it stands alone. -/
def IsDecimal (l : List Char) : Prop :=
  l ≠ [] ∧ (∀ c ∈ l, c.isDigit = true) ∧ (l.head? = some '0' → l.length = 1)

theorem digitValue_lt (h : c.isDigit = true) : digitValue c < 10 := by
  have hc : 48 ≤ c.toNat ∧ c.toNat ≤ 57 := Char.isDigit_iff_toNat.1 h
  change c.toNat - 48 < 10
  omega

theorem digitChar_digitValue (h : c.isDigit = true) : (digitValue c).digitChar = c := by
  have hc : 48 ≤ c.toNat ∧ c.toNat ≤ 57 := Char.isDigit_iff_toNat.1 h
  apply Char.toNat_inj.1
  rw [Nat.toNat_digitChar_of_lt_ten (digitValue_lt h)]
  change 48 + (c.toNat - 48) = c.toNat
  omega

theorem natOfDigits_toDigits (n : Nat) : natOfDigits (Nat.toDigits 10 n) = n := by
  have h : natOfDigits (Nat.toDigits 10 n) = Nat.ofDigitChars 10 (Nat.toDigits 10 n) 0 := by
    simp only [natOfDigits, Nat.ofDigitChars_eq_foldl, digitValue, Nat.mul_comm]
  rw [h, Nat.ofDigitChars_ten_toDigits]

/-- Digits behind a positive number make its digits longer. -/
theorem toDigits_append (hn : 0 < n) (hl : ∀ c ∈ l, c.isDigit = true) :
    Nat.toDigits 10 n ++ l = Nat.toDigits 10 (l.foldl (fun n c => n * 10 + digitValue c) n) := by
  induction l generalizing n with
  | nil => simp
  | cons c l ih =>
    have hc := hl c List.mem_cons_self
    have hone : Nat.toDigits 10 n ++ [c] = Nat.toDigits 10 (n * 10 + digitValue c) := by
      have happend := Nat.toDigits_append_toDigits (b := 10) (by decide) hn (digitValue_lt hc)
      rwa [Nat.toDigits_of_lt_base (digitValue_lt hc), digitChar_digitValue hc, Nat.mul_comm] at happend
    calc Nat.toDigits 10 n ++ c :: l
      _ = Nat.toDigits 10 (n * 10 + digitValue c) ++ l := by rw [← hone, List.append_assoc]; rfl
      _ = _ := ih (by omega) fun d hd => hl d (List.mem_cons_of_mem _ hd)

theorem toDigits_natOfDigits (h : IsDecimal l) : Nat.toDigits 10 (natOfDigits l) = l := by
  obtain ⟨hne, hdigits, hzero⟩ := h
  cases l with
  | nil => exact (hne rfl).elim
  | cons c l =>
    have hc := hdigits c List.mem_cons_self
    have hone : Nat.toDigits 10 (digitValue c) = [c] := by
      rw [Nat.toDigits_of_lt_base (digitValue_lt hc), digitChar_digitValue hc]
    have hvalue : natOfDigits (c :: l) = l.foldl (fun n c => n * 10 + digitValue c) (digitValue c) := by
      simp [natOfDigits]
    obtain h0 | hpos := Nat.eq_zero_or_pos (digitValue c)
    · have hnil : l = [] := by
        rw [h0] at hone
        have hlength := hzero (congrArg List.head? hone).symm
        simpa using hlength
      rw [hvalue, hnil]
      exact hone
    · rw [hvalue, ← toDigits_append hpos fun d hd => hdigits d (List.mem_cons_of_mem _ hd), hone]
      rfl

theorem head?_toDigits (h : 0 < n) : (Nat.toDigits 10 n).head? ≠ some '0' := by
  induction n using Nat.strongRecOn with
  | ind n ih =>
    by_cases hlt : n < 10
    · rw [Nat.toDigits_of_lt_base hlt]
      simpa using Nat.ne_of_gt h
    · have hne : Nat.toDigits 10 (n / 10) ≠ [] := Nat.toDigits_ne_nil
      rw [Nat.toDigits_of_base_le (by decide) (by omega), List.head?_append, List.head?_eq_some_head hne]
      have := ih (n / 10) (by omega) (by omega)
      rwa [List.head?_eq_some_head hne] at this

theorem isDecimal_toDigits (n : Nat) : IsDecimal (Nat.toDigits 10 n) := by
  refine ⟨Nat.toDigits_ne_nil, fun c hc => ?_, fun hzero => ?_⟩
  · exact Nat.isDigit_of_mem_toDigits (by decide) (by decide) hc
  · obtain rfl | hpos := Nat.eq_zero_or_pos n
    · rfl
    · exact (head?_toDigits hpos hzero).elim

/-- A number does not go on with this text. -/
def Ends (t : Text) : Prop :=
  ∀ c ∈ t.head?, c.isDigit = false ∧ c ≠ '.' ∧ c ≠ 'e' ∧ c ≠ 'E'

theorem takeWhile_digits (hl : ∀ c ∈ l, c.isDigit = true) (hrest : Ends rest) :
    (l ++ rest).takeWhile Char.isDigit = l ∧ (l ++ rest).dropWhile Char.isDigit = rest := by
  have hstop : rest.takeWhile Char.isDigit = [] ∧ rest.dropWhile Char.isDigit = rest := by
    cases rest with
    | nil => exact ⟨rfl, rfl⟩
    | cons c r => simp [(hrest c rfl).1]
  rw [List.takeWhile_append_of_pos hl, List.dropWhile_append_of_pos hl, hstop.1, hstop.2]
  simp

theorem whole?_toDigits (hn : n < limit) : whole? false (Nat.toDigits 10 n) = some (.natural n) := by
  simp [whole?, natOfDigits_toDigits, hn]

theorem read?_toDigits (hn : n < limit) (hrest : Ends rest) :
    read? (Nat.toDigits 10 n ++ rest) = some (some (.natural n), rest) := by
  obtain ⟨hne, hdigits, hzero⟩ := isDecimal_toDigits n
  obtain ⟨htake, hdrop⟩ := takeWhile_digits hdigits hrest
  have hsign : ∀ r, Nat.toDigits 10 n ++ rest ≠ '-' :: r := by
    intro r hr
    obtain ⟨d, l, hcons⟩ := List.exists_cons_of_ne_nil hne
    have hd := hdigits d (by simp [hcons])
    rw [hcons] at hr
    rw [(List.cons.inj hr).1] at hd
    exact absurd hd (by decide)
  have hlead : ¬ ((Nat.toDigits 10 n).head? = some '0' ∧ 1 < (Nat.toDigits 10 n).length) := by
    rintro ⟨h, hlong⟩
    have := hzero h
    omega
  rw [read?]
  · rw [htake, hdrop]
    cases rest with
    | nil => simp [hlead, whole?_toDigits hn]
    | cons c r =>
      obtain ⟨-, hpoint, he, hE⟩ := hrest c rfl
      simp [hlead, whole?_toDigits hn, hpoint, he, hE]
  · exact hsign

end Json.Number

open Json.Number

theorem toList_toString (id : Id) : (toString id).toList = Nat.toDigits 10 id.toNat := by
  have h : toString id = toString id.toNat := rfl
  rw [h, Nat.toString_eq_ofList_toDigits, String.toList_ofList]

theorem toString_injective {a b : Id} (h : toString a = toString b) : a = b := by
  have hdigits := congrArg (fun s => natOfDigits s.toList) h
  simp only [toList_toString, natOfDigits_toDigits] at hdigits
  exact UInt32.toNat_inj.1 hdigits

theorem idOfName?_toString (id : Id) : idOfName? (toString id) = some id := by
  obtain ⟨hne, hdigits, hzero⟩ := isDecimal_toDigits id.toNat
  have hlead : ¬ ((Nat.toDigits 10 id.toNat).head? = some '0' ∧
      1 < (Nat.toDigits 10 id.toNat).length) := by
    rintro ⟨h, hlong⟩
    have := hzero h
    omega
  have hall : (Nat.toDigits 10 id.toNat).all Char.isDigit = true := List.all_eq_true.2 hdigits
  have hlt : id.toNat < UInt32.size := UInt32.toNat_lt_size id
  simp [idOfName?, toList_toString, natOfDigits_toDigits, hne, hall, hlead, hlt]

/-- A name stands for an id exactly if it is what is written for it. -/
theorem idOfName?_eq_some_iff {s : String} {id : Id} : idOfName? s = some id ↔ s = toString id := by
  constructor
  · intro h
    rw [idOfName?] at h
    split at h
    · simp at h
    · next hdigits =>
      split at h
      · next hlt =>
        have hdecimal : IsDecimal s.toList := by
          simp only [Bool.or_eq_true, List.isEmpty_iff, Bool.not_eq_true', List.all_eq_false,
            Bool.and_eq_true, beq_iff_eq, decide_eq_true_eq, not_or, not_and, not_exists] at hdigits
          obtain ⟨⟨hne, hall⟩, hzero⟩ := hdigits
          refine ⟨hne, fun c hc => by simpa using hall c hc, fun h0 => ?_⟩
          have hpos := List.length_pos_iff.2 hne
          have := hzero h0
          omega
        obtain rfl := Option.some.inj h
        apply String.toList_inj.1
        rw [toList_toString, UInt32.toNat_ofNat_of_lt' hlt, toDigits_natOfDigits hdecimal]
      · simp at h
  · rintro rfl
    exact idOfName?_toString id

end Coverage

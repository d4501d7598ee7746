import Coverage.Text.Lines

/-! Where the lines of a text start, and the lines between two numbers. -/
namespace Coverage.Text

variable {t : Text} {c : Char} {n k i : Nat}

/-- The first line starts with the text, and each other one behind the newline that ends the line
before it. Lines are counted from zero. -/
inductive StartsLine (t : Text) : Nat → Nat → Prop
  | first : StartsLine t 0 0
  | behind (before after : Text) (h : t = before ++ '\n' :: after) :
      StartsLine t (before.count '\n' + 1) (byteLength before + 1)

/-- The line starts that the fold has passed, and those behind the rest of the text. -/
theorem foldl_starts (t : Text) (n : Nat) (l : List Nat) :
    (t.foldl (fun (n, l) c =>
      let n := n + c.utf8Size
      (n, if c = '\n' then n :: l else l)) (n, l)).2 = (startsBehind n t).reverse ++ l := by
  induction t generalizing n l with
  | nil => rfl
  | cons c t ih =>
    rw [startsBehind, List.foldl_cons, List.foldl_cons, ih, ih, List.reverse_reverse]
    split <;> simp

@[simp] theorem startsBehind_nil : startsBehind n [] = [] := rfl

theorem startsBehind_cons : startsBehind n (c :: t) =
    if c = '\n' then (n + c.utf8Size) :: startsBehind (n + c.utf8Size) t
    else startsBehind (n + c.utf8Size) t := by
  rw [startsBehind, List.foldl_cons, foldl_starts]
  split <;> simp

/-- A cut of a text at a newline is in front of its first character or a cut of the rest. -/
theorem exists_cut_cons (p : Text → Prop) :
    (∃ before after, c :: t = before ++ '\n' :: after ∧ p before) ↔
      (c = '\n' ∧ p []) ∨ ∃ before after, t = before ++ '\n' :: after ∧ p (c :: before) := by
  constructor
  · rintro ⟨before, after, h, hp⟩
    cases before with
    | nil => exact .inl ⟨(List.cons.inj h).1, hp⟩
    | cons d before =>
      obtain ⟨rfl, ht⟩ := List.cons.inj h
      exact .inr ⟨before, after, ht, hp⟩
  · rintro (⟨rfl, hp⟩ | ⟨before, after, rfl, hp⟩)
    · exact ⟨[], t, rfl, hp⟩
    · exact ⟨c :: before, after, rfl, hp⟩

theorem getElem?_startsBehind : (startsBehind n t)[i]? = some k ↔
    ∃ before after, t = before ++ '\n' :: after ∧ before.count '\n' = i ∧
      k = n + byteLength before + 1 := by
  induction t generalizing n i with
  | nil => simp
  | cons c t ih =>
    rw [startsBehind_cons, exists_cut_cons]
    by_cases hc : c = '\n'
    · subst hc
      have hsize : '\n'.utf8Size = 1 := rfl
      rw [if_pos rfl]
      cases i with
      | zero => simp [hsize, eq_comm]
      | succ i => simp [ih, hsize, Nat.add_assoc]
    · rw [if_neg hc, ih]
      simp [hc, Nat.add_assoc]

theorem lineStart?_eq_some_iff : t.lineStart? i = some n ↔ t.StartsLine i n := by
  rw [lineStart?, lineStarts]
  constructor
  · intro h
    cases i with
    | zero =>
      obtain rfl : 0 = n := by simpa using h
      exact .first
    | succ i =>
      obtain ⟨before, after, ht, rfl, rfl⟩ := getElem?_startsBehind.1 h
      rw [Nat.zero_add]
      exact .behind before after ht
  · intro h
    cases h with
    | first => rfl
    | behind before after h =>
      rw [List.getElem?_cons_succ, getElem?_startsBehind]
      exact ⟨before, after, h, rfl, by omega⟩

theorem line?_eq_some_iff {n : UInt32} {l : Text} : t.line? n = some l ↔
    ∃ k raw, n.toNat = k + 1 ∧ t.rawLines[k]? = some raw ∧ chomp raw = l := by
  rw [line?]
  split
  · next h => simp [h]
  · next h =>
    have hpos : 0 < n.toNat := Nat.pos_of_ne_zero fun h0 => h (UInt32.toNat_inj.1 h0)
    rw [Option.map_eq_some_iff]
    constructor
    · rintro ⟨raw, hraw, hl⟩
      exact ⟨n.toNat - 1, raw, by omega, hraw, hl⟩
    · rintro ⟨k, raw, hk, hraw, hl⟩
      obtain rfl : n.toNat - 1 = k := by omega
      exact ⟨raw, hraw, hl⟩

/-- The lines from one number to another, or the first of the two alone if the second is lower. -/
theorem mem_linesBetween {first last : UInt32} {l : Text} : l ∈ t.linesBetween first last ↔
    ∃ n : UInt32, first ≤ n ∧ (n ≤ first ∨ n ≤ last) ∧ t.line? n = some l := by
  have hfirst := first.toNat_lt
  have hlast := last.toNat_lt
  simp only [line?_eq_some_iff, UInt32.le_iff_toNat_le]
  rw [linesBetween, List.mem_map]
  constructor
  · rintro ⟨raw, hraw, rfl⟩
    obtain ⟨j, hj⟩ := List.mem_iff_getElem?.1 hraw
    rw [List.getElem?_drop, List.getElem?_take, Option.ite_none_right_eq_some] at hj
    obtain ⟨hlt, hj⟩ := hj
    have hn : (UInt32.ofNat (first.toNat - 1 + j + 1)).toNat = first.toNat - 1 + j + 1 := by
      rw [UInt32.toNat_ofNat', Nat.mod_eq_of_lt (by omega)]
    exact ⟨_, by omega, by omega, _, raw, hn, hj, rfl⟩
  · rintro ⟨n, hge, hle, k, raw, hk, hraw, rfl⟩
    refine ⟨raw, List.mem_iff_getElem?.2 ⟨k - (first.toNat - 1), ?_⟩, rfl⟩
    have hindex : first.toNat - 1 + (k - (first.toNat - 1)) = k := by omega
    have hlt : k < max first.toNat last.toNat := by omega
    rw [List.getElem?_drop, List.getElem?_take, hindex, if_pos hlt, hraw]

end Coverage.Text

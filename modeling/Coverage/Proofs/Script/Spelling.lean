import Coverage.Proofs.Script.Layout

/-! How the fields of a piece are written: the sign below the amount, five bits to a digit, every digit but
the last one of a field marked as continued. What is written this way is read as it was. -/
namespace Coverage.Mappings

/-- The sign goes below the amount. -/
def unsigned (n : Int) : Nat := 2 * n.natAbs + if n < 0 then 1 else 0

/-- Five bits at a time, the lowest first; every digit but the last one is marked as continued. -/
def digitsOf (n : Nat) : List Nat :=
  if n < 32 then [n] else (n % 32 + 32) :: digitsOf (n / 32)

def alphabet : String := "ABCDEFGHIJKLMNOPQRSTUVWXYZabcdefghijklmnopqrstuvwxyz0123456789+/"

def digitChar (d : Nat) : Char := alphabet.toList.getD d '='

def spell (fs : List Int) : Text := fs.flatMap fun n => (digitsOf (unsigned n)).map digitChar

variable {n d : Nat} {ds : List Nat} {fs : List Int}

section Digits

theorem signed_unsigned (n : Int) : signed (unsigned n) = n := by
  rw [signed, unsigned]
  split <;> split at * <;> omega

theorem amount_digitsOf (n : Nat) : amount (digitsOf n) = n := by
  fun_induction digitsOf n with
  | case1 n h =>
    simp only [amount]
    omega
  | case2 n h ih =>
    rw [amount, ih]
    omega

theorem lt_of_mem_digitsOf (h : d ∈ digitsOf n) : d < 64 := by
  fun_induction digitsOf n with
  | case1 n hn =>
    have := List.mem_singleton.1 h
    omega
  | case2 n hn ih =>
    rcases List.mem_cons.1 h with rfl | h
    · omega
    · exact ih h

/-- The digits of a number are one field. -/
theorem groups?_digitsOf_append (n : Nat) (ds : List Nat) :
    groups? (digitsOf n ++ ds) = (groups? ds).map (digitsOf n :: ·) := by
  fun_induction digitsOf n with
  | case1 n h => rw [List.singleton_append, groups?, if_pos h]
  | case2 n h ih =>
    rw [List.cons_append, groups?, if_neg (by omega), ih]
    cases groups? ds <;> rfl

theorem length_digitsOf_le (k : Nat) (h : n < 32 ^ (k + 1)) : (digitsOf n).length ≤ k + 1 := by
  induction k generalizing n with
  | zero =>
    rw [digitsOf, if_pos (by simpa using h)]
    simp
  | succ k ih =>
    rw [digitsOf]
    split
    · simp
    · have hdiv : n / 32 < 32 ^ (k + 1) := by
        apply Nat.div_lt_of_lt_mul
        rw [← Nat.pow_succ']
        exact h
      have := ih hdiv
      rw [List.length_cons]
      omega

theorem digit?_digitChar (h : d < 64) : digit? (digitChar d) = some d := by
  have hall : ∀ d : Fin 64, digit? (digitChar d) = some d.val := by decide +kernel
  exact hall ⟨d, h⟩

end Digits

section Spelling

/-- What is read in a piece that spells these fields. -/
def readingOf (p : Nat × List Int) : Reading := ⟨p.1, p.2.map fun n => digitsOf (unsigned n)⟩

theorem fields_readingOf (p : Nat × List Int) : (readingOf p).fields = p.2 := by
  have h : ∀ n ∈ p.2, ((fun g => signed (amount g)) ∘ fun n => digitsOf (unsigned n)) n = n := by
    intro n _
    simp only [Function.comp, amount_digitsOf, signed_unsigned]
  rw [Reading.fields, readingOf, List.map_map, List.map_congr_left h, List.map_id']

theorem digits?_map_digitChar (h : ∀ d ∈ ds, d < 64) : digits? (ds.map digitChar) = some ds := by
  induction ds with
  | nil => rfl
  | cons d ds ih =>
    rw [List.forall_mem_cons] at h
    rw [List.map_cons, digits?_cons (digit?_digitChar h.1), ih h.2]
    rfl

theorem groups?_flatMap_digitsOf (fs : List Int) :
    groups? (fs.flatMap fun n => digitsOf (unsigned n)) = some (fs.map fun n => digitsOf (unsigned n)) := by
  induction fs with
  | nil => rfl
  | cons n fs ih =>
    rw [List.flatMap_cons, groups?_digitsOf_append, ih]
    rfl

theorem spell_eq_map (fs : List Int) :
    spell fs = (fs.flatMap fun n => digitsOf (unsigned n)).map digitChar := by
  rw [spell, List.map_flatMap]

theorem lt_of_mem_flatMap_digitsOf (h : d ∈ fs.flatMap fun n => digitsOf (unsigned n)) : d < 64 := by
  obtain ⟨n, _, hd⟩ := List.mem_flatMap.1 h
  exact lt_of_mem_digitsOf hd

theorem reading?_spell (line : Nat) (fs : List Int) :
    reading? (line, spell fs) = some (readingOf (line, fs)) := by
  rw [reading?, spell_eq_map, digits?_map_digitChar fun d => lt_of_mem_flatMap_digitsOf,
    Option.bind_some, groups?_flatMap_digitsOf]
  rfl

/-- The alphabet has no separators. -/
theorem plain_spell (h : fs ≠ []) : Plain (spell fs) := by
  have hdigit : ∀ c ∈ spell fs, ∃ d, digit? c = some d := by
    intro c hc
    rw [spell_eq_map] at hc
    obtain ⟨d, hd, rfl⟩ := List.mem_map.1 hc
    exact ⟨d, digit?_digitChar (lt_of_mem_flatMap_digitsOf hd)⟩
  refine ⟨?_, ?_, ?_⟩
  · cases fs with
    | nil => exact (h rfl).elim
    | cons n fs =>
      rw [spell, List.flatMap_cons, digitsOf]
      split <;> simp
  · intro hc
    obtain ⟨d, hd⟩ := hdigit _ hc
    simp [digit?] at hd
  · intro hc
    obtain ⟨d, hd⟩ := hdigit _ hc
    simp [digit?] at hd

end Spelling

end Coverage.Mappings

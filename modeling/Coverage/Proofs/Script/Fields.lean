import Coverage.Script.Mappings
import Coverage.Proofs.Readers

/-! The numbers of a piece of a source map without bounds. The digits of a piece are cut into fields, and a
field is worth its amount with the sign in the lowest bit. Reading in words accepts exactly the pieces whose
fields are complete and have at most thirteen digits. -/
namespace Coverage.Mappings

/-- Five bits from each digit, the lowest first. -/
def amount : List Nat → Nat
  | [] => 0
  | d :: r => d % 32 + 32 * amount r

/-- The lowest bit is the sign, the other bits are the amount. -/
def signed (n : Nat) : Int := if n % 2 = 1 then -(n / 2 : Nat) else (n / 2 : Nat)

def digits? (piece : Text) : Option (List Nat) := piece.mapM digit?

/-- Digits cut behind each one that is not continued; none if the last one is. -/
def groups? : List Nat → Option (List (List Nat))
  | [] => some []
  | d :: r =>
    if d < 32 then (groups? r).map ([d] :: ·)
    else (groups? r).bind fun
      | [] => none
      | g :: gs => some ((d :: g) :: gs)

variable {d value shift : Nat} {g pre ds : List Nat} {gs : List (List Nat)} {c : Char} {piece : Text}
  {fs : List Int}

theorem amount_append (g : List Nat) (d : Nat) :
    amount (g ++ [d]) = amount g + d % 32 * Nat.pow 2 (5 * g.length) := by
  induction g with
  | nil => simp [amount]
  | cons a g ih =>
    have hpow : Nat.pow 2 (5 * (a :: g).length) = 32 * Nat.pow 2 (5 * g.length) := by
      change 2 ^ (5 * (g.length + 1)) = 32 * 2 ^ (5 * g.length)
      rw [Nat.mul_add, Nat.pow_add, Nat.mul_comm]
    rw [List.cons_append, amount, amount, ih, hpow]
    grind

theorem digits?_cons (h : digit? c = some d) :
    digits? (c :: piece) = (digits? piece).map (d :: ·) := by
  rw [digits?, digits?, List.mapM_cons, h]
  cases piece.mapM digit? <;> rfl

theorem digits?_eq_nil_iff : digits? piece = some [] ↔ piece = [] := by
  cases piece with
  | nil => exact iff_of_true rfl rfl
  | cons c piece =>
    refine iff_of_false ?_ (by simp)
    intro h
    cases hc : digit? c with
    | none => simp [digits?, List.mapM_cons, hc] at h
    | some d =>
      rw [digits?_cons hc] at h
      obtain ⟨_, _, heq⟩ := Option.map_eq_some_iff.1 h
      cases heq

/-- Digits that are continued do not stand alone. -/
theorem groups?_continued (hpre : ∀ d ∈ pre, 32 ≤ d) (hne : pre ≠ []) : groups? pre = none := by
  induction pre with
  | nil => exact (hne rfl).elim
  | cons d pre ih =>
    have hd := hpre d List.mem_cons_self
    rw [groups?, if_neg (by omega)]
    cases pre with
    | nil => rfl
    | cons e pre => rw [ih (fun d hd => hpre d (.tail _ hd)) (by simp)]; rfl

/-- A digit that is not continued closes its field. -/
theorem groups?_closed (hpre : ∀ d ∈ pre, 32 ≤ d) (hd : d < 32) :
    groups? (pre ++ d :: ds) = (groups? ds).map ((pre ++ [d]) :: ·) := by
  induction pre with
  | nil => rw [List.nil_append, groups?, if_pos hd]; rfl
  | cons e pre ih =>
    have he := hpre e List.mem_cons_self
    rw [List.cons_append, groups?, if_neg (by omega), ih fun d hd => hpre d (.tail _ hd)]
    cases groups? ds <;> rfl

/-- Continued digits are all in the first field, which has one more. -/
theorem length_lt_of_groups? (hpre : ∀ d ∈ pre, 32 ≤ d) (h : groups? (pre ++ ds) = some (g :: gs)) :
    pre.length < g.length := by
  induction pre generalizing g with
  | nil =>
    cases ds with
    | nil => simp [groups?] at h
    | cons d ds =>
      rw [List.nil_append, groups?] at h
      split at h
      · obtain ⟨_, _, heq⟩ := Option.map_eq_some_iff.1 h
        obtain ⟨rfl, _⟩ := List.cons.inj heq
        simp
      · obtain ⟨gs', _, heq⟩ := Option.bind_eq_some_iff.1 h
        cases gs' with
        | nil => simp at heq
        | cons g' gs' =>
          obtain ⟨rfl, _⟩ := List.cons.inj (Option.some.inj heq)
          simp
  | cons e pre ih =>
    have he := hpre e List.mem_cons_self
    rw [List.cons_append, groups?, if_neg (by omega)] at h
    obtain ⟨gs', hgs, heq⟩ := Option.bind_eq_some_iff.1 h
    cases gs' with
    | nil => simp at heq
    | cons g' gs' =>
      obtain ⟨rfl, rfl⟩ := List.cons.inj (Option.some.inj heq)
      have := ih (fun d hd => hpre d (.tail _ hd)) hgs
      simp only [List.length_cons]
      omega

theorem groups?_ne_nil (hne : ds ≠ []) : groups? ds ≠ some [] := by
  intro h
  cases ds with
  | nil => exact hne rfl
  | cons d ds =>
    rw [groups?] at h
    split at h
    · simp at h
    · obtain ⟨gs, _, heq⟩ := Option.bind_eq_some_iff.1 h
      cases gs <;> simp at heq

section Step
variable (pre piece) (h : digit? c = some d)
include h

/-- A digit that is continued leaves the field open and one digit longer. -/
theorem fieldsFrom_continued (hd : 32 ≤ d) (hlen : pre.length < 12) :
    fieldsFrom (amount pre) (5 * pre.length) (c :: piece) =
      fieldsFrom (amount (pre ++ [d])) (5 * (pre ++ [d]).length) piece := by
  have hlast : ¬ lastShift < 5 * pre.length + 5 := by
    change ¬ 60 < _
    omega
  have hshift : 5 * (pre ++ [d]).length = 5 * pre.length + 5 := by
    rw [List.length_append, List.length_singleton, Nat.mul_add]
  rw [fieldsFrom, h, hshift, amount_append]
  simp only [if_pos hd, if_neg hlast]

theorem fieldsFrom_overflow (hd : 32 ≤ d) (hlen : 12 ≤ pre.length) :
    fieldsFrom (amount pre) (5 * pre.length) (c :: piece) = .error .overflow := by
  have hlast : lastShift < 5 * pre.length + 5 := by
    change 60 < _
    omega
  rw [fieldsFrom, h]
  simp only [if_pos hd, if_pos hlast]

/-- A digit that is not continued closes the field, and the next one starts from nothing. -/
theorem fieldsFrom_closed (hd : d < 32) :
    fieldsFrom (amount pre) (5 * pre.length) (c :: piece) =
      (fieldsFrom (amount []) (5 * ([] : List Nat).length) piece).map fun r =>
        (fieldOf (amount (pre ++ [d])) :: r.1, r.2) := by
  rw [fieldsFrom, h, amount_append]
  simp only [if_neg (Nat.not_le.2 hd)]
  rfl

end Step

/-- The digits `pre` of an open field and those of a piece make complete fields of at most thirteen
digits, worth this in words. -/
def Spells (pre : List Nat) (piece : Text) (fs : List Int) : Prop :=
  ∃ ds gs, digits? piece = some ds ∧ groups? (pre ++ ds) = some gs ∧
    (∀ g ∈ gs, g.length ≤ 13) ∧ fs = gs.map fun g => fieldOf (amount g)

theorem spells_nil (hpre : ∀ d ∈ pre, 32 ≤ d) : Spells pre [] fs ↔ pre = [] ∧ fs = [] := by
  constructor
  · rintro ⟨ds, gs, hds, hgs, _, rfl⟩
    obtain rfl : [] = ds := Option.some.inj hds
    rw [List.append_nil] at hgs
    by_cases hnil : pre = []
    · subst hnil
      obtain rfl : [] = gs := Option.some.inj hgs
      exact ⟨rfl, rfl⟩
    · rw [groups?_continued hpre hnil] at hgs
      simp at hgs
  · rintro ⟨rfl, rfl⟩
    exact ⟨[], [], rfl, rfl, by simp, rfl⟩

theorem spells_continued (h : digit? c = some d) :
    Spells pre (c :: piece) fs ↔ Spells (pre ++ [d]) piece fs := by
  constructor
  · rintro ⟨ds, gs, hds, hgs, hrest⟩
    rw [digits?_cons h] at hds
    obtain ⟨ds', hds', rfl⟩ := Option.map_eq_some_iff.1 hds
    exact ⟨ds', gs, hds', by simpa using hgs, hrest⟩
  · rintro ⟨ds, gs, hds, hgs, hrest⟩
    exact ⟨d :: ds, gs, by rw [digits?_cons h, hds]; rfl, by simpa using hgs, hrest⟩

theorem spells_closed (hpre : ∀ d ∈ pre, 32 ≤ d) (hlen : pre.length ≤ 12) (h : digit? c = some d)
    (hd : d < 32) : Spells pre (c :: piece) fs ↔
      ∃ rest, Spells [] piece rest ∧ fs = fieldOf (amount (pre ++ [d])) :: rest := by
  constructor
  · rintro ⟨ds, gs, hds, hgs, hlength, rfl⟩
    rw [digits?_cons h] at hds
    obtain ⟨ds', hds', rfl⟩ := Option.map_eq_some_iff.1 hds
    rw [groups?_closed hpre hd] at hgs
    obtain ⟨gs', hgs', rfl⟩ := Option.map_eq_some_iff.1 hgs
    exact ⟨_, ⟨ds', gs', hds', hgs', fun g hg => hlength g (.tail _ hg), rfl⟩, rfl⟩
  · rintro ⟨rest, ⟨ds, gs, hds, hgs, hlength, rfl⟩, rfl⟩
    refine ⟨d :: ds, (pre ++ [d]) :: gs, by rw [digits?_cons h, hds]; rfl, ?_, ?_, rfl⟩
    · rw [List.nil_append] at hgs
      rw [groups?_closed hpre hd, hgs]
      rfl
    · intro g hg
      rcases List.mem_cons.1 hg with rfl | hg
      · rw [List.length_append, List.length_singleton]
        omega
      · exact hlength g hg

/-- Thirteen continued digits are too many for a field. -/
theorem not_spells_of_long (hpre : ∀ d ∈ pre, 32 ≤ d) (hlen : 13 ≤ pre.length) :
    ¬ Spells pre piece fs := by
  rintro ⟨ds, gs, _, hgs, hlength, _⟩
  cases gs with
  | nil =>
    refine groups?_ne_nil ?_ hgs
    intro hnil
    rw [(List.append_eq_nil_iff.1 hnil).1] at hlen
    simp at hlen
  | cons g gs =>
    have := length_lt_of_groups? hpre hgs
    have := hlength g List.mem_cons_self
    omega

/-- Reading in words accepts what is spelt, and nothing else. -/
theorem fieldsFrom_eq_ok_iff (hpre : ∀ d ∈ pre, 32 ≤ d) (hlen : pre.length ≤ 12) :
    fieldsFrom (amount pre) (5 * pre.length) piece = .ok (fs, true) ↔ Spells pre piece fs := by
  induction piece generalizing pre fs with
  | nil =>
    rw [fieldsFrom, spells_nil hpre]
    cases pre with
    | nil => simp [eq_comm]
    | cons d pre => simp
  | cons c piece ih =>
    cases hc : digit? c with
    | none => simp [fieldsFrom, Spells, digits?, List.mapM_cons, hc]
    | some d =>
      by_cases hd : 32 ≤ d
      · have hpre' : ∀ e ∈ pre ++ [d], 32 ≤ e := by
          intro e he
          rcases List.mem_append.1 he with he | he
          · exact hpre e he
          · exact List.mem_singleton.1 he ▸ hd
        have hlength : (pre ++ [d]).length = pre.length + 1 := List.length_append
        rw [spells_continued hc]
        by_cases hroom : pre.length < 12
        · rw [fieldsFrom_continued pre piece hc hd hroom]
          exact ih hpre' (by omega)
        · rw [fieldsFrom_overflow pre piece hc hd (by omega)]
          exact iff_of_false (by simp) (not_spells_of_long hpre' (by omega))
      · have hd : d < 32 := by omega
        rw [fieldsFrom_closed pre piece hc hd, except_map_eq_ok_iff, spells_closed hpre hlen hc hd]
        constructor
        · rintro ⟨⟨rest, closed⟩, hrest, heq⟩
          obtain ⟨rfl, rfl⟩ := Prod.mk.inj heq
          exact ⟨rest, (ih (by simp) (by simp)).1 hrest, rfl⟩
        · rintro ⟨rest, hrest, rfl⟩
          exact ⟨(rest, true), (ih (by simp) (by simp)).2 hrest, rfl⟩

/-- A piece is read when it is digits of complete fields, none of them with more than thirteen. -/
theorem fields_eq_ok_iff : fields piece = .ok fs ↔ Spells [] piece fs := by
  have h : fieldsFrom (amount []) (5 * ([] : List Nat).length) piece = .ok (fs, true) ↔
      Spells [] piece fs := fieldsFrom_eq_ok_iff (by simp) (by simp)
  rw [← h, fields]
  change _ ↔ fieldsFrom 0 0 piece = .ok (fs, true)
  cases fieldsFrom 0 0 piece with
  | error e => simp
  | ok r =>
    obtain ⟨fields, closed⟩ := r
    cases closed <;> simp

end Coverage.Mappings

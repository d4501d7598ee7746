import Coverage.Text.Bytes
import Mathlib.Data.List.Basic
import Mathlib.Data.List.Infix

/-! Cuts of a text at bytes. A cut between two characters is told by what is in front of it, and of two such
cuts the one with fewer bytes comes first. -/
namespace Coverage.Text

variable {t a b r x : Text} {n s e : Nat}

theorem splitAt_eq_splitOn (sep : Char) (t : Text) : splitAt sep t = t.splitOn sep := by
  induction t with
  | nil => rw [List.splitOn_nil]; rfl
  | cons c t ih =>
    rw [splitAt, List.foldr_cons, ← splitAt, ih, List.splitOn_cons_eq_if_modifyHead]
    simp only [beq_iff_eq]
    cases h : List.splitOn sep t with
    | nil => exact absurd h (List.splitOn_ne_nil sep t)
    | cons p ps => rfl

@[simp] theorem byteLength_eq_zero : byteLength t = 0 ↔ t = [] := by
  cases t with
  | nil => simp
  | cons c t =>
    have := c.utf8Size_pos
    rw [byteLength_cons]
    simp
    omega

theorem count_le_byteLength (c : Char) (t : Text) : t.count c ≤ byteLength t := by
  induction t with
  | nil => simp
  | cons d t ih =>
    have := d.utf8Size_pos
    rw [List.count_cons, byteLength_cons]
    split <;> omega

theorem byteLength_le_of_prefix (h : a <+: t) : byteLength a ≤ byteLength t := by
  obtain ⟨r, rfl⟩ := h
  rw [byteLength_append]
  exact Nat.le_add_right _ _

/-- Of two beginnings of a text the one with fewer bytes is the beginning of the other. -/
theorem prefix_of_byteLength_le (ha : a <+: t) (hb : b <+: t) (h : byteLength a ≤ byteLength b) :
    a <+: b := by
  rcases List.prefix_or_prefix_of_prefix ha hb with hab | ⟨r, rfl⟩
  · exact hab
  · have hr : r = [] := by
      rw [byteLength_append] at h
      exact byteLength_eq_zero.1 (by omega)
    rw [hr, List.append_nil]

/-- A number of bytes that ends between two characters. -/
def IsBoundary (t : Text) (n : Nat) : Prop := ∃ a b, t = a ++ b ∧ byteLength a = n

theorem dropBytes?_eq_some_iff : dropBytes? n t = some r ↔ ∃ a, t = a ++ r ∧ byteLength a = n := by
  fun_induction dropBytes? n t with
  | case1 t =>
    constructor
    · rintro ⟨⟩
      exact ⟨[], rfl, rfl⟩
    · rintro ⟨a, rfl, ha⟩
      rw [byteLength_eq_zero.1 ha, List.nil_append]
  | case2 n => simp
  | case3 n c t hle ih =>
    rw [ih]
    constructor
    · rintro ⟨a, rfl, ha⟩
      exact ⟨c :: a, rfl, by rw [byteLength_cons, ha, Nat.add_sub_of_le hle]⟩
    · rintro ⟨a, hta, ha⟩
      cases a with
      | nil => simp at ha
      | cons d a =>
        obtain ⟨rfl, rfl⟩ := List.cons.inj hta
        exact ⟨a, rfl, Nat.eq_sub_of_add_eq' (byteLength_cons.symm.trans ha)⟩
  | case4 n c t hgt =>
    simp only [reduceCtorEq, false_iff]
    rintro ⟨a, hta, ha⟩
    cases a with
    | nil => simp at ha
    | cons d a =>
      obtain ⟨rfl, rfl⟩ := List.cons.inj hta
      rw [byteLength_cons] at ha
      omega

theorem takeBytesOnto?_eq_some_iff {taken : Text} : takeBytesOnto? taken n t = some x ↔
    ∃ a r, t = a ++ r ∧ byteLength a = n ∧ x = taken.reverse ++ a := by
  fun_induction takeBytesOnto? taken n t with
  | case1 taken t =>
    constructor
    · rintro ⟨⟩
      exact ⟨[], t, rfl, rfl, (List.append_nil _).symm⟩
    · rintro ⟨a, r, rfl, ha, rfl⟩
      rw [byteLength_eq_zero.1 ha, List.append_nil]
  | case2 taken n => simp
  | case3 taken n c t hle ih =>
    rw [ih]
    constructor
    · rintro ⟨a, r, rfl, ha, rfl⟩
      exact ⟨c :: a, r, rfl, by rw [byteLength_cons, ha, Nat.add_sub_of_le hle], by simp⟩
    · rintro ⟨a, r, hta, ha, rfl⟩
      cases a with
      | nil => simp at ha
      | cons d a =>
        obtain ⟨rfl, rfl⟩ := List.cons.inj hta
        exact ⟨a, r, rfl, Nat.eq_sub_of_add_eq' (byteLength_cons.symm.trans ha), by simp⟩
  | case4 taken n c t hgt =>
    simp only [reduceCtorEq, false_iff]
    rintro ⟨a, r, hta, ha, -⟩
    cases a with
    | nil => simp at ha
    | cons d a =>
      obtain ⟨rfl, rfl⟩ := List.cons.inj hta
      rw [byteLength_cons] at ha
      omega

theorem takeBytes?_eq_some_iff : takeBytes? n t = some x ↔ ∃ r, t = x ++ r ∧ byteLength x = n := by
  rw [takeBytes?, takeBytesOnto?_eq_some_iff]
  constructor
  · rintro ⟨a, r, rfl, ha, rfl⟩
    exact ⟨r, rfl, ha⟩
  · rintro ⟨r, rfl, hx⟩
    exact ⟨x, r, rfl, hx, rfl⟩

/-- The text between two bytes is what stands behind the first and ends at the second. -/
theorem slice?_eq_some_iff : t.slice? s e = some x ↔
    ∃ a b, t = a ++ x ++ b ∧ byteLength a = s ∧ byteLength a + byteLength x = e := by
  rw [slice?]
  constructor
  · intro h
    split at h
    · next hle =>
      obtain ⟨r, hr, hx⟩ := Option.bind_eq_some_iff.1 h
      obtain ⟨a, rfl, ha⟩ := dropBytes?_eq_some_iff.1 hr
      obtain ⟨b, rfl, hb⟩ := takeBytes?_eq_some_iff.1 hx
      exact ⟨a, b, (List.append_assoc a x b).symm, ha, by omega⟩
    · cases h
  · rintro ⟨a, b, rfl, rfl, rfl⟩
    rw [if_pos (Nat.le_add_right _ _), Option.bind_eq_some_iff]
    refine ⟨x ++ b, dropBytes?_eq_some_iff.2 ⟨a, List.append_assoc a x b, rfl⟩, ?_⟩
    exact takeBytes?_eq_some_iff.2 ⟨b, rfl, by omega⟩

end Coverage.Text

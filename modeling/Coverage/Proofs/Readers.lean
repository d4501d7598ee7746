import Mathlib.Data.List.Forall2

/-! Readers that may fail, over all elements of a list or one behind the other. -/
namespace Coverage

variable {α β : Type}

theorem except_map_eq_ok_iff {ε : Type} {f : α → β} {x : Except ε α} {b : β} :
    x.map f = .ok b ↔ ∃ a, x = .ok a ∧ f a = b := by
  cases x with
  | error e => simp [Except.map]
  | ok a => simp [Except.map]

theorem mapM_eq_some_iff {g : α → Option β} {l : List α} {r : List β} :
    l.mapM g = some r ↔ List.Forall₂ (fun a b => g a = some b) l r := by
  induction l generalizing r with
  | nil => simp [eq_comm]
  | cons a l ih =>
    simp only [List.mapM_cons, Option.bind_eq_bind, Option.bind_eq_some_iff, ih,
      List.forall₂_cons_left_iff, Option.pure_def, Option.some.injEq]
    exact exists_congr fun b => by grind

theorem mapM_bind_mapM {γ : Type} (f : α → Option β) (g : β → Option γ) (l : List α) :
    (l.mapM f).bind (·.mapM g) = l.mapM fun a => (f a).bind g := by
  induction l with
  | nil => rfl
  | cons a l ih =>
    rw [List.mapM_cons, List.mapM_cons, ← ih]
    cases f a with
    | none => rfl
    | some b =>
      cases l.mapM f with
      | none => cases hb : g b <;> simp [hb]
      | some r => simp

theorem forall₂_congr_of_mem {R S : α → β → Prop} {l : List α} {r : List β}
    (h : ∀ a ∈ l, ∀ b, R a b ↔ S a b) : List.Forall₂ R l r ↔ List.Forall₂ S l r := by
  simp only [List.forall₂_iff_zip]
  refine and_congr_right fun _ => ⟨fun hall a b hab => ?_, fun hall a b hab => ?_⟩
  · exact (h a (List.of_mem_zip hab).1 b).1 (hall hab)
  · exact (h a (List.of_mem_zip hab).1 b).2 (hall hab)

end Coverage

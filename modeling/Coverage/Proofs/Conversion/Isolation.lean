import Coverage.Proofs.Conversion.Ledger
import Mathlib.Data.List.Forall2

/-! A task cannot change what becomes of the others. Two pools that differ in one task alone can do the
same, step by step, and answer all other tasks alike. -/
namespace Coverage.Conversion

/-- The same, except that what belongs to the ticket `n` may differ in all but the ticket. -/
def AlikeBut {α : Type} (ticket : α → Nat) (n : Nat) (a b : α) : Prop :=
  ticket a = ticket b ∧ (ticket a ≠ n → a = b)

namespace AlikeBut
variable {α : Type} {ticket : α → Nat} {n m : Nat} {a b : α} {l k : List α}

theorem rfl : AlikeBut ticket n a a := ⟨Eq.refl _, fun _ => Eq.refl _⟩

theorem of_ticket (ha : ticket a = n) (hb : ticket b = n) : AlikeBut ticket n a b :=
  ⟨ha.trans hb.symm, fun hn => absurd ha hn⟩

theorem forall₂_rfl (l : List α) : List.Forall₂ (AlikeBut ticket n) l l :=
  List.forall₂_same.2 fun _ _ => rfl

theorem find? (h : List.Forall₂ (AlikeBut ticket n) l k) (m : Nat) :
    Option.Rel (AlikeBut ticket n) (l.find? (ticket · == m)) (k.find? (ticket · == m)) := by
  induction h with
  | nil => exact .none
  | cons hab _ ih =>
    rw [List.find?_cons, List.find?_cons, ← hab.1]
    split
    · exact .some hab
    · exact ih

theorem eraseP (h : List.Forall₂ (AlikeBut ticket n) l k) (m : Nat) :
    List.Forall₂ (AlikeBut ticket n) (l.eraseP (ticket · == m)) (k.eraseP (ticket · == m)) := by
  induction h with
  | nil => exact .nil
  | @cons a b _ _ hab hrest ih =>
    rw [List.eraseP_cons, List.eraseP_cons, ← hab.1]
    cases ticket a == m with
    | true => exact hrest
    | false => exact .cons hab ih

theorem lookup {β : Type} {l k : List (Nat × β)} (h : List.Forall₂ (AlikeBut Prod.fst n) l k)
    (m : Nat) : (l.lookup m).isSome = (k.lookup m).isSome ∧ (m ≠ n → l.lookup m = k.lookup m) := by
  induction h with
  | nil => exact ⟨Eq.refl _, fun _ => Eq.refl _⟩
  | @cons a b _ _ hab _ ih =>
    rw [List.lookup_cons, List.lookup_cons, ← hab.1]
    cases hm : m == a.1 with
    | true =>
      refine ⟨Eq.refl _, fun hn => ?_⟩
      rw [hab.2 (beq_iff_eq.1 hm ▸ hn)]
    | false => exact ih

end AlikeBut

namespace Pool
variable {p p' q q' s : Pool} {e : Event} {events before after : List Event} {n m : Nat} {t t' : Task}
  {mapper mapper' : Mapper}

/-- Pools that differ in the task with the ticket `n` and its reply, and in nothing else. -/
structure Alike (n : Nat) (p q : Pool) : Prop where
  size : p.size = q.size
  jobs : List.Forall₂ (AlikeBut Job.ticket n) p.jobs q.jobs
  queue : List.Forall₂ (AlikeBut Job.ticket n) p.queue q.queue
  running : List.Forall₂ (AlikeBut Job.ticket n) p.running q.running
  inline : List.Forall₂ (AlikeBut Job.ticket n) p.inline q.inline
  begun : List.Forall₂ (AlikeBut Job.ticket n) p.begun q.begun
  replies : List.Forall₂ (AlikeBut Prod.fst n) p.replies q.replies
  handles : p.handles = q.handles
  terminated : p.terminated = q.terminated
  gone : p.gone = q.gone
  terminations : p.terminations = q.terminations
  returned : p.returned = q.returned

namespace Alike

theorem rfl : Alike n p p := by
  constructor <;> first | exact AlikeBut.forall₂_rfl _ | exact Eq.refl _

theorem isSome_reply? (h : Alike n p q) (m : Nat) : (p.reply? m).isSome = (q.reply? m).isSome :=
  (AlikeBut.lookup h.replies m).1

theorem accepted_eq (h : Alike n p q) : p.accepted = q.accepted := h.jobs.length_eq

theorem nextJob (h : Alike n p q) (t : Task) (mapper : Mapper) :
    p.nextJob t mapper = q.nextJob t mapper := by
  rw [Pool.nextJob, Pool.nextJob, h.accepted_eq]

theorem converting (h : Alike n p q) :
    List.Forall₂ (AlikeBut Job.ticket n) p.converting q.converting :=
  List.rel_append h.running h.inline

theorem find? (h : Alike n p q) (m : Nat) :
    Option.Rel (AlikeBut Job.ticket n) (p.find? m) (q.find? m) :=
  AlikeBut.find? h.converting m

/-- The same events are possible in both. -/
theorem step [Syntax.Parser] (h : Alike n p p') (hs : Step p e q) : ∃ q', Step p' e q' ∧ Alike n q q' := by
  cases hs with
  | refuse hclosed => exact ⟨p', .refuse (h.terminated ▸ hclosed), h⟩
  | @convert t mapper hopen hsize =>
    refine ⟨_, .convert (h.terminated ▸ hopen) (h.size ▸ hsize), ?_⟩
    rw [h.nextJob, h.accepted_eq]
    exact { h with
      jobs := List.rel_append h.jobs (AlikeBut.forall₂_rfl _)
      inline := List.rel_append h.inline (AlikeBut.forall₂_rfl _)
      begun := List.rel_append h.begun (AlikeBut.forall₂_rfl _)
      handles := by rw [h.handles] }
  | @enqueue t mapper hopen hsize =>
    refine ⟨_, .enqueue (h.terminated ▸ hopen) (h.size ▸ hsize), ?_⟩
    rw [h.nextJob, h.accepted_eq]
    exact { h with
      jobs := List.rel_append h.jobs (AlikeBut.forall₂_rfl _)
      queue := List.rel_append h.queue (AlikeBut.forall₂_rfl _)
      handles := by rw [h.handles] }
  | @dispatch j rest hqueue hopen hfree =>
    have hq := h.queue
    rw [hqueue] at hq
    cases hq' : p'.queue with
    | nil => simp [hq'] at hq
    | cons j' rest' =>
      rw [hq', List.forall₂_cons] at hq
      refine ⟨_, .dispatch hq' (h.terminated ▸ hopen) ?_, ?_⟩
      · rw [active, ← h.running.length_eq, ← h.size]
        exact hfree
      · exact { h with
          queue := hq.2
          running := List.rel_append h.running (.cons hq.1 .nil)
          begun := List.rel_append h.begun (.cons hq.1 .nil) }
  | @finish m t j hj =>
    have hfind := h.find? m
    rw [hj] at hfind
    cases hj' : p'.find? m with
    | none =>
      rw [hj'] at hfind
      cases hfind
    | some j' =>
      rw [hj'] at hfind
      cases hfind with
      | some hjj =>
        refine ⟨_, .finish hj', { h with
          running := AlikeBut.eraseP h.running m, inline := AlikeBut.eraseP h.inline m
          replies := List.rel_append h.replies (.cons ⟨Eq.refl _, fun hn => ?_⟩ .nil) }⟩
        rw [hjj.2 (ticket_of_find? hj ▸ hn)]
  | terminate =>
    refine ⟨_, .terminate, { h with
      queue := .nil, terminated := Eq.refl _
      terminations := by rw [Pool.terminate, Pool.terminate, h.terminations]
      replies := List.rel_append h.replies ?_ }⟩
    rw [List.forall₂_map_left_iff, List.forall₂_map_right_iff]
    exact h.queue.imp fun j j' hjj => ⟨hjj.1, fun hn => by rw [hjj.2 hn]⟩
  | leave hclosed hfree =>
    refine ⟨_, .leave (h.terminated ▸ hclosed) ?_, { h with gone := by rw [h.gone] }⟩
    rw [active, ← h.running.length_eq, ← h.gone, ← h.size]
    exact hfree
  | join hcalled hwaited =>
    refine ⟨_, .join ?_ ?_, { h with returned := by rw [h.returned] }⟩
    · rw [← h.returned, ← h.terminations]
      exact hcalled
    · rw [← h.returned, ← h.terminations, ← h.gone, ← h.size]
      exact hwaited
  | @receive m r hm hr =>
    obtain ⟨r', hr'⟩ := Option.isSome_iff_exists.1 ((h.isSome_reply? m).symm.trans (by rw [hr]; rfl))
    exact ⟨_, .receive (h.handles ▸ hm) hr', { h with handles := by rw [h.handles] }⟩
  | @drop m hm => exact ⟨_, .drop (h.handles ▸ hm), { h with handles := by rw [h.handles] }⟩

theorem run [Syntax.Parser] (h : Alike n p p') (hq : p.run? events = some q) :
    ∃ q', p'.run? events = some q' ∧ Alike n q q' := by
  induction events generalizing p p' with
  | nil =>
    cases hq
    exact ⟨p', Eq.refl _, h⟩
  | cons e events ih =>
    obtain ⟨s, hs, hrest⟩ := run?_cons_eq_some_iff.1 hq
    obtain ⟨s', hs', hss⟩ := h.step (step_of_step? hs)
    obtain ⟨q', hq', hqq⟩ := ih hss hrest
    exact ⟨q', run?_cons_eq_some_iff.2 ⟨s', step?_of_step hs', hq'⟩, hqq⟩

/-- Pools that were alike until different tasks were submitted differ in that task alone. -/
theorem submit [Syntax.Parser] (p : Pool) (t t' : Task) (mapper mapper' : Mapper) :
    ∃ q q', p.step? (.submit t mapper) = some q ∧ p.step? (.submit t' mapper') = some q' ∧
      Alike p.accepted q q' := by
  have hjob : List.Forall₂ (AlikeBut Job.ticket p.accepted) [p.nextJob t mapper]
      [p.nextJob t' mapper'] :=
    .cons (.of_ticket (Eq.refl _) (Eq.refl _)) .nil
  cases hclosed : p.terminated with
  | true =>
    exact ⟨p, p, step?_submit_of_terminated hclosed _ _, step?_submit_of_terminated hclosed _ _, .rfl⟩
  | false =>
    rcases Nat.eq_zero_or_pos p.size with hsize | hsize
    · exact ⟨_, _, step?_of_step (.convert hclosed hsize), step?_of_step (.convert hclosed hsize),
        { (Alike.rfl : Alike p.accepted p p) with
          jobs := List.rel_append (AlikeBut.forall₂_rfl _) hjob
          inline := List.rel_append (AlikeBut.forall₂_rfl _) hjob
          begun := List.rel_append (AlikeBut.forall₂_rfl _) hjob
          handles := Eq.refl _ }⟩
    · exact ⟨_, _, step?_of_step (.enqueue hclosed hsize), step?_of_step (.enqueue hclosed hsize),
        { (Alike.rfl : Alike p.accepted p p) with
          jobs := List.rel_append (AlikeBut.forall₂_rfl _) hjob
          queue := List.rel_append (AlikeBut.forall₂_rfl _) hjob
          handles := Eq.refl _ }⟩

end Alike

end Pool
end Coverage.Conversion

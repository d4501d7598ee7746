import Coverage.Conversion.Pool
import Mathlib.Data.List.Infix

/-! What one event does to a pool, with one constructor for each kind of event, and what no event takes
back. Runs inherit both from their events. -/
namespace Coverage.Conversion.Pool
variable {p q s : Pool} {e : Event} {events before after : List Event} {n : Nat} {r : Reply}
  {t : Task} {mapper : Mapper}

/-- What no event takes back. In a terminated pool nothing is accepted or begun any more. -/
structure Follows (p q : Pool) : Prop where
  size : q.size = p.size
  jobs : p.jobs <+: q.jobs
  begun : p.begun <+: q.begun
  replies : p.replies <+: q.replies
  terminated : p.terminated = true → q.terminated = true
  closed : p.terminated = true → q.jobs = p.jobs ∧ q.begun = p.begun

theorem Follows.rfl : Follows p p :=
  ⟨Eq.refl _, List.prefix_rfl, List.prefix_rfl, List.prefix_rfl, id, fun _ => ⟨Eq.refl _, Eq.refl _⟩⟩

theorem Follows.trans (h : Follows p q) (h' : Follows q s) : Follows p s where
  size := h'.size.trans h.size
  jobs := h.jobs.trans h'.jobs
  begun := h.begun.trans h'.begun
  replies := h.replies.trans h'.replies
  terminated hp := h'.terminated (h.terminated hp)
  closed hp := by
    obtain ⟨hjobs, hbegun⟩ := h'.closed (h.terminated hp)
    rw [hjobs, hbegun]
    exact h.closed hp

theorem Follows.open (h : Follows p q) (hopen : q.terminated = false) : p.terminated = false := by
  by_contra hclosed
  rw [h.terminated (by simpa using hclosed)] at hopen
  cases hopen

/-- A reply stays what it is. -/
theorem Follows.reply? (h : Follows p q) (hr : p.reply? n = some r) : q.reply? n = some r := by
  obtain ⟨new, hnew⟩ := h.replies
  rw [Pool.reply?, ← hnew, List.lookup_append, show p.replies.lookup n = some r from hr]
  rfl

theorem submit_of_terminated (h : p.terminated = true) (t : Task) (mapper : Mapper) :
    p.submit t mapper = .error .poolTerminated := by
  rw [submit, if_pos h]

variable [Syntax.Parser]

inductive Step (p : Pool) : Event → Pool → Prop
  | refuse {t : Task} {mapper : Mapper} (hclosed : p.terminated = true) :
    Step p (.submit t mapper) p
  | convert {t : Task} {mapper : Mapper} (hopen : p.terminated = false) (hsize : p.size = 0) :
    Step p (.submit t mapper) { p with
      jobs := p.jobs ++ [p.nextJob t mapper], handles := p.handles ++ [p.accepted]
      inline := p.inline ++ [p.nextJob t mapper], begun := p.begun ++ [p.nextJob t mapper] }
  | enqueue {t : Task} {mapper : Mapper} (hopen : p.terminated = false) (hsize : 0 < p.size) :
    Step p (.submit t mapper) { p with
      jobs := p.jobs ++ [p.nextJob t mapper], handles := p.handles ++ [p.accepted]
      queue := p.queue ++ [p.nextJob t mapper] }
  | dispatch {j : Job} {rest : List Job} (hqueue : p.queue = j :: rest)
      (hopen : p.terminated = false) (hfree : p.active < p.size) :
    Step p .dispatch { p with
      queue := rest, running := p.running ++ [j], begun := p.begun ++ [j] }
  | finish {n : Nat} {elapsed : Timings} {j : Job} (hj : p.find? n = some j) :
    Step p (.finish n elapsed) { p with
      running := without n p.running, inline := without n p.inline
      replies := p.replies ++ [(n, j.reply elapsed)] }
  | terminate : Step p .terminate p.terminate
  | leave (hclosed : p.terminated = true) (hfree : p.active + p.gone < p.size) :
    Step p .leave { p with gone := p.gone + 1 }
  | join (hcalled : p.returned < p.terminations)
      (hwaited : p.gone = p.size ∨ p.returned + 1 < p.terminations) :
    Step p .join { p with returned := p.returned + 1 }
  | receive {n : Nat} {r : Reply} (hn : n ∈ p.handles) (hr : p.reply? n = some r) :
    Step p (.receive n) { p with handles := p.handles.erase n }
  | drop {n : Nat} (hn : n ∈ p.handles) :
    Step p (.drop n) { p with handles := p.handles.erase n }

theorem step?_submit_of_terminated (h : p.terminated = true) (t : Task) (mapper : Mapper) :
    p.step? (.submit t mapper) = some p := by
  rw [step?, submit_of_terminated h]
  rfl

theorem step_submit (p : Pool) (t : Task) (mapper : Mapper) :
    Step p (.submit t mapper) ((p.submit t mapper).toOption.getD p) := by
  cases hclosed : p.terminated with
  | true =>
    rw [submit_of_terminated hclosed]
    exact .refuse hclosed
  | false =>
    rcases Nat.eq_zero_or_pos p.size with hsize | hsize
    · simpa [submit, hclosed, isSingleThreaded, hsize, Except.toOption] using
        @Step.convert _ p t mapper hclosed hsize
    · simpa [submit, hclosed, isSingleThreaded, hsize.ne', Except.toOption] using
        @Step.enqueue _ p t mapper hclosed hsize

theorem step_of_step? (h : p.step? e = some q) : Step p e q := by
  cases e with
  | submit t mapper =>
    cases h
    exact step_submit p t mapper
  | dispatch =>
    simp only [step?, dispatch?] at h
    split at h
    · cases h
    · next j rest hqueue =>
      split at h
      · next hguard =>
        cases h
        simp only [Bool.and_eq_true, Bool.not_eq_true', decide_eq_true_eq] at hguard
        exact .dispatch hqueue hguard.1 hguard.2
      · cases h
  | finish n elapsed =>
    obtain ⟨j, hj, rfl⟩ := Option.map_eq_some_iff.1 h
    exact .finish hj
  | terminate =>
    cases h
    exact .terminate
  | leave =>
    simp only [step?, leave?] at h
    split at h
    · next hguard =>
      cases h
      simp only [Bool.and_eq_true, decide_eq_true_eq] at hguard
      exact .leave hguard.1 hguard.2
    · cases h
  | join =>
    simp only [step?, join?] at h
    split at h
    · next hguard =>
      cases h
      simp only [Bool.and_eq_true, Bool.or_eq_true, beq_iff_eq, decide_eq_true_eq] at hguard
      exact .join hguard.1 hguard.2
    · cases h
  | receive n =>
    simp only [step?, receive?] at h
    split at h
    · next hn =>
      simp only [Option.map_map, Option.map_eq_some_iff] at h
      obtain ⟨r, hr, rfl⟩ := h
      exact .receive hn hr
    · cases h
  | drop n =>
    simp only [step?, drop?] at h
    split at h
    · next hn =>
      cases h
      exact .drop hn
    · cases h

theorem step?_of_step (h : Step p e q) : p.step? e = some q := by
  cases h with
  | refuse hclosed => exact step?_submit_of_terminated hclosed _ _
  | convert hopen hsize => simp [step?, submit, hopen, isSingleThreaded, hsize, Except.toOption]
  | enqueue hopen hsize => simp [step?, submit, hopen, isSingleThreaded, hsize.ne', Except.toOption]
  | dispatch hqueue hopen hfree => simp [step?, dispatch?, hqueue, hopen, hfree]
  | finish hj => simp [step?, finish?, hj]
  | terminate => rfl
  | leave hclosed hfree => simp [step?, leave?, hclosed, hfree]
  | join hcalled hwaited => simp [step?, join?, hcalled, hwaited]
  | receive hn hr => simp [step?, receive?, hn, hr]
  | drop hn => simp [step?, drop?, hn]

@[simp] theorem run?_nil (p : Pool) : p.run? [] = some p := rfl

theorem run?_cons (p : Pool) (e : Event) (l : List Event) :
    p.run? (e :: l) = (p.step? e).bind (·.run? l) := rfl

theorem run?_append (p : Pool) (l l' : List Event) :
    p.run? (l ++ l') = (p.run? l).bind (·.run? l') :=
  List.foldlM_append

/-- A run goes on from the pool after its first part. -/
theorem run?_append_eq_some_iff :
    p.run? (before ++ after) = some q ↔ ∃ s, p.run? before = some s ∧ s.run? after = some q := by
  rw [run?_append, Option.bind_eq_some_iff]

theorem run?_cons_eq_some_iff :
    p.run? (e :: events) = some q ↔ ∃ s, p.step? e = some s ∧ s.run? events = some q := by
  rw [run?_cons, Option.bind_eq_some_iff]

theorem run?_concat_eq_some_iff :
    p.run? (events ++ [e]) = some q ↔ ∃ s, p.run? events = some s ∧ s.step? e = some q := by
  simp [run?_append_eq_some_iff, run?_cons_eq_some_iff]

/-- What every event keeps holds after a run. -/
theorem run_keeps {P : Pool → Prop} (hstep : ∀ p e q, Step p e q → P p → P q)
    (h : p.run? events = some q) (hp : P p) : P q := by
  induction events generalizing p with
  | nil =>
    cases h
    exact hp
  | cons e events ih =>
    obtain ⟨s, hs, hq⟩ := run?_cons_eq_some_iff.1 h
    exact ih hq (hstep p e s (step_of_step? hs) hp)

theorem follows_of_step (h : Step p e q) : Follows p q := by
  cases h with
  | refuse => exact .rfl
  | convert hopen => constructor <;> simp [hopen]
  | enqueue hopen => constructor <;> simp [hopen]
  | dispatch _ hopen => constructor <;> simp [hopen]
  | terminate => constructor <;> simp [Pool.terminate]
  | finish => constructor <;> simp
  | leave => constructor <;> simp
  | join => constructor <;> simp
  | receive => constructor <;> simp
  | drop => constructor <;> simp

theorem follows_of_run (h : p.run? events = some q) : Follows p q :=
  run_keeps (P := Follows p) (fun _ _ _ hs hp => hp.trans (follows_of_step hs)) h .rfl

end Coverage.Conversion.Pool

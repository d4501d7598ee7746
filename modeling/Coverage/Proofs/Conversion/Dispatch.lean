import Coverage.Conversion.Batch
import Coverage.Proofs.Conversion.History
import Coverage.Proofs.Conversion.Progress
import Coverage.Syntax.Program

/-! The order in which conversions begin, and what is left of a pool once it has been terminated. A pool
without workers has no order to keep: it carries out each task within its submission. -/
namespace Coverage.Conversion
namespace Batch
variable {p : Pool} {pace : Pace} {t : Task} {mapper : Mapper}

theorem submit_of_terminated (h : p.terminated = true) (t : Task) (mapper : Mapper) :
    submit mapper p t = (p, ⟨t.url, .error .poolTerminated⟩) := by
  rw [submit, Pool.submit_of_terminated h]

/-- An accepted task gets the next ticket. -/
theorem submit_of_open (h : p.terminated = false) (t : Task) (mapper : Mapper) :
    (submit mapper p t).2 = ⟨t.url, .ok p.accepted⟩ ∧
      (submit mapper p t).1.jobs = p.jobs ++ [p.nextJob t mapper] := by
  rw [submit, Pool.submit, if_neg (by simp [h])]
  by_cases hsize : p.isSingleThreaded = true
  · rw [if_pos hsize]
    exact ⟨rfl, rfl⟩
  · rw [if_neg hsize]
    exact ⟨rfl, rfl⟩

theorem getElem?_jobs_of_open {q : Pool} (h : p.terminated = false)
    (hq : Pool.Follows (submit mapper p t).1 q) : q.jobs[p.accepted]? = some (p.nextJob t mapper) := by
  obtain ⟨later, hlater⟩ := hq.jobs
  rw [← hlater, (submit_of_open h t mapper).2, Pool.accepted]
  simp

variable [Syntax.Parser]

/-- What is performed is a run of the events that were possible. -/
theorem exists_run_perform (events : List Event) (p : Pool) :
    ∃ possible, p.run? possible = some (events.foldl perform p) := by
  induction events generalizing p with
  | nil => exact ⟨[], rfl⟩
  | cons e events ih =>
    obtain ⟨possible, hrun⟩ := ih (perform p e)
    cases he : p.step? e with
    | none =>
      have hp : perform p e = p := by rw [perform, he]; rfl
      exact ⟨possible, by rw [hp] at hrun; rwa [List.foldl_cons, hp]⟩
    | some q =>
      have hq : perform p e = q := by rw [perform, he]; rfl
      rw [hq] at hrun
      exact ⟨e :: possible, Pool.run?_cons_eq_some_iff.2 ⟨q, he, by rwa [List.foldl_cons, hq]⟩⟩

theorem exists_run_returned (pace : Pace) (p : Pool) :
    ∃ events, p.run? events = some (returned pace p) := by
  rw [returned]
  split
  · obtain ⟨events, -, hrun⟩ := Pool.run?_settle pace p
    exact ⟨events, hrun⟩
  · exact ⟨[], rfl⟩

theorem step?_submit (mapper : Mapper) (p : Pool) (t : Task) :
    p.step? (.submit t mapper) = some (submit mapper p t).1 := by
  rw [Pool.step?, submit]
  cases p.submit t mapper <;> rfl

theorem reachable_of_submit {q : Pool} {events : List Event} (h : p.Reachable)
    (hq : (submit mapper p t).1.run? events = some q) : q.Reachable :=
  h.of_run (Pool.run?_cons_eq_some_iff.2 ⟨_, step?_submit mapper p t, hq⟩)

theorem call_eq (pace : Pace) (p : Pool) (during : List Event) (t : Task) (mapper : Mapper) :
    call pace p during t mapper =
      (returned pace (during.foldl perform (submit mapper p t).1), (submit mapper p t).2) := rfl

theorem exists_run_call (pace : Pace) (p : Pool) (during : List Event) (t : Task) (mapper : Mapper) :
    ∃ events, (submit mapper p t).1.run? events = some (call pace p during t mapper).1 := by
  obtain ⟨before, hbefore⟩ := exists_run_perform during (submit mapper p t).1
  obtain ⟨after, hafter⟩ := exists_run_returned pace (during.foldl perform (submit mapper p t).1)
  exact ⟨before ++ after, Pool.run?_append_eq_some_iff.2 ⟨_, hbefore, hafter⟩⟩

theorem follows_submit (mapper : Mapper) (p : Pool) (t : Task) :
    Pool.Follows p (submit mapper p t).1 :=
  Pool.follows_of_step (Pool.step_of_step? (step?_submit mapper p t))

theorem follows_call (pace : Pace) (p : Pool) (during : List Event) (t : Task) (mapper : Mapper) :
    Pool.Follows p (call pace p during t mapper).1 := by
  obtain ⟨events, hrun⟩ := exists_run_call pace p during t mapper
  exact (follows_submit mapper p t).trans (Pool.follows_of_run hrun)

/-- Without workers a call ends when nothing is left that could be carried out. -/
theorem call_of_single (h : p.size = 0) (pace : Pace) (during : List Event) (t : Task)
    (mapper : Mapper) : call pace p during t mapper =
      ((during.foldl perform (submit mapper p t).1).settle pace, (submit mapper p t).2) := by
  obtain ⟨possible, hrun⟩ := exists_run_perform during (submit mapper p t).1
  have hsize : (during.foldl perform (submit mapper p t).1).size = 0 :=
    (Pool.follows_of_run hrun).size.trans ((follows_submit mapper p t).size.trans h)
  have hsingle : (during.foldl perform (submit mapper p t).1).isSingleThreaded = true := by
    rw [Pool.isSingleThreaded, hsize, beq_self_eq_true]
  rw [call_eq, returned, if_pos hsingle]

end Batch

namespace Pool

section Run
variable [Syntax.Parser] {p q : Pool} {e : Event} {events : List Event} {size : Nat}

/-- A conversion begins when a worker takes the front of the queue, or else within a submission. -/
theorem begun_of_step (h : Step p e q) : q.begun = p.begun ∨
    (∃ j, e = .dispatch ∧ p.queue = j :: q.queue ∧ q.running = p.running ++ [j] ∧
      q.begun = p.begun ++ [j]) ∨
    p.size = 0 ∧ ∃ t mapper, e = .submit t mapper ∧ q.begun = p.begun ++ [p.nextJob t mapper] := by
  cases h with
  | @dispatch j rest hqueue => exact .inr (.inl ⟨j, rfl, hqueue, rfl, rfl⟩)
  | convert _ hsize => exact .inr (.inr ⟨hsize, _, _, rfl, rfl⟩)
  | _ => exact .inl rfl

theorem begun_prefix_accepted (h : (start size).run? events = some p) :
    p.begun.map Job.work <+: Event.accepted events := by
  obtain ⟨_, _, hl⟩ := exists_ledger h
  rw [← work_of_run h, hl.jobs, List.map_append]
  exact List.prefix_append _ _

/-- What is left of a pool: whatever is done with it, nothing is accepted or begun any more. -/
structure Over (p q : Pool) : Prop where
  terminated : q.terminated = true
  queue : q.queue = []
  jobs : q.jobs = p.jobs
  begun : q.begun = p.begun
  refuses : ∀ t mapper, q.submit t mapper = .error .poolTerminated
  unchanged : ∀ t mapper, q.step? (.submit t mapper) = some q

theorem over_of_run {more : List Event} (h : (start size).run? events = some p)
    (hclosed : p.terminated = true) (hq : p.run? more = some q) : Over p q := by
  obtain ⟨_, _, hl⟩ := exists_ledger (run?_append_eq_some_iff.2 ⟨p, h, hq⟩)
  have hfollows := follows_of_run hq
  have hterminated := hfollows.terminated hclosed
  obtain ⟨hjobs, hbegun⟩ := hfollows.closed hclosed
  exact {
    terminated := hterminated
    queue := hl.closed hterminated
    jobs := hjobs
    begun := hbegun
    refuses := submit_of_terminated hterminated
    unchanged := step?_submit_of_terminated hterminated }

/-- Without workers a call of `submit` comes back with the reply, whatever goes on in the meantime. -/
theorem reply?_of_inline_call {pace : Pace} (h : p.Reachable) (hsize : p.size = 0)
    (hopen : p.terminated = false) (hholds : pace.holds p.accepted = false) (during : List Event)
    (t : Task) (mapper : Mapper) :
    ∃ q elapsed, Batch.call pace p during t mapper = (q, ⟨t.url, .ok p.accepted⟩) ∧
      q.reply? p.accepted = some (t.reply mapper elapsed) := by
  obtain ⟨events, hrun⟩ := Batch.exists_run_call pace p during t mapper
  have hticket := (Batch.submit_of_open hopen t mapper).1
  rw [Batch.call_of_single hsize] at hrun ⊢
  obtain ⟨_, _, hl⟩ := (Batch.reachable_of_submit h hrun).exists_ledger
  have hjob := Batch.getElem?_jobs_of_open hopen (follows_of_run hrun)
  have hqsize := (follows_of_run hrun).size.trans ((Batch.follows_submit mapper p t).size.trans hsize)
  have hanswered := hl.isSome_reply?_settle (fun hpos => absurd hqsize hpos.ne')
    (List.getElem?_eq_some_iff.1 hjob).1 hholds
  obtain ⟨r, hr⟩ := Option.isSome_iff_exists.1 hanswered
  rcases hl.reply?_cases hjob hr with ⟨-, elapsed, rfl⟩ | ⟨hnone, -⟩
  · exact ⟨_, elapsed, by rw [hticket], hr⟩
  · rw [hl.begun_eq_jobs hqsize] at hnone
    exact absurd (List.getElem?_eq_some_iff.1 hjob).1 hnone.not_gt

theorem terminated_of_run (h : p.run? events = some q) :
    q.terminated = (p.terminated || events.any Event.isTerminate) := by
  induction events generalizing p with
  | nil =>
    cases h
    simp
  | cons e events ih =>
    obtain ⟨s, hs, hq⟩ := run?_cons_eq_some_iff.1 h
    rw [ih hq, List.any_cons, ← Bool.or_assoc]
    congr 1
    cases hp : p.terminated with
    | true => exact (follows_of_step (step_of_step? hs)).terminated hp
    | false => exact (work_of_step (step_of_step? hs) hp).2

/-- How a pool that some events have led to hands out its tasks. -/
structure Orderly (size : Nat) (events : List Event) (p : Pool) : Prop where
  /-- What is submitted before the end of the pool is accepted, and the rest is not. -/
  accepted : p.jobs.map Job.work = Event.accepted events
  terminated : p.terminated = events.any Event.isTerminate
  /-- Conversions begin in the order of the submissions, and none is passed over. -/
  inOrder : p.begun.map Job.work <+: Event.accepted events
  begins : ∀ e q, p.step? e = some q → q.begun = p.begun ∨
    (∃ j, e = .dispatch ∧ p.queue = j :: q.queue ∧ q.running = p.running ++ [j] ∧
      q.begun = p.begun ++ [j]) ∨
    size = 0 ∧ ∃ t mapper, e = .submit t mapper ∧ q.begun = p.begun ++ [p.nextJob t mapper]
  closed : p.terminated = true → ∀ more q, p.run? more = some q → Over p q
  /-- Without workers a call of `submit` is refused at once or comes back with the reply. -/
  inline : size = 0 → p.terminated = false → ∀ (pace : Pace) during t mapper,
    pace.holds p.accepted = false →
      ∃ q elapsed, Batch.call pace p during t mapper = (q, ⟨t.url, .ok p.accepted⟩) ∧
        q.reply? p.accepted = some (t.reply mapper elapsed)
  refused : p.terminated = true → ∀ t mapper,
    Batch.submit mapper p t = (p, ⟨t.url, .error .poolTerminated⟩)

/-- In every run the order of submission decides, and the end of the pool is final. -/
theorem orderly_of_run (h : (start size).run? events = some p) : Orderly size events p := by
  have hsize : p.size = size := (follows_of_run h).size
  exact {
    accepted := work_of_run h
    terminated := terminated_of_run h
    inOrder := begun_prefix_accepted h
    begins := fun e q hq => hsize ▸ begun_of_step (step_of_step? hq)
    closed := fun hclosed more q hq => over_of_run h hclosed hq
    inline := fun hzero hopen pace during t mapper hholds =>
      reply?_of_inline_call ⟨size, events, h⟩ (hsize.trans hzero) hopen hholds during t mapper
    refused := Batch.submit_of_terminated }

end Run

/-- A worker never gets to the third task, and a mapper that terminates its pool is still answered. -/
theorem orderly_of_run_sample :
    (∃ p, (start 1).run? mixedRun = some p ∧ Orderly 1 mixedRun p ∧ p.terminated = true ∧
      p.begun.map (·.task.url) = ["/a.js", "/b.js"] ∧
      (Event.accepted mixedRun).map (·.1.url) = ["/a.js", "/b.js", "/c.js"]) ∧
    ∃ q elapsed, Batch.call {} (start 0) [.terminate] (script "/a.js") emptyFile =
        (q, ⟨"/a.js", .ok 0⟩) ∧
      q.reply? 0 = some ((script "/a.js").reply emptyFile elapsed) := by
  refine ⟨⟨_, rfl, orderly_of_run rfl, rfl, rfl, rfl⟩, ?_⟩
  have hinline : Orderly 0 [] (start 0) := orderly_of_run rfl
  exact hinline.inline rfl rfl {} [.terminate] _ _ rfl

end Pool
end Coverage.Conversion

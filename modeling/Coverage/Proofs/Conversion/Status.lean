import Coverage.Proofs.Conversion.Answers
import Coverage.Proofs.Conversion.Moments
import Coverage.Proofs.Conversion.Refinement
import Coverage.Syntax.Program

/-! What a pool says of itself while it is at work. The counter and the queue change at different moments, and
at each of them both tell of the same accepted tasks. -/
namespace Coverage.Conversion

namespace Pool
variable [Syntax.Parser] {p : Pool} {n : Nat} {ended : List (Job × Timings)} {discarded : List Job}

/-- A ticket waits if its task was accepted, and neither taken from the queue nor discarded with it. -/
theorem Ledger.mem_tickets_queue (h : p.Ledger ended discarded) : n ∈ p.queue.map (·.ticket) ↔
    n < p.accepted ∧ n ∉ p.begun.map (·.ticket) ∧ p.reply? n ≠ some (.error .poolTerminated) := by
  have htickets := h.tickets
  rw [h.jobs, List.map_append, List.map_append] at htickets
  have hnodup := List.nodup_range (n := p.accepted)
  rw [← htickets] at hnodup
  have haccepted : n < p.accepted ↔ n ∈ p.begun.map (·.ticket) ∨ n ∈ p.queue.map (·.ticket) ∨
      n ∈ discarded.map (·.ticket) := by
    rw [← List.mem_range, ← htickets, List.mem_append, List.mem_append]
  constructor
  · intro hn
    refine ⟨haccepted.2 (.inr (.inl hn)), fun hbegun => ?_, fun hreply => ?_⟩
    · exact List.disjoint_of_nodup_append hnodup hbegun (List.mem_append_left _ hn)
    · obtain ⟨j, hj, rfl⟩ := List.mem_map.1 hn
      have hwaits : 0 < p.waits j.ticket := List.countP_pos_iff.2 ⟨j, hj, by simp⟩
      have hanswers := (isSome_reply?_iff j.ticket).1 (by rw [hreply]; rfl)
      have honce := h.once j.ticket
      split at honce <;> omega
  · rintro ⟨hn, hbegun, hreply⟩
    rcases haccepted.1 hn with hn | hn | hn
    · exact absurd hn hbegun
    · exact hn
    · obtain ⟨j, hj, rfl⟩ := List.mem_map.1 hn
      refine absurd (h.mem_replies_iff.1 (h.replies.mem_iff.2 (List.mem_append_right _ ?_))) hreply
      exact List.mem_map_of_mem hj

theorem Ledger.nodup_queue (h : p.Ledger ended discarded) : (p.queue.map (·.ticket)).Nodup := by
  have hnodup := List.nodup_range (n := p.accepted)
  rw [← h.tickets, h.jobs, List.map_append, List.map_append] at hnodup
  exact hnodup.of_append_right.of_append_left

end Pool

namespace Crew
variable {c : Crew} {acts : List Act} {size : Nat}

/-- So many numbers have the property. -/
def Counts (P : Nat → Prop) (k : Nat) : Prop :=
  ∃ l : List Nat, l.Nodup ∧ (∀ n, n ∈ l ↔ P n) ∧ l.length = k

theorem counts_underway [Syntax.Parser] (hr : (start size).run? acts = some c) :
    Counts (Underway size acts) c.counter := by
  have hmanned := Manned.of_run hr
  obtain ⟨_, _, hl⟩ := exists_ledger hr
  refine ⟨c.underway.map (·.ticket), ?_, fun n => mem_tickets_underway.trans (underway_iff hr).symm, ?_⟩
  · exact (hmanned.nodup_tickets hl).sublist ((Worker.underway_sublist c.workers).map _)
  · rw [List.length_map, hmanned.counter]

/-- What a pool says of itself after some moments. -/
structure Status [Syntax.Parser] (size : Nat) (acts : List Act) (c : Crew) : Prop where
  pool : ∃ events, (Pool.start size).run? events = some c.pool
  /-- The counter tells how many conversions are between their start and their end, at most one for each
  worker. -/
  bounded : c.counter ≤ size
  counted : Counts (Underway size acts) c.counter
  /-- A task whose reply may be received does not count any more. -/
  received : ∀ n, (c.pool.reply? n).isSome → ¬Underway size acts n
  answered : (∀ n < c.pool.accepted, (c.pool.reply? n).isSome) → c.counter = 0
  /-- The queue has the accepted tasks that were not taken from it and not discarded. -/
  queued : Counts (fun n => n < c.pool.accepted ∧ n ∉ c.pool.begun.map (·.ticket) ∧
    c.pool.reply? n ≠ some (.error .poolTerminated)) c.pool.queued
  /-- Nothing waits in an open pool while a worker is at leisure, once the workers have gone as far as they
  can. -/
  full : c.pool.terminated = false → c.AtRest → 0 < c.pool.queued → c.counter = size
  settled : c.AtRest → c.counter = c.pool.active
  single : size = 0 → c.counter = 0 ∧ c.pool.queued = 0

/-- After every run, with workers and callers at any moments between each other, the counter and the queue
agree with the tasks. -/
theorem status_of_run [Syntax.Parser] (h : (start size).run? acts = some c) : Status size acts c := by
  obtain ⟨events, hevents⟩ := exists_pool_run h
  obtain ⟨_, _, hl⟩ := Pool.exists_ledger hevents
  have hm := Manned.of_run h
  have hs := Pool.Staffed.of_run hevents
  have hsize : c.pool.size = size := (Pool.follows_of_run hevents).size
  have hbounded : c.counter ≤ size := by
    rw [hm.counter, ← hsize, ← hm.size]
    exact List.length_filterMap_le ..
  have hnone (n : Nat) (hr : (c.pool.reply? n).isSome) : ¬Underway size acts n := fun hn =>
    hm.not_underway_of_answered hl hr ((underway_iff h).1 hn)
  exact {
    pool := ⟨events, hevents⟩
    bounded := hbounded
    counted := counts_underway h
    received := hnone
    answered := fun hall => by
      rw [hm.counter, List.length_eq_zero_iff, List.eq_nil_iff_forall_not_mem]
      intro j hj
      have hn := mem_tickets_underway.1 (List.mem_map_of_mem hj)
      exact hm.not_underway_of_answered hl (hall _ (hm.ticket_lt hl hn)) hn
    queued := ⟨_, hl.nodup_queue, fun n => hl.mem_tickets_queue, List.length_map _⟩
    full := fun hopen hrest hqueue =>
      (hm.counter_eq_size hl (hs.opened hopen).1 hopen hrest hqueue).trans hsize
    settled := hm.counter_eq_active hl
    single := fun hzero => by
      have hqueue := (hl.single (hsize.trans hzero)).1
      exact ⟨by omega, by rw [Pool.queued, hqueue]; rfl⟩ }

/-- One worker converts the first of two tasks, whose mapper will crash. -/
def crowdedRun : List Act :=
  [.call (.submit (Pool.script "/a.js") fun _ => .crash), .call (.submit (Pool.script "/b.js") Pool.emptyFile),
    .miss, .work 0, .work 0, .miss]

/-- The mapper crashes, and the worker answers for it. -/
def crashedRun : List Act := crowdedRun ++ [.conclude 0 ⟨1, 1⟩, .work 0, .work 0]

theorem status_of_run_sample :
    (∃ c, (start 1).run? crowdedRun = some c ∧ Status 1 crowdedRun c ∧ c.pool.terminated = false ∧
      c.AtRest ∧ c.pool.queued = 1 ∧ c.counter = 1) ∧
    ∃ d, (start 1).run? crashedRun = some d ∧ Status 1 crashedRun d ∧
      d.pool.reply? 0 = some (.error (.workerCrashed "/a.js")) ∧ d.pool.queued = 1 ∧ d.counter = 0 := by
  constructor
  · obtain ⟨c, hc⟩ : ∃ c, (start 1).run? crowdedRun = some c := ⟨_, rfl⟩
    have hstatus := status_of_run hc
    cases hc
    refine ⟨_, rfl, hstatus, rfl, fun i => ?_, rfl, rfl⟩
    cases i with
    | zero => exact ⟨rfl, rfl⟩
    | succ i => exact ⟨rfl, rfl⟩
  · obtain ⟨d, hd⟩ : ∃ d, (start 1).run? crashedRun = some d := ⟨_, rfl⟩
    have hstatus := status_of_run hd
    cases hd
    refine ⟨_, rfl, hstatus, ?_, rfl, rfl⟩
    exact congrArg some (Job.reply_of_none (j := ⟨0, _, _⟩) Pool.convert?_script_crash)

end Crew
end Coverage.Conversion

import Coverage.Proofs.Conversion.Step
import Mathlib.Data.List.Nodup
import Mathlib.Data.List.Perm.Basic
import Mathlib.Data.List.Range

/-! The books of a pool: which conversions have ended and which jobs were discarded. Together with the
queue and the conversions under way they account for every accepted job, whatever the events were. -/
namespace Coverage.Conversion

theorem perm_without {l : List Job} {n : Nat} {j : Job} (h : l.find? (·.ticket == n) = some j) :
    l.Perm (j :: Pool.without n l) := by
  obtain ⟨hj, before, after, rfl, hbefore⟩ := List.find?_eq_some_iff_append.1 h
  have hwithout : Pool.without n (before ++ j :: after) = before ++ after := by
    rw [Pool.without, List.eraseP_append_right _ (by simpa using hbefore)]
    simp [hj]
  rw [hwithout]
  exact List.perm_middle

/-- What is sent when a conversion has ended. -/
def Job.answer [Syntax.Parser] (e : Job × Timings) : Nat × Reply := (e.1.ticket, e.1.reply e.2)

/-- What is sent for a job that was discarded. -/
def Job.refusal (j : Job) : Nat × Reply := (j.ticket, .error .poolTerminated)

namespace Pool
variable {p q : Pool} {e : Event} {events : List Event} {n size : Nat} {r : Reply} {j : Job}
  {ended : List (Job × Timings)} {discarded : List Job}

theorem ticket_of_find? (h : p.find? n = some j) : j.ticket = n := by
  simpa using List.find?_some h

theorem mem_converting_of_find? (h : p.find? n = some j) : j ∈ p.converting :=
  List.mem_of_find?_eq_some h

variable [Syntax.Parser]

/-- Every accepted job is in one place, and what has ended or was discarded has been answered. -/
structure Ledger (p : Pool) (ended : List (Job × Timings)) (discarded : List Job) : Prop where
  tickets : p.jobs.map (·.ticket) = List.range p.accepted
  jobs : p.jobs = p.begun ++ (p.queue ++ discarded)
  begun : p.begun.Perm (p.converting ++ ended.map (·.1))
  replies : p.replies.Perm (ended.map Job.answer ++ discarded.map Job.refusal)
  opened : p.terminated = false → discarded = []
  closed : p.terminated = true → p.queue = []
  busy : p.active ≤ p.size
  threaded : 0 < p.size → p.inline = []
  single : p.size = 0 → p.queue = [] ∧ discarded = []

namespace Ledger

theorem start (size : Nat) : (Pool.start size).Ledger [] [] := by
  constructor <;> simp [Pool.start, Pool.accepted, Pool.converting, Pool.active]

theorem running_eq_nil (h : p.Ledger ended discarded) (hsize : p.size = 0) : p.running = [] := by
  have := h.busy
  rw [hsize, active, Nat.le_zero] at this
  exact List.length_eq_zero_iff.1 this

/-- Without workers every job begins at once. -/
theorem begun_eq_jobs (h : p.Ledger ended discarded) (hsize : p.size = 0) : p.begun = p.jobs := by
  rw [h.jobs, (h.single hsize).1, (h.single hsize).2, List.append_nil, List.append_nil]

/-- The job whose conversion ends is taken from those under way. -/
theorem perm_converting (h : p.Ledger ended discarded) (hj : p.find? n = some j) :
    p.converting.Perm (j :: (without n p.running ++ without n p.inline)) := by
  rw [find?, converting] at hj
  rw [converting]
  rcases Nat.eq_zero_or_pos p.size with hsize | hsize
  · have hrunning := h.running_eq_nil hsize
    rw [hrunning, List.nil_append] at hj ⊢
    exact perm_without hj
  · have hinline := h.threaded hsize
    rw [hinline, List.append_nil] at hj ⊢
    rw [without.eq_1 n [], List.eraseP_nil, List.append_nil]
    exact perm_without hj

theorem tickets_concat (h : p.Ledger ended discarded) (t : Task) (mapper : Mapper) :
    (p.jobs ++ [p.nextJob t mapper]).map (·.ticket) =
      List.range (p.jobs ++ [p.nextJob t mapper]).length := by
  rw [List.map_append, h.tickets, List.length_append, List.length_singleton, List.range_succ]
  rfl

/-- Each event makes its own entry in the books. -/
theorem step (hs : Step p e q) (h : p.Ledger ended discarded) :
    ∃ ended' discarded', q.Ledger ended' discarded' := by
  cases hs with
  | refuse => exact ⟨_, _, h⟩
  | @convert t mapper hopen hsize =>
    obtain ⟨hqueue, hdiscarded⟩ := h.single hsize
    refine ⟨ended, discarded, { h with
      tickets := h.tickets_concat t mapper, jobs := ?_, begun := ?_, threaded := ?_ }⟩
    · simp [h.jobs, hqueue, hdiscarded]
    · have hbegun := h.begun.append_right [p.nextJob t mapper]
      refine hbegun.trans ?_
      simp only [converting, List.append_assoc]
      exact (List.perm_append_comm.append_left _).append_left _
    · intro hpos
      exact absurd hsize hpos.ne'
  | @enqueue t mapper hopen hsize =>
    refine ⟨ended, discarded, { h with
      tickets := h.tickets_concat t mapper, jobs := ?_, closed := ?_, single := ?_ }⟩
    · simp [h.jobs, h.opened hopen]
    · simp [hopen]
    · intro hzero
      exact absurd hzero hsize.ne'
  | @dispatch j rest hqueue hopen hfree =>
    refine ⟨ended, discarded, { h with
      jobs := ?_, begun := ?_, closed := ?_, busy := ?_, single := ?_ }⟩
    · simp [h.jobs, hqueue]
    · refine (h.begun.append_right [j]).trans ?_
      simp only [converting, List.append_assoc]
      exact List.Perm.append_left _ (by
        rw [← List.append_assoc]
        exact List.perm_append_comm)
    · simp [hopen]
    · simpa [active] using Nat.succ_le_of_lt hfree
    · intro hzero
      exact absurd hzero (Nat.ne_zero_of_lt hfree)
  | @finish n elapsed j hj =>
    have hconverting := h.perm_converting hj
    have hticket := ticket_of_find? hj
    refine ⟨ended ++ [(j, elapsed)], discarded, { h with
      begun := ?_, replies := ?_, busy := ?_, threaded := ?_ }⟩
    · refine h.begun.trans ((hconverting.append_right _).trans ?_)
      rw [List.map_append, ← List.append_assoc]
      exact (List.perm_append_singleton j _).symm
    · rw [← hticket, List.map_append, List.append_assoc]
      refine (h.replies.append_right _).trans ?_
      rw [List.append_assoc]
      exact List.perm_append_comm.append_left _
    · exact (List.length_eraseP_le).trans h.busy
    · intro hsize
      simp [without, h.threaded hsize]
  | terminate =>
    refine ⟨ended, p.queue ++ discarded, { h with
      jobs := ?_, replies := ?_, opened := ?_, closed := ?_, single := ?_ }⟩
    · simpa [Pool.terminate] using h.jobs
    · refine (h.replies.append_right _).trans ?_
      rw [List.map_append, List.append_assoc]
      exact List.perm_append_comm.append_left _
    · simp [Pool.terminate]
    · simp [Pool.terminate]
    · intro hsize
      simp [Pool.terminate, h.single hsize]
  | leave => exact ⟨ended, discarded, { h with }⟩
  | join => exact ⟨ended, discarded, { h with }⟩
  | receive => exact ⟨ended, discarded, { h with }⟩
  | drop => exact ⟨ended, discarded, { h with }⟩

end Ledger

theorem exists_ledger (h : (Pool.start size).run? events = some p) :
    ∃ ended discarded, p.Ledger ended discarded :=
  run_keeps (P := fun p => ∃ ended discarded, p.Ledger ended discarded)
    (fun _ _ _ hs ⟨_, _, hl⟩ => hl.step hs) h ⟨_, _, .start size⟩

theorem Reachable.of_run (h : p.Reachable) (hq : p.run? events = some q) : q.Reachable := by
  obtain ⟨size, before, hp⟩ := h
  exact ⟨size, before ++ events, run?_append_eq_some_iff.2 ⟨p, hp, hq⟩⟩

theorem Reachable.exists_ledger (h : p.Reachable) : ∃ ended discarded, p.Ledger ended discarded := by
  obtain ⟨size, events, hp⟩ := h
  exact Pool.exists_ledger hp

/-- How often a ticket waits in the queue. -/
def waits (p : Pool) (n : Nat) : Nat := p.queue.countP (·.ticket == n)

/-- How many conversions under way have this ticket. -/
def conversions (p : Pool) (n : Nat) : Nat := p.converting.countP (·.ticket == n)

/-- How many replies have been sent for a ticket. -/
def answers (p : Pool) (n : Nat) : Nat := p.replies.countP (·.1 == n)

omit [Syntax.Parser] in
theorem isSome_reply?_iff (n : Nat) : (p.reply? n).isSome ↔ 0 < p.answers n := by
  simp only [reply?, List.lookup_isSome_iff, answers, List.countP_pos_iff, beq_iff_eq, eq_comm (a := n)]

namespace Ledger

theorem countP_jobs (h : p.Ledger ended discarded) (n : Nat) :
    p.jobs.countP (·.ticket == n) = if n < p.accepted then 1 else 0 := by
  have hcount : p.jobs.countP (·.ticket == n) = (p.jobs.map (·.ticket)).count n := by
    rw [List.count, List.countP_map]
    rfl
  rw [hcount, h.tickets, List.count_range]

/-- An accepted task is in exactly one place, any other in none. -/
theorem once (h : p.Ledger ended discarded) (n : Nat) :
    p.waits n + p.conversions n + p.answers n = if n < p.accepted then 1 else 0 := by
  have hbegun : p.begun.countP (·.ticket == n) =
      p.conversions n + ended.countP (·.1.ticket == n) := by
    rw [h.begun.countP_eq, List.countP_append, List.countP_map]
    rfl
  have hanswers : p.answers n =
      ended.countP (·.1.ticket == n) + discarded.countP (·.ticket == n) := by
    rw [answers, h.replies.countP_eq, List.countP_append, List.countP_map, List.countP_map]
    rfl
  have hjobs : p.jobs.countP (·.ticket == n) =
      p.begun.countP (·.ticket == n) + (p.waits n + discarded.countP (·.ticket == n)) := by
    rw [h.jobs, List.countP_append, List.countP_append]
    rfl
  rw [← h.countP_jobs n]
  omega

theorem mem_replies_iff (h : p.Ledger ended discarded) : (n, r) ∈ p.replies ↔ p.reply? n = some r := by
  rw [reply?, List.lookup_eq_some_iff]
  constructor
  · intro hmem
    obtain ⟨before, after, hreplies⟩ := List.append_of_mem hmem
    refine ⟨before, after, hreplies, fun x hx => ?_⟩
    by_contra hn
    have hxn : n = x.1 := by simpa using hn
    have hone : p.answers n ≤ 1 := by
      have := h.once n
      split at this <;> omega
    have hbefore : 0 < before.countP (·.1 == n) :=
      List.countP_pos_iff.2 ⟨x, hx, by simp [hxn]⟩
    rw [answers, hreplies, List.countP_append, List.countP_cons_of_pos (by simp)] at hone
    omega
  · rintro ⟨before, after, hreplies, -⟩
    simp [hreplies]

/-- The ticket of a job names its place. -/
theorem ticket_of_getElem? (h : p.Ledger ended discarded) (hj : p.jobs[n]? = some j) :
    j.ticket = n := by
  have hlt : n < p.accepted := (List.getElem?_eq_some_iff.1 hj).1
  have hticket : (p.jobs.map (·.ticket))[n]? = some j.ticket := by simp [hj]
  rw [h.tickets, List.getElem?_range hlt, Option.some_inj] at hticket
  exact hticket.symm

theorem getElem?_jobs (h : p.Ledger ended discarded) (hj : j ∈ p.jobs) :
    p.jobs[j.ticket]? = some j := by
  obtain ⟨i, hi⟩ := List.mem_iff_getElem?.1 hj
  rw [h.ticket_of_getElem? hi, hi]

theorem getElem?_begun (h : p.Ledger ended discarded) (hj : p.begun[n]? = some j) :
    p.jobs[n]? = some j := by
  rw [h.jobs, List.getElem?_append_left (List.getElem?_eq_some_iff.1 hj).1, hj]

/-- A reply is that of a conversion that began, or the job was discarded. -/
theorem reply?_cases (h : p.Ledger ended discarded) (hj : p.jobs[n]? = some j)
    (hr : p.reply? n = some r) :
    n < p.begun.length ∧ (∃ elapsed, r = j.reply elapsed) ∨
      p.begun.length ≤ n ∧ p.terminated = true ∧ r = .error .poolTerminated := by
  rcases List.mem_append.1 (h.replies.mem_iff.1 (h.mem_replies_iff.2 hr)) with hm | hm
  · obtain ⟨⟨k, elapsed⟩, hk, heq⟩ := List.mem_map.1 hm
    obtain ⟨rfl, rfl⟩ := Prod.mk.inj heq
    have hbegun : k ∈ p.begun :=
      h.begun.mem_iff.2 (List.mem_append_right _ (List.mem_map_of_mem hk))
    obtain ⟨i, hi⟩ := List.mem_iff_getElem?.1 hbegun
    obtain rfl := h.ticket_of_getElem? (h.getElem?_begun hi)
    obtain rfl : k = j := Option.some_inj.1 ((h.getElem?_begun hi).symm.trans hj)
    exact .inl ⟨(List.getElem?_eq_some_iff.1 hi).1, elapsed, rfl⟩
  · obtain ⟨k, hk, heq⟩ := List.mem_map.1 hm
    obtain ⟨rfl, rfl⟩ := Prod.mk.inj heq
    obtain ⟨i, hi⟩ := List.mem_iff_getElem?.1 (List.mem_append_right p.queue hk)
    have hplace : p.jobs[p.begun.length + i]? = some k := by
      rw [h.jobs, List.getElem?_append_right (Nat.le_add_right _ _), Nat.add_sub_cancel_left, hi]
    refine .inr ⟨?_, ?_, rfl⟩
    · exact h.ticket_of_getElem? hplace ▸ Nat.le_add_right _ _
    · by_contra hopen
      rw [h.opened (by simpa using hopen)] at hk
      cases hk

theorem mem_begun_of_mem_converting (h : p.Ledger ended discarded) (hj : j ∈ p.converting) :
    j ∈ p.begun :=
  h.begun.mem_iff.2 (List.mem_append_left _ hj)

theorem mem_jobs_of_mem_begun (h : p.Ledger ended discarded) (hj : j ∈ p.begun) : j ∈ p.jobs := by
  rw [h.jobs]
  exact List.mem_append_left _ hj

end Ledger
end Pool
end Coverage.Conversion

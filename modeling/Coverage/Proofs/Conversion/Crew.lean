import Coverage.Conversion.Crew
import Coverage.Proofs.Conversion.Progress

/-! What one moment does to a crew. The pool of a crew goes through events of its own, and the workers stand for
what the pool says of them. -/
namespace Coverage.Conversion

namespace Pool
variable [Syntax.Parser] {p q : Pool} {j k : Job} {n : Nat} {t : Timings} {ended : List (Job × Timings)}
  {discarded : List Job}

/-- A ticket under way is that of one job. -/
theorem Ledger.find?_of_mem (h : p.Ledger ended discarded) (hj : j ∈ p.converting) :
    p.find? j.ticket = some j := by
  obtain ⟨k, hk⟩ := isSome_find?_of_mem hj
  have hjobs := h.getElem?_jobs (h.mem_jobs_of_mem_begun (h.mem_begun_of_mem_converting hj))
  have hkobs := h.getElem?_jobs
    (h.mem_jobs_of_mem_begun (h.mem_begun_of_mem_converting (mem_converting_of_find? hk)))
  rw [ticket_of_find? hk, hjobs] at hkobs
  rw [hk, ← Option.some_inj.1 hkobs]

/-- Where something is converted on the thread that submitted it there are no workers. -/
theorem Ledger.size_eq_zero (h : p.Ledger ended discarded) (hj : j ∈ p.inline) : p.size = 0 := by
  by_contra hsize
  rw [h.threaded (Nat.pos_of_ne_zero hsize)] at hj
  cases hj

/-- The job that a worker answers is taken from those of the workers. -/
theorem Ledger.perm_running (h : p.Ledger ended discarded) (hj : j ∈ p.running) :
    p.running.Perm (j :: without j.ticket p.running) := by
  have hsize : 0 < p.size := by
    by_contra hzero
    rw [h.running_eq_nil (by omega)] at hj
    cases hj
  have hfind := h.find?_of_mem (List.mem_append_left _ hj)
  rw [find?, converting, h.threaded hsize, List.append_nil] at hfind
  exact perm_without hfind

theorem Ledger.nodup_running (h : p.Ledger ended discarded) : (p.running.map (·.ticket)).Nodup := by
  rw [List.nodup_iff_count_le_one]
  intro n
  have honce := h.once n
  have hcount : (p.running.map (·.ticket)).count n ≤ p.conversions n := by
    rw [List.count, List.countP_map]
    exact (List.sublist_append_left p.running p.inline).countP_le
  split at honce <;> omega

end Pool

namespace Worker
variable {w : Worker}

@[simp] theorem job?_rouse (w : Worker) : w.rouse.job? = w.job? := by cases w <;> rfl

@[simp] theorem underway?_rouse (w : Worker) : w.rouse.underway? = w.underway? := by cases w <;> rfl

@[simp] theorem isGone_rouse (w : Worker) : w.rouse.isGone = w.isGone := by cases w <;> rfl

theorem rouse_ne_asleep (w : Worker) : w.rouse ≠ asleep := by cases w <;> simp [rouse]

end Worker

theorem exists_set {α : Type} {l : List α} {i : Nat} {x : α} (h : l[i]? = some x) :
    ∃ before after, l = before ++ x :: after ∧ ∀ y, l.set i y = before ++ y :: after := by
  induction l generalizing i with
  | nil => simp at h
  | cons a l ih =>
    cases i with
    | zero =>
      obtain rfl : a = x := by simpa using h
      exact ⟨[], l, rfl, fun _ => rfl⟩
    | succ i =>
      obtain ⟨before, after, rfl, hset⟩ := ih (by simpa using h)
      exact ⟨a :: before, after, rfl, fun y => by rw [List.set_cons_succ, hset, List.cons_append]⟩

namespace Crew
variable {c d : Crew} {a : Act} {acts : List Act} {e : Event} {p : Pool} {i n m k size : Nat} {j : Job}
  {t : Timings} {x y : Worker} {ended : List (Job × Timings)} {discarded : List Job}

section Steps

@[simp] theorem put_pool (c : Crew) (i : Nat) (w : Worker) : (c.put i w).pool = c.pool := rfl

@[simp] theorem put_notices (c : Crew) (i : Nat) (w : Worker) : (c.put i w).notices = c.notices := rfl

@[simp] theorem put_workers (c : Crew) (i : Nat) (w : Worker) :
    (c.put i w).workers = c.workers.set i w := rfl

theorem stir?_eq_some_iff : c.stir? i = some d ↔ c.workers[i]? = some .asleep ∧ c.put i .awake = d := by
  rw [stir?]
  split
  · next hi => simp [hi]
  · next hi => simpa using fun h => absurd h (by simpa using hi)

variable [Syntax.Parser]

inductive Step (c : Crew) : Act → Crew → Prop
  | call {e : Event} {p : Pool} {n m : Nat} (hpool : c.pool.Step e p)
      (hrunning : p.running = c.pool.running) (hgone : p.gone = c.pool.gone)
      (hqueue : p.terminated = false → p.queue.length + c.notices ≤ c.pool.queue.length + n) :
    Step c (.call e) { c with pool := p, notices := n, alarms := m }
  | quit {i : Nat} {p : Pool} (hi : c.workers[i]? = some .awake) (hpool : c.pool.Step .leave p) :
    Step c (.work i) { c.put i .gone with pool := p }
  | rest {i : Nat} (hi : c.workers[i]? = some .awake) (hopen : c.pool.terminated = false)
      (hqueue : c.pool.queue = []) :
    Step c (.work i) (c.put i .asleep)
  | take {i : Nat} {j : Job} {rest : List Job} {p : Pool} (hi : c.workers[i]? = some .awake)
      (hqueue : c.pool.queue = j :: rest) (hpool : c.pool.Step .dispatch p) :
    Step c (.work i) { c.put i (.taking j) with pool := p }
  | enter {i : Nat} {j : Job} (hi : c.workers[i]? = some (.taking j)) :
    Step c (.work i) { c.put i (.converting j) with counter := c.counter + 1 }
  | conclude {i : Nat} {j : Job} {t : Timings} (hi : c.workers[i]? = some (.converting j)) :
    Step c (.conclude i t) (c.put i (.done j t))
  | leave {i : Nat} {j : Job} {t : Timings} (hi : c.workers[i]? = some (.done j t)) :
    Step c (.work i) { c.put i (.replying j t) with counter := c.counter - 1 }
  | send {i : Nat} {j : Job} {t : Timings} {p : Pool} (hi : c.workers[i]? = some (.replying j t))
      (hpool : c.pool.Step (.finish j.ticket t) p) :
    Step c (.work i) { c.put i .awake with pool := p }
  | wake {i : Nat} (hi : c.workers[i]? = some .asleep) (hnotices : 0 < c.notices) :
    Step c (.wake i) { c.put i .awake with notices := c.notices - 1 }
  | miss (hnotices : 0 < c.notices) (hnone : ∀ w ∈ c.workers, w.isAsleep = false) :
    Step c .miss { c with notices := c.notices - 1 }
  | alarm (halarms : 0 < c.alarms) :
    Step c .alarm { c with workers := c.workers.map Worker.rouse, alarms := c.alarms - 1 }
  | stir {i : Nat} (hi : c.workers[i]? = some .asleep) : Step c (.stir i) (c.put i .awake)

theorem call?_submit (c : Crew) (task : Task) (mapper : Mapper) : c.call? (.submit task mapper) =
    some { c with
      pool := (c.pool.submit task mapper).toOption.getD c.pool
      notices := c.notices +
        (((c.pool.submit task mapper).toOption.getD c.pool).queued - c.pool.queued) } := by
  rw [call?]
  cases c.pool.submit task mapper with
  | error => simp [Except.toOption]
  | ok p => rfl

/-- Only where there are no workers a call ends a conversion, so the jobs of the workers stay. -/
theorem step_of_call? (hl : c.pool.Ledger ended discarded) (h : c.call? e = some d) : Step c (.call e) d := by
  cases e with
  | submit task mapper =>
    rw [call?_submit, Option.some_inj] at h
    have hstep := Pool.step_submit c.pool task mapper
    rw [← h]
    generalize (c.pool.submit task mapper).toOption.getD c.pool = p at hstep ⊢
    refine .call hstep ?_ ?_ ?_
    · cases hstep <;> rfl
    · cases hstep <;> rfl
    · simp only [Pool.queued]
      omega
  | terminate =>
    cases h
    exact .call .terminate rfl rfl fun hopen => by cases hopen
  | dispatch => cases h
  | leave => cases h
  | finish n t =>
    rw [call?] at h
    split at h
    · next hinline =>
      obtain ⟨p, hp, rfl⟩ := Option.map_eq_some_iff.1 h
      obtain ⟨j, hj, -⟩ := List.any_eq_true.1 hinline
      have hrunning := hl.running_eq_nil (hl.size_eq_zero hj)
      obtain ⟨k, hk, rfl⟩ := Option.map_eq_some_iff.1 hp
      refine .call (.finish hk) ?_ rfl fun _ => le_rfl
      simp [hrunning, Pool.without]
    · cases h
  | join =>
    obtain ⟨p, hp, rfl⟩ := Option.map_eq_some_iff.1 h
    cases Pool.step_of_step? hp with
    | join hcalled hwaited => exact .call (.join hcalled hwaited) rfl rfl fun _ => le_rfl
  | receive n =>
    obtain ⟨p, hp, rfl⟩ := Option.map_eq_some_iff.1 h
    cases Pool.step_of_step? hp with
    | receive hn hr => exact .call (.receive hn hr) rfl rfl fun _ => le_rfl
  | drop n =>
    obtain ⟨p, hp, rfl⟩ := Option.map_eq_some_iff.1 h
    cases Pool.step_of_step? hp with
    | drop hn => exact .call (.drop hn) rfl rfl fun _ => le_rfl

theorem step_of_work? (h : c.work? i = some d) : Step c (.work i) d := by
  rw [work?] at h
  split at h
  · next hi =>
    split at h
    · obtain ⟨p, hp, rfl⟩ := Option.map_eq_some_iff.1 h
      exact .quit hi (Pool.step_of_step? hp)
    · next hopen =>
      split at h
      · next hqueue =>
        cases h
        exact .rest hi (by simpa using hopen) hqueue
      · next j rest hqueue =>
        obtain ⟨p, hp, rfl⟩ := Option.map_eq_some_iff.1 h
        exact .take hi hqueue (Pool.step_of_step? hp)
  · next j hi =>
    cases h
    exact .enter hi
  · next j t hi =>
    cases h
    exact .leave hi
  · next j t hi =>
    obtain ⟨p, hp, rfl⟩ := Option.map_eq_some_iff.1 h
    exact .send hi (Pool.step_of_step? hp)
  · cases h

theorem step_of_step? (hl : c.pool.Ledger ended discarded) (h : c.step? a = some d) : Step c a d := by
  cases a with
  | call e => exact step_of_call? hl h
  | work i => exact step_of_work? h
  | conclude i t =>
    rw [step?, conclude?] at h
    split at h
    · next j hi =>
      cases h
      exact .conclude hi
    · cases h
  | wake i =>
    rw [step?, wake?, Option.ite_none_right_eq_some, Option.map_eq_some_iff] at h
    obtain ⟨hnotices, d, hd, rfl⟩ := h
    obtain ⟨hi, rfl⟩ := stir?_eq_some_iff.1 hd
    exact .wake hi hnotices
  | miss =>
    simp only [step?, miss?, Option.ite_none_right_eq_some, Bool.and_eq_true, decide_eq_true_eq,
      Bool.not_eq_true', List.any_eq_false, Option.some_inj] at h
    obtain ⟨⟨hnotices, hnone⟩, rfl⟩ := h
    exact .miss hnotices fun w hw => by simpa using hnone w hw
  | alarm =>
    rw [step?, alarm?, Option.ite_none_right_eq_some, Option.some_inj] at h
    obtain ⟨halarms, rfl⟩ := h
    exact .alarm halarms
  | stir i =>
    obtain ⟨hi, rfl⟩ := stir?_eq_some_iff.1 h
    exact .stir hi

@[simp] theorem run?_nil (c : Crew) : c.run? [] = some c := rfl

theorem run?_concat_eq_some_iff :
    c.run? (acts ++ [a]) = some d ↔ ∃ b, c.run? acts = some b ∧ b.step? a = some d := by
  simp [run?, List.foldlM_append, Option.bind_eq_some_iff]

end Steps

section Pools
variable [Syntax.Parser]

/-- A moment is an event of the pool or none. -/
theorem pool_of_step (h : Step c a d) : d.pool = c.pool ∨ ∃ e, c.pool.step? e = some d.pool := by
  cases h with
  | call hpool | quit _ hpool | take _ _ hpool | send _ hpool =>
    exact .inr ⟨_, Pool.step?_of_step hpool⟩
  | _ => exact .inl rfl

theorem follows_of_step (h : Step c a d) : c.pool.Follows d.pool := by
  rcases pool_of_step h with hsame | ⟨e, he⟩
  · rw [hsame]
    exact .rfl
  · exact Pool.follows_of_step (Pool.step_of_step? he)

/-- The pool of a crew is one that its events lead to. -/
theorem exists_pool_run (h : (start size).run? acts = some c) :
    ∃ events, (Pool.start size).run? events = some c.pool := by
  induction acts using List.reverseRecOn generalizing c with
  | nil =>
    cases h
    exact ⟨[], rfl⟩
  | append_singleton acts a ih =>
    obtain ⟨b, hb, ha⟩ := run?_concat_eq_some_iff.1 h
    obtain ⟨events, hevents⟩ := ih hb
    obtain ⟨_, _, hl⟩ := Pool.exists_ledger hevents
    rcases pool_of_step (step_of_step? hl ha) with hsame | ⟨e, he⟩
    · exact ⟨events, by rw [hsame, hevents]⟩
    · exact ⟨events ++ [e], Pool.run?_concat_eq_some_iff.2 ⟨_, hevents, he⟩⟩

theorem exists_ledger (h : (start size).run? acts = some c) :
    ∃ ended discarded, c.pool.Ledger ended discarded := by
  obtain ⟨events, hevents⟩ := exists_pool_run h
  exact Pool.exists_ledger hevents

/-- What every moment keeps holds after a run. -/
theorem run_keeps {P : List Act → Crew → Prop} (hstart : P [] (start size))
    (hstep : ∀ acts c a d ended discarded, (start size).run? acts = some c →
      c.pool.Ledger ended discarded → Step c a d → P acts c → P (acts ++ [a]) d)
    (h : (start size).run? acts = some c) : P acts c := by
  induction acts using List.reverseRecOn generalizing c with
  | nil =>
    cases h
    exact hstart
  | append_singleton acts a ih =>
    obtain ⟨b, hb, ha⟩ := run?_concat_eq_some_iff.1 h
    obtain ⟨_, _, hl⟩ := exists_ledger hb
    exact hstep _ _ _ _ _ _ hb hl (step_of_step? hl ha) (ih hb)

end Pools

section Workers

/-- The workers are those of the pool, and the counter tells how many of them are between the start and
the end of a conversion. While the pool is open, a worker sleeps only if there are no more jobs in
the queue than workers are about to look at it or will be notified. -/
structure Manned (c : Crew) : Prop where
  size : c.workers.length = c.pool.size
  running : c.pool.running.Perm (c.workers.filterMap Worker.job?)
  gone : c.pool.gone = c.workers.countP Worker.isGone
  counter : c.counter = c.underway.length
  noticed : c.pool.terminated = false → .asleep ∈ c.workers →
    c.pool.queue.length ≤ c.workers.countP Worker.isAwake + c.notices

namespace Manned

theorem start (size : Nat) : (Crew.start size).Manned where
  size := List.length_replicate
  running := by
    rw [Crew.start, List.filterMap_replicate_of_none rfl]
    exact .nil
  gone := by
    rw [Crew.start, List.countP_replicate]
    rfl
  counter := by
    rw [underway, Crew.start, List.filterMap_replicate_of_none rfl]
    rfl
  noticed _ _ := Nat.zero_le _

/-- One worker goes on. The pool, the counter and the notices follow it. -/
theorem put (h : c.Manned) (hi : c.workers[i]? = some x) (hsize : p.size = c.pool.size)
    (hrunning : ∀ jobs, c.pool.running.Perm (x.job?.toList ++ jobs) →
      p.running.Perm (y.job?.toList ++ jobs))
    (hgone : p.gone + x.isGone.toNat = c.pool.gone + y.isGone.toNat)
    (hcounter : k + x.underway?.toList.length = c.counter + y.underway?.toList.length)
    (hnoticed : p.terminated = false → p.queue = [] ∨
      ((y = .asleep → x = .asleep) ∧ c.pool.terminated = false ∧
        p.queue.length + x.isAwake.toNat + c.notices ≤ c.pool.queue.length + y.isAwake.toNat + n)) :
    Manned { c with pool := p, workers := c.workers.set i y, counter := k, notices := n } := by
  obtain ⟨before, after, hworkers, hset⟩ := exists_set hi
  have hperm {β : Type} (f : Worker → Option β) (w : Worker) :
      ((before ++ w :: after).filterMap f).Perm ((f w).toList ++ (before ++ after).filterMap f) := by
    rw [List.filterMap_append, List.filterMap_append, List.filterMap_cons]
    cases f w with
    | none => exact .rfl
    | some b => exact List.perm_middle
  have hcount (f : Worker → Bool) (w : Worker) :
      (before ++ w :: after).countP f = (before ++ after).countP f + (f w).toNat := by
    rw [List.countP_append, List.countP_append, List.countP_cons, Nat.add_assoc]
    cases f w <;> rfl
  refine ⟨(List.length_set ..).trans (h.size.trans hsize.symm), ?_, ?_, ?_, fun hopen hasleep => ?_⟩
  · have hbefore := h.running
    rw [hworkers] at hbefore
    rw [hset]
    exact (hrunning _ (hbefore.trans (hperm _ x))).trans (hperm _ y).symm
  · have hbefore := h.gone
    rw [hworkers, hcount] at hbefore
    change p.gone = _
    rw [hset, hcount]
    omega
  · have hbefore := h.counter
    rw [underway, hworkers, (hperm _ x).length_eq, List.length_append] at hbefore
    change k = _
    rw [underway, hset, (hperm _ y).length_eq, List.length_append]
    omega
  · change p.queue.length ≤ (c.workers.set i y).countP _ + n
    rcases hnoticed hopen with hqueue | ⟨hsleeps, hopen', hle⟩
    · simp [hqueue]
    · have hbefore : Worker.asleep ∈ c.workers := by
        rw [hset, List.mem_append, List.mem_cons] at hasleep
        rw [hworkers, List.mem_append, List.mem_cons]
        exact hasleep.imp_right (Or.imp_left fun hy => (hsleeps hy.symm).symm)
      have hnoticed := h.noticed hopen' hbefore
      rw [hworkers, hcount] at hnoticed
      rw [hset, hcount]
      omega

theorem underway_pos (h : c.Manned) (hi : c.workers[i]? = some (.done j t)) : 0 < c.counter := by
  rw [h.counter]
  exact List.length_pos_of_mem (List.mem_filterMap.2 ⟨_, List.mem_of_getElem? hi, rfl⟩)

/-- What a worker has taken and not answered is converted by the pool. -/
theorem mem_running (h : c.Manned) (hx : x ∈ c.workers) (hj : x.job? = some j) : j ∈ c.pool.running :=
  h.running.mem_iff.2 (List.mem_filterMap.2 ⟨x, hx, hj⟩)

theorem step [Syntax.Parser] (hl : c.pool.Ledger ended discarded) (hs : Step c a d) (h : c.Manned) : d.Manned := by
  cases hs with
  | call hpool hrunning hgone hqueue =>
    have hfollows := Pool.follows_of_step hpool
    refine ⟨h.size.trans hfollows.size.symm, ?_, hgone.trans h.gone, h.counter, fun hopen hasleep => ?_⟩
    · exact hrunning ▸ h.running
    · have hbefore := h.noticed (hfollows.open hopen) hasleep
      have hle := hqueue hopen
      simp only
      omega
  | quit hi hpool =>
    cases hpool with
    | leave hclosed hfree =>
      refine h.put hi rfl (fun _ => id) rfl rfl fun hopen => ?_
      rw [hclosed] at hopen
      cases hopen
  | rest hi hopen hqueue =>
    exact h.put hi rfl (fun _ => id) rfl rfl fun _ => .inl hqueue
  | @take i j rest p hi hqueue hpool =>
    cases hpool with
    | dispatch hfirst hopen hfree =>
      obtain ⟨rfl, rfl⟩ := List.cons.inj (hqueue.symm.trans hfirst)
      refine h.put hi rfl (fun jobs hjobs => ?_) rfl rfl fun _ => .inr ⟨by simp, hopen, ?_⟩
      · exact (List.perm_append_singleton _ _).trans (hjobs.cons _)
      · simp only [hqueue, Worker.isAwake, List.length_cons, Bool.toNat_true, Bool.toNat_false, put_notices]
        omega
  | enter hi =>
    exact h.put hi rfl (fun _ => id) rfl rfl fun hopen => .inr ⟨by simp, hopen, le_rfl⟩
  | conclude hi =>
    exact h.put hi rfl (fun _ => id) rfl rfl fun hopen => .inr ⟨by simp, hopen, le_rfl⟩
  | leave hi =>
    have hpos := h.underway_pos hi
    refine h.put hi rfl (fun _ => id) rfl ?_ fun hopen => .inr ⟨by simp, hopen, le_rfl⟩
    exact Nat.sub_add_cancel hpos
  | @send i j t p hi hpool =>
    have hj := h.mem_running (List.mem_of_getElem? hi) rfl
    cases hpool with
    | finish hfind =>
      refine h.put hi rfl (fun jobs hjobs => ?_) rfl rfl fun hopen => .inr ⟨by simp, hopen, ?_⟩
      · exact List.Perm.cons_inv ((hl.perm_running hj).symm.trans hjobs)
      · simp only [Worker.isAwake, Bool.toNat_true, Bool.toNat_false, put_notices]
        omega
  | wake hi hnotices =>
    refine h.put hi rfl (fun _ => id) rfl rfl fun hopen => .inr ⟨by simp, hopen, ?_⟩
    simp only [Worker.isAwake, Bool.toNat_true, Bool.toNat_false, put_pool]
    omega
  | miss hnotices hnone =>
    refine { h with noticed := fun _ hasleep => ?_ }
    cases hnone _ hasleep
  | alarm halarms =>
    refine ⟨?_, ?_, ?_, ?_, fun _ hasleep => ?_⟩
    · exact (List.length_map _).trans h.size
    · simpa [List.filterMap_map, Function.comp_def] using h.running
    · simpa [List.countP_map, Function.comp_def] using h.gone
    · simpa [underway, List.filterMap_map, Function.comp_def] using h.counter
    · obtain ⟨w, -, hw⟩ := List.mem_map.1 hasleep
      exact absurd hw w.rouse_ne_asleep
  | stir hi =>
    refine h.put hi rfl (fun _ => id) rfl rfl fun hopen => .inr ⟨by simp, hopen, ?_⟩
    simp only [Worker.isAwake, Bool.toNat_true, Bool.toNat_false]
    omega

theorem of_run [Syntax.Parser] (hr : (Crew.start size).run? acts = some c) : c.Manned :=
  run_keeps (P := fun _ c => c.Manned) (.start size)
    (fun _ _ _ _ _ _ _ hl hs h => h.step hl hs) hr

end Manned
end Workers
end Crew
end Coverage.Conversion

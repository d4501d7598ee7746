import Coverage.Proofs.Conversion.Crew

/-! Workers at leisure. Nothing but a notification or the end of a conversion is what a worker waits for, so a crew
can follow its pool through every run of events. -/
namespace Coverage.Conversion

namespace Worker

/-- A worker that is not occupied and has not ended. -/
def isIdle : Worker → Bool
  | awake | asleep => true
  | _ => false

/-- A worker that waits neither for a notification nor for the end of its conversion. -/
def canWork : Worker → Bool
  | awake | taking _ | done .. | replying .. => true
  | _ => false

theorem length_job?_add_countP_isGone (l : List Worker) :
    (l.filterMap job?).length + l.countP isGone + l.countP isIdle = l.length := by
  induction l with
  | nil => rfl
  | cons w l ih =>
    rw [List.filterMap_cons, List.countP_cons, List.countP_cons, List.length_cons]
    cases w <;> simp [job?, isGone, isIdle] <;> omega

end Worker

namespace Crew
open Worker
variable {b c d : Crew} {a : Act} {acts : List Act} {e : Event} {q : Pool} {i n size : Nat} {j : Job}
  {t : Timings} {w x y : Worker} {ended : List (Job × Timings)} {discarded : List Job}

section Rest

theorem Manned.active (h : c.Manned) : c.pool.active = (c.workers.filterMap Worker.job?).length :=
  h.running.length_eq

/-- The pool has room for a worker at leisure. -/
theorem Manned.active_add_gone_lt (h : c.Manned) (hw : w ∈ c.workers) (hidle : w.isIdle = true) :
    c.pool.active + c.pool.gone < c.pool.size := by
  have hpos : 0 < c.workers.countP Worker.isIdle := List.countP_pos_iff.2 ⟨w, hw, hidle⟩
  have hall := Worker.length_job?_add_countP_isGone c.workers
  rw [h.active, h.gone, ← h.size]
  omega

variable [Syntax.Parser]

/-- Nothing keeps a worker that need not wait. -/
theorem Manned.isSome_work? (h : c.Manned) (hl : c.pool.Ledger ended discarded) (hi : c.workers[i]? = some w)
    (hw : w.canWork = true) : (c.work? i).isSome := by
  rw [work?, hi]
  cases w with
  | awake =>
    have hfree := h.active_add_gone_lt (List.mem_of_getElem? hi) rfl
    cases hclosed : c.pool.terminated with
    | true => simp [Pool.leave?, hclosed, hfree]
    | false =>
      have hroom : c.pool.active < c.pool.size := by omega
      cases hqueue : c.pool.queue with
      | nil => simp
      | cons j rest => simp [Pool.dispatch?, hqueue, hclosed, hroom]
  | replying j t =>
    have hrunning := h.mem_running (List.mem_of_getElem? hi) rfl
    have hfind := hl.find?_of_mem (List.mem_append_left _ hrunning)
    simp [Pool.finish?, hfind]
  | taking | done => rfl
  | _ => cases hw

theorem Manned.canWork_of_atRest (h : c.Manned) (hl : c.pool.Ledger ended discarded) (hrest : c.AtRest)
    (hw : w ∈ c.workers) : w.canWork = false := by
  obtain ⟨i, hi⟩ := List.mem_iff_getElem?.1 hw
  by_contra hwork
  have hsome := h.isSome_work? hl hi (by simpa using hwork)
  rw [(hrest i).1] at hsome
  cases hsome

/-- At rest the workers that have a job are converting it. -/
theorem Manned.counter_eq_active (h : c.Manned) (hl : c.pool.Ledger ended discarded) (hrest : c.AtRest) :
    c.counter = c.pool.active := by
  rw [h.counter, h.active, underway]
  refine congrArg List.length (List.filterMap_congr fun w hw => ?_)
  have hstuck := h.canWork_of_atRest hl hrest hw
  cases w with
  | awake | taking | done | replying => cases hstuck
  | _ => rfl

/-- If anything is queued in an open pool at rest, all workers are converting. -/
theorem Manned.underway_of_atRest (h : c.Manned) (hl : c.pool.Ledger ended discarded)
    (hgone : c.pool.gone = 0) (hopen : c.pool.terminated = false) (hrest : c.AtRest)
    (hqueue : 0 < c.pool.queued) (hw : w ∈ c.workers) : (w.underway?).isSome := by
  have hstuck := h.canWork_of_atRest hl hrest hw
  cases w with
  | converting => rfl
  | awake | taking | done | replying => cases hstuck
  | asleep =>
    obtain ⟨i, hi⟩ := List.mem_iff_getElem?.1 hw
    have hnotices : c.notices = 0 := by
      by_contra hnotices
      have hnone := (hrest i).2
      rw [wake?, if_pos (Nat.pos_of_ne_zero hnotices), stir?, hi] at hnone
      cases hnone
    have hawake : c.workers.countP Worker.isAwake = 0 := by
      refine List.countP_eq_zero.2 fun w hw hawake => ?_
      cases w with
      | awake => cases h.canWork_of_atRest hl hrest hw
      | _ => cases hawake
    have hle := h.noticed hopen hw
    rw [hnotices, hawake] at hle
    rw [Pool.queued] at hqueue
    omega
  | gone =>
    have hpos : 0 < c.workers.countP Worker.isGone := List.countP_pos_iff.2 ⟨_, hw, rfl⟩
    rw [← h.gone, hgone] at hpos
    cases hpos

theorem Manned.counter_eq_size (h : c.Manned) (hl : c.pool.Ledger ended discarded)
    (hgone : c.pool.gone = 0) (hopen : c.pool.terminated = false) (hrest : c.AtRest)
    (hqueue : 0 < c.pool.queued) : c.counter = c.pool.size := by
  rw [h.counter, ← h.size, underway, List.filterMap_length_eq_length]
  exact fun w hw => h.underway_of_atRest hl hgone hopen hrest hqueue hw

end Rest

section Events

/-- The workers that have a job are converting it. -/
def Calm (c : Crew) : Prop := ∀ w ∈ c.workers, ∀ j, w.job? = some j → w = .converting j

theorem Calm.put (h : c.Calm) (hy : ∀ j, y.job? = some j → y = .converting j) (hset : d.workers = c.workers.set i y) :
    d.Calm := by
  intro w hw j hj
  rw [hset] at hw
  rcases List.mem_or_eq_of_mem_set hw with hw | rfl
  · exact h w hw j hj
  · exact hy j hj

theorem Manned.counter_of_calm (h : c.Manned) (hcalm : c.Calm) : c.counter = c.pool.active := by
  rw [h.counter, h.active, underway]
  refine congrArg List.length (List.filterMap_congr fun w hw => ?_)
  cases hj : w.job? with
  | some j =>
    rw [hcalm w hw j hj]
    rfl
  | none => cases w <;> first | rfl | cases hj

theorem getElem?_put (hi : c.workers[i]? = some x) (y : Worker) : (c.put i y).workers[i]? = some y :=
  List.getElem?_set_self (List.getElem?_eq_some_iff.1 hi).1

variable [Syntax.Parser]

/-- A crew that some moments lead to. -/
def Leads (c d : Crew) : Prop := ∃ acts, c.run? acts = some d

theorem Leads.step (h : c.Leads b) (hs : b.step? a = some d) : c.Leads d := by
  obtain ⟨acts, hacts⟩ := h
  exact ⟨acts ++ [a], run?_concat_eq_some_iff.2 ⟨b, hacts, hs⟩⟩

/-- A pool that has room has a worker at leisure, and it may wake. -/
theorem exists_awake (hm : c.Manned) (hcalm : c.Calm) (hfree : c.pool.active + c.pool.gone < c.pool.size) :
    ∃ (d : Crew) (i : Nat), c.Leads d ∧ d.pool = c.pool ∧ d.Calm ∧ d.workers[i]? = some .awake := by
  have hidle : 0 < c.workers.countP isIdle := by
    have hall := length_job?_add_countP_isGone c.workers
    rw [hm.active, hm.gone, ← hm.size] at hfree
    omega
  obtain ⟨w, hw, hidle⟩ := List.countP_pos_iff.1 hidle
  obtain ⟨i, hi⟩ := List.mem_iff_getElem?.1 hw
  have hhere : c.Leads c := ⟨[], rfl⟩
  cases w with
  | awake => exact ⟨c, i, hhere, rfl, hcalm, hi⟩
  | asleep =>
    have hcalm' : (c.put i .awake).Calm := hcalm.put (fun j hj => by cases hj) rfl
    exact ⟨c.put i .awake, i, hhere.step (a := .stir i) (stir?_eq_some_iff.2 ⟨hi, rfl⟩), rfl, hcalm',
      getElem?_put hi _⟩
  | _ => cases hidle

/-- One moment after `b`, one of its workers is like `y` and the pool is `p`. -/
def Turns (b : Crew) (i : Nat) (y : Worker) (p : Pool) : Prop :=
  ∃ a d, b.step? a = some d ∧ d.workers = b.workers.set i y ∧ d.pool = p

theorem turns_take (hi : c.workers[i]? = some .awake) (hq : c.pool.step? .dispatch = some q) :
    ∃ j, c.Turns i (.taking j) q := by
  have htake : c.pool.dispatch? = some q := hq
  cases Pool.step_of_step? hq with
  | @dispatch j rest hqueue hopen hfree =>
    refine ⟨j, .work i, { c.put i (.taking j) with pool := _ }, ?_, rfl, rfl⟩
    simp only [step?, work?, hi, hopen, hqueue, htake]
    rfl

theorem turns_quit (hi : c.workers[i]? = some .awake) (hq : c.pool.step? .leave = some q) :
    c.Turns i .gone q := by
  have hquit : c.pool.leave? = some q := hq
  cases Pool.step_of_step? hq with
  | leave hclosed hfree =>
    refine ⟨.work i, { c.put i .gone with pool := _ }, ?_, rfl, rfl⟩
    simp only [step?, work?, hi, hclosed, hquit]
    rfl

theorem turns_enter (hi : c.workers[i]? = some (.taking j)) : c.Turns i (.converting j) c.pool :=
  ⟨.work i, { c.put i (.converting j) with counter := c.counter + 1 }, by rw [step?, work?, hi], rfl, rfl⟩

theorem turns_conclude (hi : c.workers[i]? = some (.converting j)) (t : Timings) :
    c.Turns i (.done j t) c.pool :=
  ⟨.conclude i t, c.put i (.done j t), by rw [step?, conclude?, hi], rfl, rfl⟩

theorem turns_leave (hi : c.workers[i]? = some (.done j t)) : c.Turns i (.replying j t) c.pool :=
  ⟨.work i, { c.put i (.replying j t) with counter := c.counter - 1 }, by rw [step?, work?, hi], rfl, rfl⟩

theorem turns_send (hi : c.workers[i]? = some (.replying j t))
    (hq : c.pool.step? (.finish j.ticket t) = some q) : c.Turns i .awake q := by
  have hfinish : c.pool.finish? j.ticket t = some q := hq
  refine ⟨.work i, { c.put i .awake with pool := q }, ?_, rfl, rfl⟩
  rw [step?, work?, hi]
  exact congrArg (Option.map _) hfinish

theorem Leads.turn (h : c.Leads b) (hi : b.workers[i]? = some x) (hb : b.Turns i y q) :
    ∃ d, c.Leads d ∧ d.workers[i]? = some y ∧ d.workers = b.workers.set i y ∧ d.pool = q := by
  obtain ⟨a, d, ha, hworkers, hpool⟩ := hb
  exact ⟨d, h.step ha, hworkers ▸ getElem?_put hi y, hworkers, hpool⟩

theorem leads_of_dispatch (hm : c.Manned) (hs : c.pool.Staffed) (hcalm : c.Calm)
    (hq : c.pool.step? .dispatch = some q) : ∃ d, c.Leads d ∧ d.pool = q ∧ d.Calm := by
  have hroom : c.pool.active + c.pool.gone < c.pool.size := by
    cases Pool.step_of_step? hq with
    | dispatch _ hopen hfree => rwa [(hs.opened hopen).1]
  obtain ⟨b, i, hb, hpool, hcalm, hi⟩ := exists_awake hm hcalm hroom
  obtain ⟨j, htake⟩ := turns_take hi (hpool ▸ hq)
  obtain ⟨b', hb', hi', hworkers', rfl⟩ := hb.turn hi htake
  obtain ⟨d, hd, -, hworkers, hpool'⟩ := hb'.turn hi' (turns_enter hi')
  rw [hworkers', List.set_set] at hworkers
  exact ⟨d, hd, hpool', hcalm.put (fun k hk => congrArg _ (Option.some_inj.1 hk)) hworkers⟩

theorem leads_of_leave (hm : c.Manned) (hcalm : c.Calm) (hq : c.pool.step? .leave = some q) :
    ∃ d, c.Leads d ∧ d.pool = q ∧ d.Calm := by
  have hroom : c.pool.active + c.pool.gone < c.pool.size := by
    cases Pool.step_of_step? hq with
    | leave _ hfree => exact hfree
  obtain ⟨b, i, hb, hpool, hcalm, hi⟩ := exists_awake hm hcalm hroom
  obtain ⟨d, hd, -, hworkers, hpool'⟩ := hb.turn hi (turns_quit hi (hpool ▸ hq))
  exact ⟨d, hd, hpool', hcalm.put (fun j hj => by cases hj) hworkers⟩

/-- A conversion ends on the thread that submitted the task, or a worker ends it and sends the reply. -/
theorem leads_of_finish (hm : c.Manned) (hcalm : c.Calm) (hq : c.pool.step? (.finish n t) = some q) :
    ∃ d, c.Leads d ∧ d.pool = q ∧ d.Calm := by
  have hhere : c.Leads c := ⟨[], rfl⟩
  obtain ⟨j, hj, -⟩ := Option.map_eq_some_iff.1 hq
  obtain rfl := Pool.ticket_of_find? hj
  rcases List.mem_append.1 (Pool.mem_converting_of_find? hj) with hrunning | hinline
  · obtain ⟨w, hw, hwj⟩ := List.mem_filterMap.1 (hm.running.mem_iff.1 hrunning)
    obtain rfl := hcalm w hw j hwj
    obtain ⟨i, hi⟩ := List.mem_iff_getElem?.1 hw
    obtain ⟨b, hb, hi, hworkers, hpool⟩ := hhere.turn hi (turns_conclude hi t)
    obtain ⟨b', hb', hi', hworkers', hpool'⟩ := hb.turn hi (turns_leave hi)
    rw [← hpool, ← hpool'] at hq
    obtain ⟨d, hd, -, hworkers'', hq⟩ := hb'.turn hi' (turns_send hi' hq)
    rw [hworkers', hworkers, List.set_set, List.set_set] at hworkers''
    exact ⟨d, hd, hq, hcalm.put (fun j hj => by cases hj) hworkers''⟩
  · have hany : c.pool.inline.any (·.ticket == j.ticket) = true := List.any_eq_true.2 ⟨j, hinline, by simp⟩
    refine ⟨{ c with pool := q }, hhere.step (a := .call (.finish j.ticket t)) ?_, rfl, hcalm⟩
    rw [step?, call?, if_pos hany]
    exact congrArg (Option.map _) hq

/-- Each event of the pool is that of some moments of its crew. -/
theorem leads_of_event (hm : c.Manned) (hs : c.pool.Staffed) (hcalm : c.Calm)
    (hq : c.pool.step? e = some q) : ∃ d, c.Leads d ∧ d.pool = q ∧ d.Calm := by
  have hcall {m k : Nat} (h : c.call? e = some { c with pool := q, notices := m, alarms := k }) :
      ∃ d, c.Leads d ∧ d.pool = q ∧ d.Calm :=
    ⟨_, Leads.step ⟨[], rfl⟩ (a := .call e) h, rfl, hcalm⟩
  cases e with
  | submit t mapper =>
    have hsubmit := call?_submit c t mapper
    rw [Option.some_inj.1 hq] at hsubmit
    exact hcall hsubmit
  | terminate => exact hcall (congrArg some (by rw [← Option.some_inj.1 hq]))
  | join | receive | drop =>
    exact hcall (m := c.notices) (k := c.alarms) (congrArg (Option.map _) hq)
  | dispatch => exact leads_of_dispatch hm hs hcalm hq
  | leave => exact leads_of_leave hm hcalm hq
  | finish n t => exact leads_of_finish hm hcalm hq

theorem Leads.trans (h : c.Leads b) (h' : b.Leads d) : c.Leads d := by
  obtain ⟨acts, hacts⟩ := h
  obtain ⟨more, hmore⟩ := h'
  refine ⟨acts ++ more, ?_⟩
  rw [run?, List.foldlM_append]
  exact Option.bind_eq_some_iff.2 ⟨b, hacts, hmore⟩

/-- The pools of crews are those that events lead to, and after each run of events as many workers may count
as active as there are conversions. -/
theorem exists_run_iff : (∃ events, (Pool.start size).run? events = some q) ↔
    ∃ acts c, (start size).run? acts = some c ∧ c.pool = q ∧ c.counter = q.active := by
  constructor
  · rintro ⟨events, hq⟩
    have hleads : ∃ c, (start size).Leads c ∧ c.pool = q ∧ c.Calm := by
      induction events using List.reverseRecOn generalizing q with
      | nil =>
        cases hq
        refine ⟨start size, ⟨[], rfl⟩, rfl, fun w hw j hj => ?_⟩
        rw [List.eq_of_mem_replicate hw] at hj
        cases hj
      | append_singleton events e ih =>
        obtain ⟨p, hp, he⟩ := Pool.run?_concat_eq_some_iff.1 hq
        obtain ⟨c, ⟨acts, hacts⟩, rfl, hcalm⟩ := ih hp
        obtain ⟨d, hd, hpool, hcalm'⟩ := leads_of_event (.of_run hacts) (.of_run hp) hcalm he
        exact ⟨d, Leads.trans ⟨acts, hacts⟩ hd, hpool, hcalm'⟩
    obtain ⟨c, ⟨acts, hacts⟩, rfl, hcalm⟩ := hleads
    exact ⟨acts, c, hacts, rfl, (Manned.of_run hacts).counter_of_calm hcalm⟩
  · rintro ⟨acts, c, hc, rfl, -⟩
    exact exists_pool_run hc

end Events
end Crew
end Coverage.Conversion

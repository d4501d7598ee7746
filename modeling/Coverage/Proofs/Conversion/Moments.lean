import Coverage.Proofs.Conversion.Crew

/-! Where the conversions of a run start and end. A conversion that has started and not ended is what one of the
workers is at. -/
namespace Coverage.Conversion

namespace Worker
variable {w x y : Worker} {j : Job} {l : List Worker} {f : Worker → Option Job} {i n : Nat}

/-- The job whose conversion has ended and that is not answered yet. -/
def replying? : Worker → Option Job
  | replying j _ => some j
  | _ => none

@[simp] theorem replying?_rouse (w : Worker) : w.rouse.replying? = w.replying? := by cases w <;> rfl

theorem job?_of_underway? (h : w.underway? = some j) : w.job? = some j := by
  cases w with
  | converting | done => exact h
  | _ => cases h

theorem underway_sublist (l : List Worker) : (l.filterMap underway?).Sublist (l.filterMap job?) := by
  induction l with
  | nil => exact .slnil
  | cons w l ih =>
    cases w with
    | converting j | done j => exact ih.cons_cons j
    | taking j | replying j => exact ih.cons j
    | _ => exact ih

theorem job?_of_replying? (h : w.replying? = some j) : w.job? = some j := by
  cases w with
  | replying => exact h
  | _ => cases h

/-- One of the workers has a job with this ticket, in the part of its work that `f` tells. -/
def Has (l : List Worker) (f : Worker → Option Job) (n : Nat) : Prop :=
  ∃ w ∈ l, ∃ j, f w = some j ∧ j.ticket = n

theorem has_set (hi : l[i]? = some x) (hj : f y = some j) : Has (l.set i y) f j.ticket :=
  ⟨y, List.mem_set (List.getElem?_eq_some_iff.1 hi).1 y, j, hj, rfl⟩

/-- One worker goes on, and the others keep what they have. -/
theorem Has.set (h : Has l f n) (hi : l[i]? = some x) (y : Worker) :
    Has (l.set i y) f n ∨ ∃ j, f x = some j ∧ j.ticket = n := by
  obtain ⟨before, after, rfl, hset⟩ := exists_set hi
  obtain ⟨w, hw, j, hj, hn⟩ := h
  rw [hset]
  rw [List.mem_append, List.mem_cons] at hw
  rcases hw with hw | rfl | hw
  · exact .inl ⟨w, List.mem_append_left _ hw, j, hj, hn⟩
  · exact .inr ⟨j, hj, hn⟩
  · exact .inl ⟨w, List.mem_append_right _ (List.mem_cons_of_mem _ hw), j, hj, hn⟩

theorem Has.of_set (h : Has (l.set i y) f n) : Has l f n ∨ ∃ j, f y = some j ∧ j.ticket = n := by
  obtain ⟨w, hw, j, hj, hn⟩ := h
  rcases List.mem_or_eq_of_mem_set hw with hw | rfl
  · exact .inl ⟨w, hw, j, hj, hn⟩
  · exact .inr ⟨j, hj, hn⟩

/-- A worker goes on in the same part of its work, or with nothing in it. -/
theorem Has.keep (h : Has l f n) (hi : l[i]? = some x) (hf : f x = none ∨ f y = f x) : Has (l.set i y) f n := by
  rcases h.set hi y with h | ⟨j, hj, rfl⟩
  · exact h
  · rcases hf with hf | hf
    · rw [hf] at hj
      cases hj
    · exact has_set hi (hf.trans hj)

theorem Has.back (h : Has (l.set i y) f n) (hi : l[i]? = some x) (hf : f y = none ∨ f y = f x) : Has l f n := by
  rcases h.of_set with h | ⟨j, hj, hn⟩
  · exact h
  · rcases hf with hf | hf
    · rw [hf] at hj
      cases hj
    · exact ⟨x, List.mem_of_getElem? hi, j, hf ▸ hj, hn⟩

theorem has_rouse (hf : ∀ w : Worker, f w.rouse = f w) : Has (l.map rouse) f n ↔ Has l f n := by
  simp [Has, hf]

end Worker

namespace Crew
open Worker
variable {c d : Crew} {a : Act} {acts : List Act} {i n size : Nat} {j k : Job} {w x y : Worker}
  {ended : List (Job × Timings)} {discarded : List Job}

section History
variable [Syntax.Parser]

/-- At some moment of a run a worker goes on that is like this. -/
def Passes (size : Nat) (acts : List Act) (P : Worker → Prop) : Prop :=
  ∃ before i after c w, acts = before ++ .work i :: after ∧ (start size).run? before = some c ∧
    c.workers[i]? = some w ∧ P w

/-- In a run, the conversion with this ticket starts. -/
def Started (size : Nat) (acts : List Act) (n : Nat) : Prop :=
  Passes size acts fun w => ∃ j, w = .taking j ∧ j.ticket = n

/-- In a run, the conversion with this ticket has returned or crashed, and ends. -/
def Stopped (size : Nat) (acts : List Act) (n : Nat) : Prop :=
  Passes size acts fun w => ∃ j t, w = .done j t ∧ j.ticket = n

theorem passes_concat {P : Worker → Prop} (hc : (start size).run? acts = some c) :
    Passes size (acts ++ [a]) P ↔
      Passes size acts P ∨ ∃ i w, a = .work i ∧ c.workers[i]? = some w ∧ P w := by
  constructor
  · rintro ⟨before, i, after, b, w, hacts, hb, hi, hw⟩
    rcases List.eq_nil_or_concat after with rfl | ⟨after, a', rfl⟩
    · obtain ⟨rfl, ha⟩ := List.append_inj' hacts rfl
      obtain rfl : c = b := Option.some_inj.1 (hc.symm.trans hb)
      exact .inr ⟨i, w, (List.cons.inj ha).1, hi, hw⟩
    · rw [List.concat_eq_append, ← List.cons_append, ← List.append_assoc] at hacts
      obtain ⟨rfl, -⟩ := List.append_inj' hacts rfl
      exact .inl ⟨before, i, after, b, w, rfl, hb, hi, hw⟩
  · rintro (⟨before, i, after, b, w, rfl, hb, hi, hw⟩ | ⟨i, w, rfl, hi, hw⟩)
    · exact ⟨before, i, after ++ [a], b, w, by simp, hb, hi, hw⟩
    · exact ⟨acts, i, [], c, w, rfl, hc, hi, hw⟩

/-- A conversion that is under way after a moment was so before it or has started with it. -/
theorem started_of_step (hs : Step c a d) (hd : Has d.workers underway? n) : Has c.workers underway? n ∨
    ∃ i w, a = .work i ∧ c.workers[i]? = some w ∧ ∃ j, w = .taking j ∧ j.ticket = n := by
  cases hs with
  | call | miss => exact .inl hd
  | @enter i j hi =>
    rcases hd.of_set with hc | ⟨k, hk, hn⟩
    · exact .inl hc
    · cases hk
      exact .inr ⟨i, _, rfl, hi, j, rfl, hn⟩
  | conclude hi => exact .inl (hd.back hi (.inr rfl))
  | alarm => exact .inl ((has_rouse underway?_rouse).1 hd)
  | quit hi | rest hi | take hi | leave hi | send hi | wake hi | stir hi =>
    exact .inl (hd.back hi (.inl rfl))

/-- A conversion that is under way stays so or ends. -/
theorem stopped_of_step (hs : Step c a d) (hc : Has c.workers underway? n) : Has d.workers underway? n ∨
    ∃ i w, a = .work i ∧ c.workers[i]? = some w ∧ ∃ j t, w = .done j t ∧ j.ticket = n := by
  cases hs with
  | call | miss => exact .inl hc
  | @leave i j t hi =>
    rcases hc.set hi _ with hd | ⟨k, hk, hn⟩
    · exact .inl hd
    · cases hk
      exact .inr ⟨i, _, rfl, hi, j, t, rfl, hn⟩
  | conclude hi => exact .inl (hc.keep hi (.inr rfl))
  | alarm => exact .inl ((has_rouse underway?_rouse).2 hc)
  | quit hi | rest hi | take hi | enter hi | send hi | wake hi | stir hi =>
    exact .inl (hc.keep hi (.inl rfl))

/-- A job that is not answered yet stays so or gets its reply. -/
theorem sent_of_step (hs : Step c a d) (hc : Has c.workers replying? n) :
    Has d.workers replying? n ∨ (d.pool.reply? n).isSome := by
  cases hs with
  | call | miss => exact .inl hc
  | @send i j t p hi hpool =>
    rcases hc.set hi _ with hd | ⟨k, hk, hn⟩
    · exact .inl hd
    · cases hk
      cases hpool with
      | finish hfind =>
        refine .inr ((Pool.isSome_reply?_iff n).2 (List.countP_pos_iff.2 ?_))
        exact ⟨_, List.mem_append_right _ List.mem_cons_self, by simp [hn]⟩
  | alarm => exact .inl ((has_rouse replying?_rouse).2 hc)
  | quit hi | rest hi | take hi | enter hi | conclude hi | leave hi | wake hi | stir hi =>
    exact .inl (hc.keep hi (.inl rfl))

/-- A worker with a job goes on in one way. -/
theorem workers_of_work (hs : Step c (.work i) d) (hi : c.workers[i]? = some w) :
    (∀ j, w = .taking j → d.workers = c.workers.set i (.converting j)) ∧
    ∀ j t, w = .done j t → d.workers = c.workers.set i (.replying j t) := by
  cases hs with
  | enter hi' | leave hi' | quit hi' | rest hi' | take hi' | send hi' =>
    obtain rfl := Option.some_inj.1 (hi.symm.trans hi')
    simp

/-- What a run tells of the conversions that are under way now and of those that have ended. -/
structure Told (size : Nat) (acts : List Act) (c : Crew) : Prop where
  started : ∀ n, Has c.workers underway? n → Started size acts n
  underway : ∀ n, Started size acts n → Has c.workers underway? n ∨ Stopped size acts n
  stopped : ∀ n, Stopped size acts n → Has c.workers replying? n ∨ (c.pool.reply? n).isSome

theorem not_passes_nil {P : Worker → Prop} : ¬Passes size [] P := by
  rintro ⟨before, i, after, c, w, hacts, -⟩
  cases before <;> cases hacts

theorem Told.start (size : Nat) : Told size [] (start size) where
  started n := by
    rintro ⟨w, hw, j, hj, -⟩
    rw [List.eq_of_mem_replicate hw] at hj
    cases hj
  underway n h := absurd h not_passes_nil
  stopped n h := absurd h not_passes_nil

theorem Told.step (hc : (Crew.start size).run? acts = some c) (hs : Step c a d) (h : Told size acts c) :
    Told size (acts ++ [a]) d where
  started n hd := (passes_concat hc).2 ((started_of_step hs hd).imp_left (h.started n))
  underway n hn := by
    rcases (passes_concat hc).1 hn with hn | ⟨i, w, rfl, hi, j, rfl, rfl⟩
    · rcases h.underway n hn with hunderway | hstopped
      · exact (stopped_of_step hs hunderway).imp_right fun hnow => (passes_concat hc).2 (.inr hnow)
      · exact .inr ((passes_concat hc).2 (.inl hstopped))
    · rw [(workers_of_work hs hi).1 j rfl]
      exact .inl (has_set hi rfl)
  stopped n hn := by
    rcases (passes_concat hc).1 hn with hn | ⟨i, w, rfl, hi, j, t, rfl, rfl⟩
    · rcases h.stopped n hn with hreplying | hreply
      · exact sent_of_step hs hreplying
      · obtain ⟨r, hr⟩ := Option.isSome_iff_exists.1 hreply
        exact .inr (by rw [(follows_of_step hs).reply? hr]; rfl)
    · rw [(workers_of_work hs hi).2 j t rfl]
      exact .inl (has_set hi rfl)

theorem Told.of_run (hr : (Crew.start size).run? acts = some c) : Told size acts c :=
  run_keeps (.start size) (fun _ _ _ _ _ _ hc _ hs h => h.step hc hs) hr

end History

section Agreement

theorem mem_tickets_underway : n ∈ c.underway.map (·.ticket) ↔ Has c.workers underway? n := by
  rw [List.mem_map]
  constructor
  · rintro ⟨j, hj, hn⟩
    obtain ⟨w, hw, hwj⟩ := List.mem_filterMap.1 hj
    exact ⟨w, hw, j, hwj, hn⟩
  · rintro ⟨w, hw, j, hwj, hn⟩
    exact ⟨j, List.mem_filterMap.2 ⟨w, hw, hwj⟩, hn⟩

variable [Syntax.Parser]

theorem Manned.nodup_tickets (h : c.Manned) (hl : c.pool.Ledger ended discarded) :
    ((c.workers.filterMap job?).map (·.ticket)).Nodup :=
  (h.running.map _).nodup_iff.1 hl.nodup_running

theorem Manned.ticket_ne (h : c.Manned) (hl : c.pool.Ledger ended discarded) (hx : x ∈ c.workers)
    (hy : y ∈ c.workers) (hne : x ≠ y) (hj : x.job? = some j) (hk : y.job? = some k) : j.ticket ≠ k.ticket := by
  have hpairs := h.nodup_tickets hl
  rw [List.Nodup, List.pairwise_map, List.pairwise_filterMap] at hpairs
  have hsymm : Std.Symm fun x y : Worker =>
      ∀ j, x.job? = some j → ∀ k, y.job? = some k → j.ticket ≠ k.ticket :=
    ⟨fun _ _ h _ hj _ hk => (h _ hk _ hj).symm⟩
  exact hpairs.forall hx hy hne _ hj _ hk

/-- What is being converted is neither answered nor about to be. -/
theorem Manned.not_underway_of_answered (h : c.Manned) (hl : c.pool.Ledger ended discarded)
    (hr : (c.pool.reply? n).isSome) : ¬Has c.workers underway? n := by
  rintro ⟨w, hw, j, hj, rfl⟩
  have hrunning := h.mem_running hw (job?_of_underway? hj)
  have hconversions : 0 < c.pool.conversions j.ticket :=
    List.countP_pos_iff.2 ⟨j, List.mem_append_left _ hrunning, by simp⟩
  have hanswers := (Pool.isSome_reply?_iff j.ticket).1 hr
  have honce := hl.once j.ticket
  split at honce <;> omega

theorem Manned.not_underway_of_replying (h : c.Manned) (hl : c.pool.Ledger ended discarded)
    (hn : Has c.workers replying? n) : ¬Has c.workers underway? n := by
  rintro ⟨x, hx, j, hj, rfl⟩
  obtain ⟨y, hy, k, hk, hticket⟩ := hn
  have hne : x ≠ y := by
    rintro rfl
    cases x <;> simp_all [underway?, replying?]
  exact h.ticket_ne hl hx hy hne (job?_of_underway? hj) (job?_of_replying? hk) hticket.symm

theorem Manned.ticket_lt (h : c.Manned) (hl : c.pool.Ledger ended discarded)
    (hn : Has c.workers underway? n) : n < c.pool.accepted := by
  obtain ⟨w, hw, j, hj, rfl⟩ := hn
  have hrunning := h.mem_running hw (job?_of_underway? hj)
  have hjobs := hl.mem_jobs_of_mem_begun (hl.mem_begun_of_mem_converting (List.mem_append_left _ hrunning))
  exact (List.getElem?_eq_some_iff.1 (hl.getElem?_jobs hjobs)).1

/-- In a run, the conversion with this ticket has started and not ended. -/
def Underway (size : Nat) (acts : List Act) (n : Nat) : Prop := Started size acts n ∧ ¬Stopped size acts n

theorem underway_iff (hr : (start size).run? acts = some c) :
    Underway size acts n ↔ Has c.workers underway? n := by
  have htold := Told.of_run hr
  have hmanned := Manned.of_run hr
  obtain ⟨_, _, hl⟩ := exists_ledger hr
  constructor
  · rintro ⟨hstarted, hstopped⟩
    exact (htold.underway n hstarted).resolve_right hstopped
  · intro hn
    refine ⟨htold.started n hn, fun hstopped => ?_⟩
    rcases htold.stopped n hstopped with hreplying | hreply
    · exact hmanned.not_underway_of_replying hl hreplying hn
    · exact hmanned.not_underway_of_answered hl hreply hn

end Agreement
end Crew
end Coverage.Conversion

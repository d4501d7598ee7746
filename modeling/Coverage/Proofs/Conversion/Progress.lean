import Coverage.Conversion.Progress
import Coverage.Proofs.Conversion.Ledger

/-! No accepted task stays without an answer. While one is missing, a worker can take a job or a
conversion can end, and this happens a bounded number of times; and when the calls that terminated the
pool have returned, all answers are there. -/
namespace Coverage.Conversion

/-- What the workers and the conversions do by themselves. -/
def Event.isWork : Event → Bool
  | .dispatch | .finish .. => true
  | _ => false

namespace Pool
variable {p q : Pool} {e : Event} {events : List Event} {n size : Nat} {j : Job} {pace : Pace}
  {ended : List (Job × Timings)} {discarded : List Job}

theorem isSome_find?_of_mem (hj : j ∈ p.converting) : ∃ k, p.find? j.ticket = some k := by
  rw [find?]
  exact Option.isSome_iff_exists.1 (List.find?_isSome.2 ⟨j, hj, by simp⟩)

variable [Syntax.Parser]

/-- With a worker at leisure the queue is empty, or there are no workers. -/
theorem Ledger.queue_eq_nil (h : p.Ledger ended discarded) (hidle : p.dispatch? = none)
    (hrunning : p.running = []) : p.queue = [] := by
  cases hqueue : p.queue with
  | nil => rfl
  | cons j rest =>
    cases hclosed : p.terminated with
    | true => rw [← hqueue, h.closed hclosed]
    | false =>
      rcases Nat.eq_zero_or_pos p.size with hsize | hsize
      · rw [← hqueue, (h.single hsize).1]
      · simp [dispatch?, hqueue, hclosed, active, hrunning, hsize] at hidle

theorem Ledger.isSome_reply? (h : p.Ledger ended discarded) (hqueue : p.queue = [])
    (hconverting : p.converting = []) (hn : n < p.accepted) : (p.reply? n).isSome := by
  have honce := h.once n
  rw [if_pos hn, waits, conversions, hqueue, hconverting] at honce
  rw [isSome_reply?_iff]
  simp only [List.countP_nil] at honce
  omega

theorem advance?_eq_none_iff : p.advance? pace = none ↔
    p.dispatch? = none ∧ ∀ j ∈ p.converting, pace.holds j.ticket = true := by
  rw [advance?]
  cases hd : p.dispatch? with
  | some q => simp
  | none =>
    cases hf : p.converting.find? (!pace.holds ·.ticket) with
    | none => simpa using hf
    | some j =>
      obtain ⟨k, hk⟩ := isSome_find?_of_mem (List.mem_of_find?_eq_some hf)
      have hj := List.find?_some hf
      simp only [finish?, hk, Option.map_some, reduceCtorEq, true_and, false_iff, not_forall]
      exact ⟨j, List.mem_of_find?_eq_some hf, by simpa using hj⟩

theorem advance?_settle (pace : Pace) (p : Pool) : (p.settle pace).advance? pace = none := by
  fun_induction settle pace p with
  | case1 p q h ih => exact ih
  | case2 p h => exact h

/-- A settled pool has answered every task whose conversion is not held back, if it has no workers or
none of them is held up. -/
theorem Ledger.isSome_reply?_settle (h : (p.settle pace).Ledger ended discarded)
    (hfree : 0 < (p.settle pace).size → ∀ m, pace.holds m = false) (hn : n < (p.settle pace).accepted)
    (hholds : pace.holds n = false) : ((p.settle pace).reply? n).isSome := by
  obtain ⟨hidle, hheld⟩ := advance?_eq_none_iff.1 (advance?_settle pace p)
  have hqueue : (p.settle pace).queue = [] := by
    rcases Nat.eq_zero_or_pos (p.settle pace).size with hsize | hsize
    · exact (h.single hsize).1
    · refine h.queue_eq_nil hidle (List.eq_nil_iff_forall_not_mem.2 fun j hj => ?_)
      have := hheld j (List.mem_append_left _ hj)
      simp [hfree hsize] at this
  have hconversions : (p.settle pace).conversions n = 0 := by
    refine List.countP_eq_zero.2 fun j hj hticket => ?_
    have := hheld j hj
    rw [beq_iff_eq.1 hticket, hholds] at this
    cases this
  have honce := h.once n
  rw [if_pos hn, waits, hqueue, hconversions, List.countP_nil] at honce
  rw [isSome_reply?_iff]
  omega

/-- A pool left to itself runs on. -/
theorem run?_settle (pace : Pace) (p : Pool) :
    ∃ events, (∀ e ∈ events, e.isWork = true) ∧ p.run? events = some (p.settle pace) := by
  fun_induction settle pace p with
  | case1 p q h ih =>
    obtain ⟨events, hwork, hrun⟩ := ih
    have hstep : ∃ e : Event, e.isWork = true ∧ p.step? e = some q := by
      rw [advance?] at h
      split at h
      · next hd =>
        cases h
        exact ⟨.dispatch, rfl, hd⟩
      · split at h
        · next j _ => exact ⟨.finish j.ticket (pace.elapsed j.ticket), rfl, h⟩
        · cases h
    obtain ⟨e, he, hs⟩ := hstep
    exact ⟨e :: events, by simpa [he] using hwork, run?_cons_eq_some_iff.2 ⟨q, hs, hrun⟩⟩
  | case2 p h => exact ⟨[], by simp, rfl⟩

/-- The workers, and the calls that terminate the pool. -/
structure Staffed (p : Pool) : Prop where
  within : p.active + p.gone ≤ p.size
  opened : p.terminated = false → p.gone = 0 ∧ p.terminations = 0
  called : p.returned ≤ p.terminations
  joined : 0 < p.terminations → p.returned = p.terminations → p.gone = p.size

namespace Staffed

omit [Syntax.Parser] in
theorem start (size : Nat) : (Pool.start size).Staffed := by
  constructor <;> simp [Pool.start, active]

theorem step (hs : Step p e q) (h : p.Staffed) : q.Staffed := by
  cases hs with
  | refuse => exact h
  | convert => exact { h with }
  | enqueue => exact { h with }
  | dispatch _ hopen hfree =>
    refine { h with within := ?_ }
    simp only [active, (h.opened hopen).1, List.length_append, List.length_singleton] at hfree ⊢
    omega
  | finish =>
    refine { h with within := ?_ }
    exact (Nat.add_le_add_right List.length_eraseP_le _).trans h.within
  | terminate =>
    refine { h with opened := ?_, called := ?_, joined := ?_ }
    · simp [Pool.terminate]
    · exact h.called.trans (Nat.le_succ _)
    · intro _ hall
      have := h.called
      simp only [Pool.terminate] at hall
      omega
  | leave hclosed hfree =>
    refine { h with within := ?_, opened := ?_, joined := ?_ }
    · simp only [active] at hfree ⊢
      omega
    · simp [hclosed]
    · intro hcalls hall
      have := h.joined hcalls hall
      omega
  | join hcalled hwaited =>
    refine { h with called := hcalled, joined := ?_ }
    intro _ hall
    rcases hwaited with hgone | hmore
    · exact hgone
    · simp only at hall
      omega
  | receive => exact { h with }
  | drop => exact { h with }

theorem of_run (h : (Pool.start size).run? events = some p) : p.Staffed :=
  run_keeps (fun _ _ _ hs hp => hp.step hs) h (.start size)

/-- When all calls that terminated a pool with workers have returned, nothing waits or is converted. -/
theorem isSome_reply? (hs : p.Staffed) (h : p.Ledger ended discarded) (hsize : 0 < p.size)
    (hcalls : 0 < p.terminations) (hall : p.returned = p.terminations) (hn : n < p.accepted) :
    (p.reply? n).isSome := by
  have hclosed : p.terminated = true := by
    by_contra hopen
    have := (hs.opened (by simpa using hopen)).2
    omega
  have hrunning : p.running = [] := by
    have hgone := hs.joined hcalls hall
    have hwithin := hs.within
    rw [active, hgone] at hwithin
    exact List.length_eq_zero_iff.1 (by omega)
  refine h.isSome_reply? (h.closed hclosed) ?_ hn
  rw [converting, hrunning, h.threaded hsize, List.append_nil]

end Staffed
end Pool
end Coverage.Conversion

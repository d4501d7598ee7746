import Coverage.Conversion.SharedPool
import Coverage.Proofs.Conversion.History
import Coverage.Syntax.Program

/-! The pool that is shared. No other pool is open, so one that was replaced does not come back. -/
namespace Coverage.Conversion

namespace Pool
variable [Syntax.Parser] {p : Pool} {e : Event}

/-- Where an event is not possible the pool stays as it is, and in any case a terminated one is terminated. -/
theorem terminated_getD (h : p.terminated = true) : ((p.step? e).getD p).terminated = true := by
  cases hq : p.step? e with
  | none => exact h
  | some q => exact (follows_of_step (step_of_step? hq)).terminated h

theorem open_getD (he : e ≠ .terminate) (h : p.terminated = false) : ((p.step? e).getD p).terminated = false := by
  cases hq : p.step? e with
  | none => exact h
  | some q =>
    have hterminated := (work_of_step (step_of_step? hq) h).2
    cases e with
    | terminate => exact absurd rfl he
    | _ => exact hterminated

end Pool

namespace SharedPool
variable {s : SharedPool} {c : Call} {calls : List Call} {e : Event} {i j n : Nat} {f : Pool → Pool}

/-- The pool was made and is not terminated. -/
def Open (s : SharedPool) (i : Nat) : Prop := ∃ p, s.pools[i]? = some p ∧ p.terminated = false

/-- The pool was made and is terminated. -/
def Closed (s : SharedPool) (i : Nat) : Prop := ∃ p, s.pools[i]? = some p ∧ p.terminated = true

theorem isAlive_iff : s.isAlive i = true ↔ s.Open i := by
  simp [isAlive, Open, Option.any_eq_true]

theorem not_open_of_closed (h : s.Closed i) : ¬s.Open i := by
  rintro ⟨p, hp, hopen⟩
  obtain ⟨q, hq, hclosed⟩ := h
  obtain rfl : p = q := Option.some_inj.1 (hp.symm.trans hq)
  rw [hclosed] at hopen
  cases hopen

theorem open_or_closed (h : i < s.pools.length) : s.Open i ∨ s.Closed i := by
  cases hp : s.pools[i].terminated with
  | false => exact .inl ⟨_, List.getElem?_eq_getElem h, hp⟩
  | true => exact .inr ⟨_, List.getElem?_eq_getElem h, hp⟩

theorem Open.lt_length (h : s.Open i) : i < s.pools.length := by
  obtain ⟨p, hp, -⟩ := h
  exact (List.getElem?_eq_some_iff.1 hp).1

section Calls

/-- Only the pool that is shared now may be open. -/
def Sound (s : SharedPool) : Prop := ∀ i, s.Open i → s.current = some i

theorem get_cases (s : SharedPool) (n : Nat) :
    (∃ i, s.current = some i ∧ s.Open i ∧ s.get n = (i, s)) ∨
    (∀ i, s.current = some i → ¬s.Open i) ∧
      s.get n = (s.pools.length, ⟨s.pools ++ [Pool.start n], some s.pools.length⟩) := by
  rw [get]
  cases hfilter : s.current.filter s.isAlive with
  | some i =>
    obtain ⟨hcurrent, halive⟩ := Option.filter_eq_some_iff.1 hfilter
    exact .inl ⟨i, hcurrent, isAlive_iff.1 halive, rfl⟩
  | none =>
    refine .inr ⟨fun i hi hopen => ?_, rfl⟩
    have hsome : s.current.filter s.isAlive = some i :=
      Option.filter_eq_some_iff.2 ⟨hi, isAlive_iff.2 hopen⟩
    rw [hfilter] at hsome
    cases hsome

/-- What is handed out is open. -/
theorem open_get (s : SharedPool) (n : Nat) : (s.get n).2.Open (s.get n).1 := by
  rcases get_cases s n with ⟨i, -, hopen, hget⟩ | ⟨-, hget⟩
  · rw [hget]
    exact hopen
  · rw [hget]
    exact ⟨Pool.start n, List.getElem?_concat_length, rfl⟩

/-- The pool that is open is handed out. -/
theorem get_of_open (hs : s.Sound) (h : s.Open i) (n : Nat) : s.get n = (i, s) := by
  rcases get_cases s n with ⟨j, hj, -, hget⟩ | ⟨hnone, -⟩
  · obtain rfl : i = j := Option.some_inj.1 ((hs i h).symm.trans hj)
    exact hget
  · exact absurd h (hnone i (hs i h))

theorem getElem?_update : (s.update i f).pools[j]? =
    if i = j then s.pools[j]?.map f else s.pools[j]? := by
  rw [update, List.getElem?_modify]
  split
  · rfl
  · simp

theorem open_of_update (hf : ∀ p, p.terminated = true → (f p).terminated = true) (h : (s.update i f).Open j) :
    s.Open j := by
  obtain ⟨q, hq, hopen⟩ := h
  rw [getElem?_update] at hq
  split at hq
  · obtain ⟨p, hp, rfl⟩ := Option.map_eq_some_iff.1 hq
    refine ⟨p, hp, ?_⟩
    by_contra hclosed
    rw [hf p (by simpa using hclosed)] at hopen
    cases hopen
  · exact ⟨q, hq, hopen⟩

theorem Closed.update (h : s.Closed j) (hf : ∀ p, p.terminated = true → (f p).terminated = true) :
    (s.update i f).Closed j := by
  obtain ⟨p, hp, hclosed⟩ := h
  rw [Closed, getElem?_update, hp]
  split
  · exact ⟨_, rfl, hf p hclosed⟩
  · exact ⟨p, rfl, hclosed⟩

theorem Closed.apply [Syntax.Parser] (h : s.Closed i) (c : Call) : (s.apply c).Closed i := by
  cases c with
  | get n =>
    rcases get_cases s n with ⟨j, -, -, hget⟩ | ⟨-, hget⟩
    · rw [SharedPool.apply, hget]
      exact h
    · obtain ⟨p, hp, hclosed⟩ := h
      rw [SharedPool.apply, hget]
      refine ⟨p, ?_, hclosed⟩
      rw [List.getElem?_append_left (List.getElem?_eq_some_iff.1 hp).1, hp]
  | reset =>
    rw [SharedPool.apply, reset]
    split
    · exact h.update (f := Pool.terminate) fun _ _ => rfl
    · exact h
  | use j e => exact h.update fun _ => Pool.terminated_getD

theorem Open.closed_terminate (h : s.Open i) : (s.terminate i).Closed i := by
  obtain ⟨p, hp, -⟩ := h
  exact ⟨p.terminate, by rw [terminate, getElem?_update, if_pos rfl, hp]; rfl, rfl⟩

/-- When the shared pool is forgotten it is terminated, and so no pool is open. -/
theorem not_open_reset (hs : s.Sound) : ¬s.reset.Open i := by
  rw [reset]
  split
  · next j hj =>
    intro hopen
    have hbefore : s.Open i := open_of_update (f := Pool.terminate) (fun _ _ => rfl) hopen
    obtain rfl : j = i := Option.some_inj.1 (hj.symm.trans (hs i hbefore))
    exact not_open_of_closed hbefore.closed_terminate hopen
  · next hnone =>
    intro hopen
    rw [hs i hopen] at hnone
    cases hnone

theorem Sound.apply [Syntax.Parser] (hs : s.Sound) (c : Call) : (s.apply c).Sound := by
  cases c with
  | get n =>
    rcases get_cases s n with ⟨i, -, -, hget⟩ | ⟨hnone, hget⟩
    · rw [SharedPool.apply, hget]
      exact hs
    · rw [SharedPool.apply, hget]
      rintro i ⟨p, hp, hopen⟩
      rcases Nat.lt_or_ge i s.pools.length with hlt | hge
      · rw [List.getElem?_append_left hlt] at hp
        exact absurd ⟨p, hp, hopen⟩ (hnone i (hs i ⟨p, hp, hopen⟩))
      · have hlt := (List.getElem?_eq_some_iff.1 hp).1
        rw [List.length_append, List.length_singleton] at hlt
        exact congrArg some (by omega)
  | reset => exact fun i hi => absurd hi (not_open_reset hs)
  | use j e => exact fun i hi => hs i (open_of_update (fun _ => Pool.terminated_getD) hi)

/-- A pool that is not reset or terminated stays open. -/
theorem Open.apply [Syntax.Parser] (h : s.Open i) (hs : s.Sound) (hreset : c ≠ .reset)
    (hterminate : c ≠ .use i .terminate) : (s.apply c).Open i := by
  cases c with
  | get n =>
    rw [SharedPool.apply, get_of_open hs h]
    exact h
  | reset => exact absurd rfl hreset
  | use j e =>
    obtain ⟨p, hp, hopen⟩ := h
    rw [SharedPool.apply, Open, getElem?_update, hp]
    split
    · next hji =>
      subst hji
      exact ⟨_, rfl, Pool.open_getD (fun he => hterminate (congrArg _ he)) hopen⟩
    · exact ⟨p, rfl, hopen⟩

/-- A reset closes every pool, and its termination one. -/
theorem closed_apply [Syntax.Parser] (hs : s.Sound) (hi : i < s.pools.length)
    (hc : c = .reset ∨ c = .use i .terminate) : (s.apply c).Closed i := by
  rcases open_or_closed hi with hopen | hclosed
  · rcases hc with rfl | rfl
    · rw [SharedPool.apply, reset, hs i hopen]
      exact hopen.closed_terminate
    · exact hopen.closed_terminate
  · exact hclosed.apply c

theorem length_apply [Syntax.Parser] (s : SharedPool) (c : Call) : s.pools.length ≤ (s.apply c).pools.length := by
  cases c with
  | get n =>
    rcases get_cases s n with ⟨i, -, -, hget⟩ | ⟨-, hget⟩
    · rw [SharedPool.apply, hget]
    · rw [SharedPool.apply, hget, List.length_append]
      exact Nat.le_add_right _ _
  | reset =>
    rw [SharedPool.apply, reset]
    split
    · exact (List.length_modify ..).ge
    · exact le_rfl
  | use j e => exact (List.length_modify ..).ge

end Calls

section Runs
variable [Syntax.Parser]

theorem after_append (calls more : List Call) : after (calls ++ more) = more.foldl apply (after calls) :=
  List.foldl_append

theorem sound_foldl (hs : s.Sound) (calls : List Call) : (calls.foldl apply s).Sound := by
  induction calls generalizing s with
  | nil => exact hs
  | cons c calls ih => exact ih (hs.apply c)

theorem sound_after (calls : List Call) : (after calls).Sound :=
  sound_foldl (fun i ⟨p, hp, _⟩ => by simp at hp) calls

theorem Closed.foldl (h : s.Closed i) (calls : List Call) : (calls.foldl SharedPool.apply s).Closed i := by
  induction calls generalizing s with
  | nil => exact h
  | cons c calls ih => exact ih (h.apply c)

theorem Open.foldl (h : s.Open i) (hs : s.Sound) (hreset : .reset ∉ calls)
    (hterminate : .use i .terminate ∉ calls) : (calls.foldl SharedPool.apply s).Open i := by
  induction calls generalizing s with
  | nil => exact h
  | cons c calls ih =>
    rw [List.mem_cons, not_or] at hreset hterminate
    exact ih (h.apply hs (Ne.symm hreset.1) (Ne.symm hterminate.1)) (hs.apply c) hreset.2 hterminate.2

/-- A pool that was made is closed by a reset or its termination, and stays so. -/
theorem closed_foldl (hs : s.Sound) (hi : i < s.pools.length)
    (hc : .reset ∈ calls ∨ .use i .terminate ∈ calls) : (calls.foldl SharedPool.apply s).Closed i := by
  induction calls generalizing s with
  | nil => simp at hc
  | cons c calls ih =>
    by_cases hnow : c = .reset ∨ c = .use i .terminate
    · exact (closed_apply hs hi hnow).foldl calls
    · rw [not_or] at hnow
      refine ih (hs.apply c) (hi.trans_le (length_apply s c)) (hc.imp ?_ ?_)
      · exact fun h => (List.mem_cons.1 h).resolve_left (Ne.symm hnow.1)
      · exact fun h => (List.mem_cons.1 h).resolve_left (Ne.symm hnow.2)

/-- The pool that is handed out after these calls. -/
def handed (calls : List Call) (size : Nat) : Nat := ((after calls).get size).1

theorem open_handed (calls : List Call) (n : Nat) : (after (calls ++ [.get n])).Open (handed calls n) := by
  rw [after_append]
  exact open_get _ n

/-- The pool that is handed out is the one that is open. -/
theorem handed_eq_iff : handed calls n = i ↔ (after (calls ++ [.get n])).Open i := by
  constructor
  · rintro rfl
    exact open_handed calls n
  · intro h
    have hs := sound_after (calls ++ [.get n])
    exact Option.some_inj.1 ((hs _ (open_handed calls n)).symm.trans (hs _ h))

theorem handed_ne_of_closed (h : (after calls).Closed i) (n : Nat) : handed calls n ≠ i := by
  intro hi
  have hopen := handed_eq_iff.1 hi
  rw [after_append] at hopen
  exact not_open_of_closed (h.apply (.get n)) hopen

/-- What becomes of the pool that is handed out after these calls. -/
structure Shared (calls : List Call) (n : Nat) : Prop where
  opened : (after (calls ++ [.get n])).Open (handed calls n)
  /-- It is handed out again if it was not reset or terminated, -/
  again : ∀ between m, handed (calls ++ .get n :: between) m = handed calls n ↔
    .reset ∉ between ∧ .use (handed calls n) .terminate ∉ between
  /-- and it is not after another one. -/
  replaced : ∀ between m later k, handed (calls ++ .get n :: between) m ≠ handed calls n →
    handed (calls ++ .get n :: between ++ .get m :: later) k ≠ handed calls n
  reset : ∀ between later, (after (calls ++ .get n :: between ++ .reset :: later)).Closed (handed calls n)

/-- Whatever is called, and whatever the pools that were handed out are used for, a pool is shared until it
is reset or terminated, and not after that. -/
theorem shared_of_get (calls : List Call) (n : Nat) : Shared calls n := by
  have hopen := open_handed calls n
  have hsound := sound_after (calls ++ [.get n])
  have hafter (between : List Call) : after (calls ++ .get n :: between) =
      between.foldl apply (after (calls ++ [.get n])) := by
    rw [← after_append, List.append_assoc, List.singleton_append]
  have hclosed (between : List Call) (h : .reset ∈ between ∨ .use (handed calls n) .terminate ∈ between) :
      (after (calls ++ .get n :: between)).Closed (handed calls n) := by
    rw [hafter]
    exact closed_foldl hsound hopen.lt_length h
  have hagain (between : List Call) (m : Nat) (hreset : .reset ∉ between)
      (hterminate : .use (handed calls n) .terminate ∉ between) :
      handed (calls ++ .get n :: between) m = handed calls n := by
    have hstill := hopen.foldl hsound hreset hterminate
    rw [← hafter] at hstill
    rw [handed, get_of_open (sound_after _) hstill]
  refine ⟨hopen, fun between m => ⟨fun hsame => ?_, fun h => hagain between m h.1 h.2⟩,
    fun between m later k hother => ?_, fun between later => ?_⟩
  · by_contra hnot
    exact handed_ne_of_closed (hclosed between (by tauto)) m hsame
  · -- another pool is handed out only when this one is closed
    have hgone : (after (calls ++ .get n :: between)).Closed (handed calls n) := by
      refine hclosed between (by_contra fun hnot => hother ?_)
      rw [not_or] at hnot
      exact hagain between m hnot.1 hnot.2
    refine handed_ne_of_closed ?_ k
    rw [after_append]
    exact hgone.foldl _
  · have h := hclosed (between ++ .reset :: later) (.inl (by simp))
    rwa [List.append_assoc, List.cons_append]

end Runs

example : handed [] 2 = 0 ∧ handed [.get 2] 2 = 0 ∧ handed [.get 2, .reset] 2 = 1 := by decide

end SharedPool
end Coverage.Conversion

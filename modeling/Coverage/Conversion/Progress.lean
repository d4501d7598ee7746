import Coverage.Conversion.Pool

/-!
A pool left to itself: workers take jobs and end them until nothing can move. Each such move brings a
job closer to its reply, so they end.
-/
namespace Coverage.Conversion

/-- Which conversions are held back for now, and how long each takes. -/
structure Pace where
  holds : Nat → Bool := fun _ => false
  elapsed : Nat → Timings := fun _ => ⟨0, 0⟩

namespace Pool

/-- How many moves the accepted tasks are away from their replies. -/
def pending (p : Pool) : Nat := 2 * p.queue.length + p.running.length + p.inline.length

theorem pending_dispatch {p q : Pool} (h : p.dispatch? = some q) : q.pending < p.pending := by
  unfold dispatch? at h
  split at h
  · simp at h
  · rename_i hq
    split at h
    · cases h
      simp only [pending, hq, List.length_append, List.length_cons, List.length_nil]
      omega
    · simp at h

theorem length_without_le (n : Nat) (l : List Job) : (without n l).length ≤ l.length :=
  List.length_eraseP_le

theorem length_without_lt {n : Nat} {l : List Job} {j : Job} (h : j ∈ l) (hn : j.ticket = n) :
    (without n l).length < l.length := by
  have := List.length_eraseP_of_mem h (p := fun j => j.ticket == n) (by simp [hn])
  have := List.length_pos_of_mem h
  simp only [without]
  omega

variable [Syntax.Parser]

theorem pending_finish {p q : Pool} {n : Nat} {t : Timings} (h : p.finish? n t = some q) :
    q.pending < p.pending := by
  obtain ⟨j, hj, rfl⟩ := Option.map_eq_some_iff.1 h
  have hn : j.ticket = n := by simpa using List.find?_some hj
  have hr := length_without_le n p.running
  have hi := length_without_le n p.inline
  simp only [pending]
  obtain hm | hm := List.mem_append.1 (List.mem_of_find?_eq_some hj)
  · have := length_without_lt hm hn
    omega
  · have := length_without_lt hm hn
    omega

/-- A free worker takes a job; if none can, a conversion that is not held back ends. -/
def advance? (pace : Pace) (p : Pool) : Option Pool :=
  match p.dispatch? with
  | some q => some q
  | none =>
    match p.converting.find? (!pace.holds ·.ticket) with
    | some j => p.finish? j.ticket (pace.elapsed j.ticket)
    | none => none

theorem pending_advance {pace : Pace} {p q : Pool} (h : p.advance? pace = some q) :
    q.pending < p.pending := by
  unfold advance? at h
  split at h
  · rename_i hd
    cases h
    exact pending_dispatch hd
  · split at h
    · exact pending_finish h
    · simp at h

/-- The pool when nothing moves any more. -/
def settle (pace : Pace) (p : Pool) : Pool :=
  match _h : p.advance? pace with
  | some q => settle pace q
  | none => p
termination_by p.pending
decreasing_by exact pending_advance _h

end Pool
end Coverage.Conversion

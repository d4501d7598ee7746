import Coverage.Proofs.Conversion.Dispatch

/-! A batch on a pool in any state. Up to some place its tasks are carried out, and each of them hears of
its own conversion; from there on they are refused, and then the pool has been terminated. -/
namespace Coverage.Conversion
namespace Batch
variable {p q : Pool} {pace : Pace} {schedule : Schedule} {t : Task} {mapper : Mapper}
  {l : List (Task × Mapper)} {events : List Event}

theorem ticket_lt_of_submit {n : Nat} (h : (submit mapper p t).2.ticket = .ok n)
    (hq : Pool.Follows (submit mapper p t).1 q) : n < q.accepted := by
  cases hclosed : p.terminated with
  | true =>
    rw [submit_of_terminated hclosed] at h
    cases h
  | false =>
    rw [(submit_of_open hclosed t mapper).1] at h
    cases h
    exact (List.getElem?_eq_some_iff.1 (getElem?_jobs_of_open hclosed hq)).1

theorem reply_of_isSome {n : Nat} (h : (q.reply? n).isSome) (url : String) :
    q.reply? n = some (reply q ⟨url, .ok n⟩) := by
  obtain ⟨r, hr⟩ := Option.isSome_iff_exists.1 h
  simp [reply, hr]

variable [Syntax.Parser]

/-- What a task hears when it has been answered, by how many conversions have begun. -/
theorem reply_of_submit (h : p.Reachable)
    (hq : (submit mapper p t).1.run? events = some q)
    (hanswered : ∀ n, (submit mapper p t).2.ticket = .ok n → (q.reply? n).isSome) :
    p.accepted < q.begun.length ∧
        (∃ elapsed, reply q (submit mapper p t).2 = t.reply mapper elapsed) ∨
      q.begun.length ≤ p.accepted ∧ q.terminated = true ∧
        reply q (submit mapper p t).2 = .error .poolTerminated := by
  have hfollows := Pool.follows_of_run hq
  cases hclosed : p.terminated with
  | true =>
    rw [submit_of_terminated hclosed] at hfollows ⊢
    obtain ⟨_, _, hl⟩ := h.exists_ledger
    refine .inr ⟨?_, hfollows.terminated hclosed, rfl⟩
    rw [(hfollows.closed hclosed).2, Pool.accepted, hl.jobs]
    exact (List.prefix_append _ _).length_le
  | false =>
    rw [(submit_of_open hclosed t mapper).1] at hanswered ⊢
    obtain ⟨_, _, hl⟩ := (reachable_of_submit h hq).exists_ledger
    have hjob := getElem?_jobs_of_open hclosed hfollows
    rcases hl.reply?_cases hjob (reply_of_isSome (hanswered _ rfl) t.url) with
      ⟨hlt, elapsed, hown⟩ | hrefused
    · exact .inl ⟨hlt, elapsed, hown⟩
    · exact .inr hrefused

theorem exists_run_submitAll (pace : Pace) (p : Pool) (schedule : Schedule)
    (l : List (Task × Mapper)) :
    ∃ events, p.run? events = some (submitAll pace p schedule l).1 := by
  induction l generalizing p schedule with
  | nil => exact ⟨[], rfl⟩
  | cons c l ih =>
    obtain ⟨before, hbefore⟩ := exists_run_call pace p (schedule.headD []) c.1 c.2
    obtain ⟨after, hafter⟩ := ih (call pace p (schedule.headD []) c.1 c.2).1 schedule.tail
    refine ⟨.submit c.1 c.2 :: (before ++ after), ?_⟩
    exact Pool.run?_cons_eq_some_iff.2 ⟨_, step?_submit c.2 p c.1,
      Pool.run?_append_eq_some_iff.2 ⟨_, hbefore, hafter⟩⟩

theorem exists_run_runEach (p : Pool) (pace : Pace) (schedule : Schedule)
    (l : List (Task × Mapper)) :
    ∃ events, p.run? events = some (runEach p pace schedule l).1 := by
  obtain ⟨before, hbefore⟩ := exists_run_submitAll pace p schedule l
  obtain ⟨after, -, hafter⟩ := Pool.run?_settle pace (submitAll pace p schedule l).1
  exact ⟨before ++ after, Pool.run?_append_eq_some_iff.2 ⟨_, hbefore, hafter⟩⟩

/-- A batch goes on from its first call. -/
theorem exists_run_rest (pace : Pace) (p : Pool) (schedule : Schedule) (t : Task) (mapper : Mapper)
    (l : List (Task × Mapper)) : ∃ events, (submit mapper p t).1.run? events =
      some (submitAll pace p schedule ((t, mapper) :: l)).1 := by
  obtain ⟨before, hbefore⟩ := exists_run_call pace p (schedule.headD []) t mapper
  obtain ⟨after, hafter⟩ :=
    exists_run_submitAll pace (call pace p (schedule.headD []) t mapper).1 schedule.tail l
  exact ⟨before ++ after, Pool.run?_append_eq_some_iff.2 ⟨_, hbefore, hafter⟩⟩

/-- What a batch waits for comes to an end: no task of its own is held back, and no worker. -/
structure Ends (pace : Pace) (p : Pool) (schedule : Schedule) (l : List (Task × Mapper)) : Prop where
  own : ∀ s ∈ (submitAll pace p schedule l).2, ∀ n, s.ticket = .ok n → pace.holds n = false
  workers : 0 < p.size → ∀ n, pace.holds n = false

/-- The tasks that were accepted have been answered in a pool. -/
def Answered (q : Pool) (l : List Submission) : Prop :=
  ∀ s ∈ l, ∀ n, s.ticket = .ok n → (q.reply? n).isSome

theorem ticket_lt {s : Submission} {n : Nat} (hs : s ∈ (submitAll pace p schedule l).2)
    (hn : s.ticket = .ok n) : n < (submitAll pace p schedule l).1.accepted := by
  induction l generalizing p schedule with
  | nil => cases hs
  | cons c l ih =>
    rcases List.mem_cons.1 hs with rfl | hs
    · obtain ⟨events, hrun⟩ := exists_run_rest pace p schedule c.1 c.2 l
      exact ticket_lt_of_submit hn (Pool.follows_of_run hrun)
    · exact ih hs

/-- A batch that waits for nothing that is held back gets all its answers. -/
theorem answered_runEach (h : p.Reachable) (hends : Ends pace p schedule l) :
    Answered (runEach p pace schedule l).1 (submitAll pace p schedule l).2 := by
  intro s hs n hn
  obtain ⟨events, hrun⟩ := exists_run_runEach p pace schedule l
  obtain ⟨_, _, hl⟩ := (h.of_run hrun).exists_ledger
  obtain ⟨work, -, hwork⟩ := Pool.run?_settle pace (submitAll pace p schedule l).1
  refine hl.isSome_reply?_settle ?_ ?_ (hends.own s hs n hn)
  · intro hsize
    exact hends.workers ((Pool.follows_of_run hrun).size ▸ hsize)
  · exact (ticket_lt hs hn).trans_le (Pool.follows_of_run hwork).jobs.length_le

theorem reachable_call (h : p.Reachable) (during : List Event) (t : Task) (mapper : Mapper) :
    (call pace p during t mapper).1.Reachable := by
  obtain ⟨events, hrun⟩ := exists_run_call pace p during t mapper
  exact reachable_of_submit h hrun

/-- What the first task of a batch hears in the end. -/
theorem reply_of_first (h : p.Reachable)
    (hq : (submitAll pace p schedule ((t, mapper) :: l)).1.run? events = some q)
    (hanswered : Answered q (submitAll pace p schedule ((t, mapper) :: l)).2) :
    p.accepted < q.begun.length ∧
        (∃ elapsed, reply q (submit mapper p t).2 = t.reply mapper elapsed) ∨
      q.begun.length ≤ p.accepted ∧ q.terminated = true ∧
        reply q (submit mapper p t).2 = .error .poolTerminated := by
  obtain ⟨rest, hrest⟩ := exists_run_rest pace p schedule t mapper l
  exact reply_of_submit h (Pool.run?_append_eq_some_iff.2 ⟨_, hrest, hq⟩)
    (hanswered _ List.mem_cons_self)

/-- After the last conversion that began there are only refusals. -/
theorem replies_of_late (h : p.Reachable) (hq : (submitAll pace p schedule l).1.run? events = some q)
    (hanswered : Answered q (submitAll pace p schedule l).2) (hlate : q.begun.length ≤ p.accepted) :
    (submitAll pace p schedule l).2.map (reply q) =
      List.replicate l.length (.error .poolTerminated) := by
  induction l generalizing p schedule with
  | nil => rfl
  | cons c l ih =>
    -- what is submitted later comes behind even more tasks, so it is late as well
    have hlater := (follows_call pace p (schedule.headD []) c.1 c.2).jobs.length_le
    have hrest := ih (reachable_call h _ _ _) hq (fun s hs => hanswered s (List.mem_cons_of_mem _ hs))
      (hlate.trans hlater)
    rcases reply_of_first h hq hanswered with ⟨hbegun, -⟩ | ⟨-, -, hrefused⟩
    · exact absurd hbegun hlate.not_gt
    · rw [List.length_cons, List.replicate_succ, ← hrest, ← hrefused]
      rfl

/-- The reply is that of the task itself, however long it took. -/
def Outcome (c : Task × Mapper) (r : Reply) : Prop := ∃ elapsed, r = c.1.reply c.2 elapsed

/-- How a batch is replied to: up to some place each task is carried out, and the rest are refused. -/
structure Replied (l : List (Task × Mapper)) (replies : List Reply) (closed : Bool)
    (carried refused : List (Task × Mapper)) (own : List Reply) : Prop where
  tasks : l = carried ++ refused
  replies : replies = own ++ List.replicate refused.length (.error .poolTerminated)
  outcomes : List.Forall₂ Outcome carried own
  closed : refused ≠ [] → closed = true

/-- Each task is carried out or refused, and none is carried out after one that was refused. -/
theorem replied_of_answered (h : p.Reachable)
    (hq : (submitAll pace p schedule l).1.run? events = some q)
    (hanswered : Answered q (submitAll pace p schedule l).2) :
    ∃ carried refused own,
      Replied l ((submitAll pace p schedule l).2.map (reply q)) q.terminated carried refused own := by
  -- with each task the pool goes on from its call, while the pool in the end stays the same
  induction l generalizing p schedule with
  | nil => exact ⟨[], [], [], rfl, rfl, .nil, fun hne => absurd rfl hne⟩
  | cons c l ih =>
    rcases reply_of_first h hq hanswered with ⟨-, elapsed, hown⟩ | ⟨hlate, hclosed, -⟩
    · obtain ⟨carried, refused, own, hreplied⟩ := ih (reachable_call h _ _ _) hq
        fun s hs => hanswered s (List.mem_cons_of_mem _ hs)
      refine ⟨c :: carried, refused, c.1.reply c.2 elapsed :: own, ?_, ?_, ?_, hreplied.closed⟩
      · rw [hreplied.tasks, List.cons_append]
      · rw [List.cons_append, ← hreplied.replies, ← hown]
        rfl
      · exact .cons ⟨elapsed, rfl⟩ hreplied.outcomes
    · exact ⟨[], c :: l, [], rfl, replies_of_late h hq hanswered hlate, .nil, fun _ => hclosed⟩

theorem exists_replied (h : p.Reachable) (hends : Ends pace p schedule l) :
    ∃ carried refused own, Replied l (runEach p pace schedule l).2
      (runEach p pace schedule l).1.terminated carried refused own := by
  obtain ⟨work, -, hwork⟩ := Pool.run?_settle pace (submitAll pace p schedule l).1
  exact replied_of_answered h hwork (answered_runEach h hends)

end Batch

theorem Task.fragment?_reply [Syntax.Parser] (t : Task) (mapper : Mapper) (elapsed elapsed' : Timings) :
    (t.reply mapper elapsed).fragment? = (t.reply mapper elapsed').fragment? := by
  rw [reply, reply, convert?, convert?]
  cases t.input? with
  | none => rfl
  | some i =>
    dsimp only
    cases mapper i <;> rfl

namespace Batch

/-- What a task contributes when it is carried out. -/
def fragment? [Syntax.Parser] (c : Task × Mapper) : Option CoverageMap := (c.1.reply c.2 ⟨0, 0⟩).fragment?

theorem Outcome.fragment?_eq [Syntax.Parser] {c : Task × Mapper} {r : Reply} (h : Outcome c r) :
    r.fragment? = fragment? c := by
  obtain ⟨elapsed, rfl⟩ := h
  exact c.1.fragment?_reply c.2 elapsed _

section Outcomes
variable [Syntax.Parser] {l : List (Task × Mapper)} {replies : List Reply}

theorem fragments_of_outcomes (h : List.Forall₂ Outcome l replies) :
    replies.filterMap Reply.fragment? = l.filterMap fragment? := by
  induction h with
  | nil => rfl
  | cons hc _ ih => rw [List.filterMap_cons, List.filterMap_cons, hc.fragment?_eq, ih]

theorem failures_of_outcomes (h : List.Forall₂ Outcome l replies) :
    replies.countP (·.fragment?.isNone) = l.countP fun c => (fragment? c).isNone := by
  induction h with
  | nil => rfl
  | cons hc _ ih => rw [List.countP_cons, List.countP_cons, hc.fragment?_eq, ih]

namespace Replied
variable {closed : Bool} {carried refused : List (Task × Mapper)} {own : List Reply}

theorem fragments (h : Replied l replies closed carried refused own) :
    replies.filterMap Reply.fragment? = carried.filterMap fragment? := by
  rw [h.replies, List.filterMap_append, List.filterMap_replicate_of_none rfl, List.append_nil,
    fragments_of_outcomes h.outcomes]

theorem failures (h : Replied l replies closed carried refused own) :
    replies.countP (·.fragment?.isNone) =
      carried.countP (fun c => (fragment? c).isNone) + refused.length := by
  rw [h.replies, List.countP_append, failures_of_outcomes h.outcomes, List.countP_replicate,
    if_pos (by rfl)]

theorem length_eq (h : Replied l replies closed carried refused own) : replies.length = l.length := by
  rw [h.replies, h.tasks, List.length_append, List.length_append, List.length_replicate,
    h.outcomes.length_eq]

end Replied
end Outcomes
end Batch

end Coverage.Conversion

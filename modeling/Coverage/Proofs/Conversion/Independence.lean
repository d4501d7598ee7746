import Coverage.Proofs.Conversion.Batch
import Coverage.Syntax.Program

/-! On a pool that stays open a batch comes to what its tasks come to one by one. How many workers there
are, and who is done first, cannot be seen in the outcome. -/
namespace Coverage.Conversion
namespace Batch
variable [Syntax.Parser] {p : Pool} {pace : Pace} {schedule : Schedule} {l : List (Task × Mapper)}

/-- A batch in a pool that some events have led to: it ends, and its pool is open all the time. -/
structure Unstopped (pace : Pace) (p : Pool) (schedule : Schedule) (l : List (Task × Mapper)) :
    Prop where
  reachable : p.Reachable
  ends : Ends pace p schedule l
  opened : (runEach p pace schedule l).1.terminated = false

/-- In a pool that is open to the end every task is carried out. -/
theorem outcomes_of_unstopped (h : Unstopped pace p schedule l) :
    List.Forall₂ Outcome l (runEach p pace schedule l).2 := by
  obtain ⟨carried, refused, own, hreplied⟩ := exists_replied h.reachable h.ends
  have hnone : refused = [] := by
    by_contra hsome
    have hclosed := hreplied.closed hsome
    rw [h.opened] at hclosed
    cases hclosed
  rw [hreplied.replies, hreplied.tasks, hnone]
  simpa using hreplied.outcomes

theorem terminated_perform {e : Event} (he : e.isTerminate = false) (h : p.terminated = false) :
    (perform p e).terminated = false := by
  rw [perform]
  cases hs : p.step? e with
  | none => exact h
  | some q => exact (Pool.work_of_step (Pool.step_of_step? hs) h).2.trans he

theorem terminated_settle (pace : Pace) (p : Pool) : (p.settle pace).terminated = p.terminated := by
  obtain ⟨events, hwork, hrun⟩ := Pool.run?_settle pace p
  have hnone : events.any Event.isTerminate = false := by
    refine List.any_eq_false.2 fun e he hclosed => ?_
    have := hwork e he
    cases e <;> simp_all [Event.isTerminate, Event.isWork]
  rw [Pool.terminated_of_run hrun, hnone, Bool.or_false]

theorem terminated_call {t : Task} {mapper : Mapper} {during : List Event}
    (hduring : ∀ e ∈ during, e.isTerminate = false)
    (h : p.terminated = false) : (call pace p during t mapper).1.terminated = false := by
  have hsubmit : (submit mapper p t).1.terminated = false :=
    (Pool.work_of_step (Pool.step_of_step? (step?_submit mapper p t)) h).2
  have hperformed : (during.foldl perform (submit mapper p t).1).terminated = false :=
    List.foldlRecOn (motive := fun q => q.terminated = false) during perform hsubmit
      fun _ hq e he => terminated_perform (hduring e he) hq
  rw [call_eq, returned]
  split
  · exact (terminated_settle pace _).trans hperformed
  · exact hperformed

/-- A pool is terminated by what is scheduled or not at all. -/
theorem terminated_runEach (hschedule : ∀ during ∈ schedule, ∀ e ∈ during, e.isTerminate = false)
    (h : p.terminated = false) : (runEach p pace schedule l).1.terminated = false := by
  refine (terminated_settle pace _).trans ?_
  induction l generalizing p schedule with
  | nil => exact h
  | cons c l ih =>
    refine ih (fun during hd => hschedule during (List.mem_of_mem_tail hd)) (terminated_call ?_ h)
    cases schedule with
    | nil => simp
    | cons during rest => exact hschedule during List.mem_cons_self

/-- Without an end on the schedule, and with nothing held back, nothing stops a batch. -/
theorem Unstopped.of_schedule (hp : p.Reachable) (hopen : p.terminated = false)
    (hholds : ∀ n, pace.holds n = false)
    (hschedule : ∀ during ∈ schedule, ∀ e ∈ during, e.isTerminate = false) :
    Unstopped pace p schedule l where
  reachable := hp
  ends := ⟨fun _ _ n _ => hholds n, fun _ => hholds⟩
  opened := terminated_runEach hschedule hopen

end Batch

namespace Assembly
variable [Syntax.Parser] {maps : PositionMaps} {o : RangeOptions} {mapper : Mapper} {scripts : List RawScript}

theorem ofScripts_eq (p : Pool) (pace : Pace) (schedule : Batch.Schedule) :
    ofScripts p maps o mapper pace schedule scripts = ofReplies (Batch.skipped scripts)
      (Batch.run p mapper pace schedule (Batch.tasks maps o scripts)).2 := by
  have htasks : (scripts.map (·, mapper)).filterMap
      (fun c => (Task.ofScript? maps o c.1).map (·, c.2)) =
      (Batch.tasks maps o scripts).map (·, mapper) := by
    rw [Batch.tasks, List.filterMap_map, List.map_filterMap]
    rfl
  rw [ofScripts, ofEach, htasks, List.map_map]
  exact congrArg (fun l => ofReplies (Batch.skipped l) _) (List.map_id scripts)

/-- What scripts come to without a pool, each converted by itself. -/
def oneByOne (maps : PositionMaps) (o : RangeOptions) (mapper : Mapper) (scripts : List RawScript) :
    Assembly :=
  ofReplies (Batch.skipped scripts) ((Batch.tasks maps o scripts).map (·.reply mapper ⟨0, 0⟩))

theorem ofScripts_eq_oneByOne {p : Pool} {pace : Pace} {schedule : Batch.Schedule}
    (h : Batch.Unstopped pace p schedule ((Batch.tasks maps o scripts).map (·, mapper))) :
    ofScripts p maps o mapper pace schedule scripts = oneByOne maps o mapper scripts := by
  have houtcomes := Batch.outcomes_of_unstopped h
  have hfragments := Batch.fragments_of_outcomes houtcomes
  have hfailures := Batch.failures_of_outcomes houtcomes
  rw [List.filterMap_map] at hfragments
  rw [List.countP_map] at hfailures
  simp only [ofScripts_eq, oneByOne, ofReplies, Batch.run, hfragments, hfailures,
    List.filterMap_map, List.countP_map]
  rfl

end Assembly

namespace Batch

/-- The pool and its schedule cannot be told from the outcome, be it of tasks or of scripts. -/
theorem independent_of_pool [Syntax.Parser] (mapper : Mapper) :
    (∀ (pace : Pace) (p : Pool) (schedule : Schedule) (tasks : List Task),
      Unstopped pace p schedule (tasks.map (·, mapper)) →
        Answered (run p mapper pace schedule tasks).1
            (submitAll pace p schedule (tasks.map (·, mapper))).2 ∧
          List.Forall₂ (fun t r => ∃ elapsed, r = t.reply mapper elapsed) tasks
            (run p mapper pace schedule tasks).2) ∧
    ∀ (maps : PositionMaps) (o : RangeOptions) (scripts : List RawScript) (pace : Pace) (p : Pool)
      (schedule : Schedule), Unstopped pace p schedule ((tasks maps o scripts).map (·, mapper)) →
        Assembly.ofScripts p maps o mapper pace schedule scripts =
          Assembly.oneByOne maps o mapper scripts := by
  refine ⟨fun pace p schedule tasks h => ⟨answered_runEach h.reachable h.ends, ?_⟩,
    fun maps o scripts pace p schedule h => Assembly.ofScripts_eq_oneByOne h⟩
  exact List.forall₂_map_left_iff.1 (outcomes_of_unstopped h)

/-- Two workers, and the second task is done before the first. -/
def secondFirst : Schedule := [[], [.dispatch, .dispatch, .finish 1 ⟨3, 4⟩, .finish 0 ⟨1, 2⟩]]

def threeScripts : List RawScript :=
  [⟨"/a.js", some "let a = 1;", []⟩, ⟨"/b.js", none, []⟩, ⟨"/c.js", some "let a = 1;", []⟩]

theorem unstopped_sample (l : List (Task × Mapper)) : Unstopped {} (.start 2) secondFirst l :=
  .of_schedule ⟨2, [], rfl⟩ rfl (fun _ => rfl) (by decide)

theorem independent_of_pool_sample :
    List.Forall₂ (fun t r => ∃ elapsed, r = t.reply Pool.emptyFile elapsed)
        [Pool.script "/a.js", Pool.script "/b.js"]
        (run (.start 2) Pool.emptyFile {} secondFirst [Pool.script "/a.js", Pool.script "/b.js"]).2 ∧
      Assembly.ofScripts (.start 2) (fun _ => none) {} Pool.emptyFile {} secondFirst threeScripts =
        Assembly.ofScripts (.start 0) (fun _ => none) {} Pool.emptyFile {} [] threeScripts ∧
      (Assembly.ofScripts (.start 0) (fun _ => none) {} Pool.emptyFile {} [] threeScripts).converted
        = 2 := by
  have hmany := (independent_of_pool Pool.emptyFile).2 (fun _ => none) {} threeScripts {} (.start 2)
    secondFirst (unstopped_sample _)
  have hnone := (independent_of_pool Pool.emptyFile).2 (fun _ => none) {} threeScripts {} (.start 0) []
    (.of_schedule ⟨0, [], rfl⟩ rfl (fun _ => rfl) (by simp))
  refine ⟨?_, hmany.trans hnone.symm, ?_⟩
  · exact ((independent_of_pool Pool.emptyFile).1 {} _ secondFirst _ (unstopped_sample _)).2
  · rw [hnone]
    decide +kernel

end Batch
end Coverage.Conversion

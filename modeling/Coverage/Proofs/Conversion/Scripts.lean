import Coverage.Proofs.Conversion.Batch
import Coverage.Syntax.Program

/-! What becomes of scripts on a pool in any state: each is skipped, carried out or refused. Those that
are carried out contribute what they would contribute alone, and no other script takes that away. -/
namespace Coverage

theorem RawScript.usable?_eq_none_iff (s : RawScript) :
    s.usable? = none ↔ s.url = "" ∨ s.code = none ∨ s.code = some "" := by
  rw [usable?]
  cases s.code with
  | none => simp
  | some code => simp [Option.filter_eq_none_iff, or_iff_not_imp_left]

namespace Conversion

theorem Task.isSome_ofScript? (maps : PositionMaps) (o : RangeOptions) (s : RawScript) :
    (ofScript? maps o s).isSome = s.usable?.isSome := by
  rw [ofScript?, Option.isSome_map]

namespace Batch

/-- The task of a script with its mapper. -/
def work? (maps : PositionMaps) (o : RangeOptions) (c : RawScript × Mapper) : Option (Task × Mapper) :=
  (Task.ofScript? maps o c.1).map (·, c.2)

def works (maps : PositionMaps) (o : RangeOptions) (l : List (RawScript × Mapper)) :
    List (Task × Mapper) :=
  l.filterMap (work? maps o)

end Batch

namespace Assembly
variable {maps : PositionMaps} {o : RangeOptions} {l : List (RawScript × Mapper)} {p : Pool}
  {pace : Pace} {schedule : Batch.Schedule}

/-- Whether a script makes a task. -/
def usable (c : RawScript × Mapper) : Bool := c.1.usable?.isSome

/-- What a script contributes when it is carried out. -/
def own? [Syntax.Parser] (maps : PositionMaps) (o : RangeOptions) (c : RawScript × Mapper) : Option CoverageMap :=
  (Batch.work? maps o c).bind Batch.fragment?

/-- All scripts are accounted for, given what was replied to the tasks. From some place on every script
is refused; before it each one that has a task hears of its own conversion. -/
structure Accounts [Syntax.Parser] (maps : PositionMaps) (o : RangeOptions) (l : List (RawScript × Mapper))
    (replies : List Reply) (closed : Bool) (a : Assembly) (carried refused : List (RawScript × Mapper))
    (own : List Reply) : Prop where
  scripts : l = carried ++ refused
  replies : replies = own ++ List.replicate (refused.countP usable) (.error .poolTerminated)
  outcomes : List.Forall₂ Batch.Outcome (Batch.works maps o carried) own
  /-- Only a terminated pool refuses. -/
  closed : refused.any usable = true → closed = true
  total : a.converted + a.failed + a.skipped = l.length
  skipped : a.skipped = l.countP fun c => c.1.url = "" ∨ c.1.code = none ∨ c.1.code = some ""
  failed : a.failed =
    carried.countP (fun c => usable c && (own? maps o c).isNone) + refused.countP usable
  converted : a.converted = (carried.filterMap (own? maps o)).length
  coverage : a.coverage = Merge.maps (carried.filterMap (own? maps o)) .max

theorem isSome_work? (maps : PositionMaps) (o : RangeOptions) (c : RawScript × Mapper) :
    (Batch.work? maps o c).isSome = usable c := by
  rw [Batch.work?, Option.isSome_map, Task.isSome_ofScript?, usable]

theorem length_works (maps : PositionMaps) (o : RangeOptions) (l : List (RawScript × Mapper)) :
    (Batch.works maps o l).length = l.countP usable := by
  rw [Batch.works, List.length_filterMap_eq_countP]
  exact congrArg (List.countP · l) (funext (isSome_work? maps o))

theorem filterMap_works [Syntax.Parser] (l : List (RawScript × Mapper)) :
    (Batch.works maps o l).filterMap Batch.fragment? = l.filterMap (own? maps o) :=
  List.filterMap_filterMap

theorem countP_works [Syntax.Parser] (l : List (RawScript × Mapper)) :
    (Batch.works maps o l).countP (fun c => (Batch.fragment? c).isNone) =
      l.countP fun c => usable c && (own? maps o c).isNone := by
  rw [Batch.works, List.countP_filterMap]
  refine congrArg (List.countP · l) (funext fun c => ?_)
  rw [← isSome_work? maps o, own?]
  cases Batch.work? maps o c <;> simp

theorem skipped_eq (l : List (RawScript × Mapper)) : Batch.skipped (l.map (·.1)) =
    l.countP fun c => c.1.url = "" ∨ c.1.code = none ∨ c.1.code = some "" := by
  rw [Batch.skipped, List.countP_map]
  refine List.countP_congr fun c _ => ?_
  simp [RawScript.usable?_eq_none_iff]

/-- A script makes a task or is skipped. -/
theorem countP_usable_add_skipped (l : List (RawScript × Mapper)) :
    l.countP usable + Batch.skipped (l.map (·.1)) = l.length := by
  rw [Batch.skipped, List.countP_map, List.length_eq_countP_add_countP usable]
  refine congrArg (_ + ·) (List.countP_congr fun c _ => ?_)
  simp [usable]

/-- A reply has a fragment or counts as failed. -/
theorem converted_add_failed (n : Nat) (replies : List Reply) :
    (ofReplies n replies).converted + (ofReplies n replies).failed = replies.length := by
  rw [List.length_eq_countP_add_countP fun r : Reply => r.fragment?.isSome]
  simp only [ofReplies, List.length_filterMap_eq_countP]
  refine congrArg (_ + ·) (List.countP_congr fun r _ => ?_)
  simp

/-- The place from which on tasks are refused is a place among the scripts. -/
theorem exists_accounts [Syntax.Parser] {tasks rest : List (Task × Mapper)} {replies own : List Reply} {closed : Bool}
    (h : Batch.Replied (Batch.works maps o l) replies closed tasks rest own) :
    ∃ carried refused, Accounts maps o l replies closed
      (ofReplies (Batch.skipped (l.map (·.1))) replies) carried refused own := by
  obtain ⟨carried, refused, hl, rfl, rfl⟩ := List.filterMap_eq_append_iff.1 h.tasks
  have hfragments := h.fragments.trans (filterMap_works carried)
  refine ⟨carried, refused, {
    scripts := hl
    replies := h.replies.trans (congrArg (own ++ List.replicate · _) (length_works maps o refused))
    outcomes := h.outcomes
    closed := fun hany => h.closed ?_
    total := ?_
    skipped := skipped_eq l
    failed := h.failures.trans (congrArg₂ (· + ·) (countP_works carried) (length_works maps o refused))
    converted := congrArg List.length hfragments
    coverage := congrArg (Merge.maps · .max) hfragments }⟩
  · have hpos : 0 < refused.countP usable := List.countP_pos_iff.2 (List.any_eq_true.1 hany)
    rw [← length_works maps o] at hpos
    exact List.ne_nil_of_length_pos hpos
  · rw [converted_add_failed, h.length_eq, length_works]
    exact countP_usable_add_skipped l

/-- Whatever state the pool is in and whenever it is terminated, the batch comes back with all scripts
accounted for, and none takes away what another contributes. -/
theorem accounts_of_batch [Syntax.Parser] (h : p.Reachable)
    (hends : Batch.Ends pace p schedule (Batch.works maps o l)) :
    Batch.Answered (Batch.runEach p pace schedule (Batch.works maps o l)).1
        (Batch.submitAll pace p schedule (Batch.works maps o l)).2 ∧
      ∃ carried refused own, Accounts maps o l
        (Batch.runEach p pace schedule (Batch.works maps o l)).2
        (Batch.runEach p pace schedule (Batch.works maps o l)).1.terminated
        (ofEach p maps o pace schedule l) carried refused own := by
  obtain ⟨tasks, rest, own, hreplied⟩ := Batch.exists_replied h hends
  obtain ⟨carried, refused, haccounts⟩ := exists_accounts hreplied
  exact ⟨Batch.answered_runEach h hends, carried, refused, own, haccounts⟩

/-- No code in the second script, a crash in the third, and the mapper of the fourth terminates the pool. -/
def mixedScripts : List (RawScript × Mapper) :=
  [(⟨"/a.js", some "let a = 1;", []⟩, Pool.emptyFile), (⟨"/b.js", none, []⟩, Pool.emptyFile),
    (⟨"/c.js", some "let a = 1;", []⟩, fun _ => .crash),
    (⟨"/d.js", some "let a = 1;", []⟩, Pool.emptyFile),
    (⟨"/e.js", some "let a = 1;", []⟩, Pool.emptyFile)]

def endInFourth : Batch.Schedule := [[], [], [.terminate]]

theorem accounts_of_batch_sample :
    (∃ replies closed carried refused own, Accounts (fun _ => none) {} mixedScripts replies closed
      (ofEach (.start 0) (fun _ => none) {} {} endInFourth mixedScripts) carried refused own) ∧
    (ofEach (.start 0) (fun _ => none) {} {} endInFourth mixedScripts).converted = 2 ∧
    (ofEach (.start 0) (fun _ => none) {} {} endInFourth mixedScripts).failed = 2 ∧
    (ofEach (.start 0) (fun _ => none) {} {} endInFourth mixedScripts).skipped = 1 := by
  have hends : Batch.Ends {} (.start 0) endInFourth (Batch.works (fun _ => none) {} mixedScripts) :=
    ⟨fun _ _ _ _ => rfl, fun _ _ => rfl⟩
  exact ⟨⟨_, _, (accounts_of_batch ⟨0, [], rfl⟩ hends).2⟩, by decide +kernel⟩

end Assembly
end Conversion
end Coverage

import Coverage.Proofs.Conversion.Ledger

/-! What a run says about the tasks of its pool: which submissions were accepted, and at which event each
reply was sent. -/
namespace Coverage.Conversion

def Job.work (j : Job) : Task × Mapper := (j.task, j.mapper)

namespace Event

def isTerminate : Event → Bool
  | terminate => true
  | _ => false

def submitted? : Event → Option (Task × Mapper)
  | submit t mapper => some (t, mapper)
  | _ => none

/-- What is submitted before the pool is terminated for the first time. -/
def accepted (events : List Event) : List (Task × Mapper) :=
  (events.takeWhile (!·.isTerminate)).filterMap submitted?

end Event

namespace Pool
variable [Syntax.Parser] {p q s : Pool} {e : Event} {events : List Event} {n size : Nat} {r : Reply} {j : Job}

/-- One event accepts what it submits, unless the pool is or gets terminated. -/
theorem work_of_step (h : Step p e q) (hopen : p.terminated = false) :
    q.jobs.map Job.work = p.jobs.map Job.work ++ e.submitted?.toList ∧
      q.terminated = e.isTerminate := by
  cases h with
  | refuse hclosed => simp [hclosed] at hopen
  | convert => simp [Event.submitted?, Event.isTerminate, hopen, nextJob, Job.work]
  | enqueue => simp [Event.submitted?, Event.isTerminate, hopen, nextJob, Job.work]
  | terminate => simp [Event.submitted?, Event.isTerminate, Pool.terminate]
  | _ => simp [Event.submitted?, Event.isTerminate, hopen]

theorem work_of_open_run (hopen : p.terminated = false) (h : p.run? events = some q) :
    q.jobs.map Job.work = p.jobs.map Job.work ++ Event.accepted events := by
  induction events generalizing p with
  | nil =>
    cases h
    simp [Event.accepted]
  | cons e events ih =>
    obtain ⟨s, hs, hq⟩ := run?_cons_eq_some_iff.1 h
    obtain ⟨hwork, hclosed⟩ := work_of_step (step_of_step? hs) hopen
    cases he : e.isTerminate with
    | true =>
      have hjobs := ((follows_of_run hq).closed (hclosed.trans he)).1
      have hnone : e.submitted? = none := by cases e <;> simp_all [Event.isTerminate, Event.submitted?]
      rw [hjobs, hwork, hnone]
      simp [Event.accepted, he]
    | false =>
      rw [ih (hclosed.trans he) hq, hwork]
      cases hsub : e.submitted? <;> simp [Event.accepted, he, hsub]

/-- The jobs of a pool are the submissions that came before its end. -/
theorem work_of_run (h : (start size).run? events = some p) :
    p.jobs.map Job.work = Event.accepted events := by
  simpa [start] using work_of_open_run (p := start size) rfl h

def script (url : String) : Task := { url, code := "let a = 1;" }

/-- One empty file for each script. -/
def emptyFile : Mapper := fun i => .fragment (.ofList [(i.url, .empty i.url)])

/-- One worker: the first mapper crashes, the second task is being converted when the pool is terminated,
the third waits and the fourth comes too late. -/
def mixedRun : List Event :=
  [.submit (script "/a.js") fun _ => .crash, .submit (script "/b.js") emptyFile, .dispatch,
    .submit (script "/c.js") emptyFile, .finish 0 ⟨1, 1⟩, .dispatch, .terminate,
    .submit (script "/d.js") emptyFile, .finish 1 ⟨1, 1⟩, .leave, .join, .receive 2, .drop 0]

/-- A reply is sent when a conversion ends or when the pool is terminated. -/
theorem sent_of_step (h : Step p e q) (hr : (n, r) ∈ q.replies) (hnew : (n, r) ∉ p.replies) :
    (∃ t j, e = .finish n t ∧ p.find? n = some j ∧ r = j.reply t) ∨
      e = .terminate ∧ n ∈ p.queue.map (·.ticket) ∧ r = .error .poolTerminated := by
  cases h with
  | @finish m t j hj =>
    rcases List.mem_append.1 hr with hr | hr
    · exact absurd hr hnew
    · obtain ⟨rfl, rfl⟩ : n = m ∧ r = j.reply t := by simpa using hr
      exact .inl ⟨t, j, rfl, hj, rfl⟩
  | terminate =>
    rcases List.mem_append.1 hr with hr | hr
    · exact absurd hr hnew
    · obtain ⟨j, hj, heq⟩ := List.mem_map.1 hr
      obtain ⟨rfl, rfl⟩ := Prod.mk.inj heq
      exact .inr ⟨rfl, List.mem_map_of_mem hj, rfl⟩
  | _ => exact absurd hr hnew

end Pool
end Coverage.Conversion

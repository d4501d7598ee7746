import Coverage.Conversion.Pool

/-!
A pool with each of its workers. What is one event of the pool takes a worker several moments; in between
the other workers and the callers go on, and only at some of them the worker counts as active.
-/
namespace Coverage.Conversion

/-- How far a worker is. -/
inductive Worker where
  /-- It looks at the queue next. -/
  | awake
  /-- It has found nothing to do and waits for a notification. -/
  | asleep
  /-- It has taken a job from the queue. -/
  | taking (job : Job)
  | converting (job : Job)
  /-- The conversion has returned or its mapper has crashed, after this time. -/
  | done (job : Job) (elapsed : Timings)
  | replying (job : Job) (elapsed : Timings)
  | gone

namespace Worker

/-- The job that a worker has taken and not answered. -/
def job? : Worker → Option Job
  | taking j | converting j | done j _ | replying j _ => some j
  | _ => none

/-- The job whose conversion has started and not ended. -/
def underway? : Worker → Option Job
  | converting j | done j _ => some j
  | _ => none

def isAwake : Worker → Bool
  | awake => true
  | _ => false

def isAsleep : Worker → Bool
  | asleep => true
  | _ => false

def isGone : Worker → Bool
  | gone => true
  | _ => false

def rouse : Worker → Worker
  | asleep => awake
  | w => w

end Worker

structure Crew where
  pool : Pool
  workers : List Worker
  /-- How many workers count as active. -/
  counter : Nat := 0
  /-- How many jobs have come to the queue and have not notified a worker yet. -/
  notices : Nat := 0
  /-- How many calls have terminated the pool and have not notified all workers yet. -/
  alarms : Nat := 0

/-- What can happen at one moment. -/
inductive Act where
  /-- What is not done by a worker. -/
  | call (event : Event)
  /-- A worker goes on, if it need not wait for a notification or for the end of its conversion. -/
  | work (worker : Nat)
  /-- The conversion of a worker returns, or its mapper crashes. -/
  | conclude (worker : Nat) (elapsed : Timings)
  /-- The notification of one job wakes a worker. -/
  | wake (worker : Nat)
  /-- The notification of one job finds no worker asleep. -/
  | miss
  /-- The notification of a termination wakes all workers. -/
  | alarm
  /-- A worker wakes without any notification. -/
  | stir (worker : Nat)

namespace Crew

def start (size : Nat) : Crew where
  pool := .start size
  workers := List.replicate size .awake

def put (c : Crew) (i : Nat) (w : Worker) : Crew := { c with workers := c.workers.set i w }

/-- The jobs whose conversions have started and not ended. -/
def underway (c : Crew) : List Job := c.workers.filterMap Worker.underway?

variable [Syntax.Parser]

/-- The conversions that end here are those on the threads that submitted the tasks. -/
def call? (c : Crew) : Event → Option Crew
  | .submit task mapper =>
    match c.pool.submit task mapper with
    | .error _ => some c
    | .ok p => some { c with pool := p, notices := c.notices + (p.queued - c.pool.queued) }
  | .terminate => some { c with pool := c.pool.terminate, alarms := c.alarms + 1 }
  | .dispatch => none
  | .leave => none
  | .finish n elapsed =>
    if c.pool.inline.any (·.ticket == n) then
      (c.pool.finish? n elapsed).map fun p => { c with pool := p }
    else none
  | e => (c.pool.step? e).map fun p => { c with pool := p }

/-- A worker that looks at the queue ends if the pool is terminated, else takes the first job, or
sleeps if there is none. It counts as active from before the conversion until after it, and sends the
reply last. -/
def work? (c : Crew) (i : Nat) : Option Crew :=
  match c.workers[i]? with
  | some .awake =>
    if c.pool.terminated then c.pool.leave?.map fun p => { c.put i .gone with pool := p }
    else
      match c.pool.queue with
      | [] => some (c.put i .asleep)
      | j :: _ => c.pool.dispatch?.map fun p => { c.put i (.taking j) with pool := p }
  | some (.taking j) => some { c.put i (.converting j) with counter := c.counter + 1 }
  | some (.done j elapsed) =>
    some { c.put i (.replying j elapsed) with counter := c.counter - 1 }
  | some (.replying j elapsed) =>
    (c.pool.finish? j.ticket elapsed).map fun p => { c.put i .awake with pool := p }
  | _ => none

def conclude? (c : Crew) (i : Nat) (elapsed : Timings) : Option Crew :=
  match c.workers[i]? with
  | some (.converting j) => some (c.put i (.done j elapsed))
  | _ => none

def stir? (c : Crew) (i : Nat) : Option Crew :=
  match c.workers[i]? with
  | some .asleep => some (c.put i .awake)
  | _ => none

def wake? (c : Crew) (i : Nat) : Option Crew :=
  if 0 < c.notices then (c.stir? i).map fun d => { d with notices := c.notices - 1 } else none

def miss? (c : Crew) : Option Crew :=
  if 0 < c.notices && !c.workers.any Worker.isAsleep then
    some { c with notices := c.notices - 1 }
  else none

def alarm? (c : Crew) : Option Crew :=
  if 0 < c.alarms then
    some { c with workers := c.workers.map Worker.rouse, alarms := c.alarms - 1 }
  else none

def step? (c : Crew) : Act → Option Crew
  | .call e => c.call? e
  | .work i => c.work? i
  | .conclude i elapsed => c.conclude? i elapsed
  | .wake i => c.wake? i
  | .miss => c.miss?
  | .alarm => c.alarm?
  | .stir i => c.stir? i

def run? (c : Crew) (acts : List Act) : Option Crew := acts.foldlM step? c

/-- No worker can go on, nor is there one for a notification to wake, before a conversion ends. -/
def AtRest (c : Crew) : Prop := ∀ i, c.work? i = none ∧ c.wake? i = none

end Crew
end Coverage.Conversion

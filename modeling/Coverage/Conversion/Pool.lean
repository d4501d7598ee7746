import Coverage.Conversion.Task

/-!
A pool of workers. Tasks wait in a queue and go to the workers in the order of their submission; a
pool without workers converts a task on the thread that submits it. Every accepted task has a ticket,
and at any time it waits in the queue, or is being converted, or has been answered.
-/
namespace Coverage.Conversion

/-- An accepted task. -/
structure Job where
  ticket : Nat
  task : Task
  mapper : Mapper

variable [Syntax.Parser]

def Job.reply (j : Job) (elapsed : Timings) : Reply := j.task.reply j.mapper elapsed

/-- Whether the mapper gets called when the job is carried out. -/
def Job.callsMapper (j : Job) : Bool := j.task.input?.isSome

structure Pool where
  /-- How many workers there are. -/
  size : Nat
  /-- All accepted jobs, in the order of their submission. -/
  jobs : List Job := []
  queue : List Job := []
  /-- What the workers are converting. -/
  running : List Job := []
  /-- What is converted on the threads that submitted it. -/
  inline : List Job := []
  /-- All jobs whose conversion began, in that order. -/
  begun : List Job := []
  replies : List (Nat × Reply) := []
  /-- Tickets whose reply may still be received. -/
  handles : List Nat := []
  terminated : Bool := false
  /-- Workers that have ended for good. -/
  gone : Nat := 0
  /-- How many calls have terminated the pool, and how many of these have returned. -/
  terminations : Nat := 0
  returned : Nat := 0

/-- What can happen in a pool. -/
inductive Event where
  | submit (task : Task) (mapper : Mapper)
  /-- A free worker takes the job at the front of the queue. -/
  | dispatch
  /-- The conversion with this ticket ends. -/
  | finish (ticket : Nat) (elapsed : Timings)
  | terminate
  /-- A worker between two conversions finds the pool terminated and ends. -/
  | leave
  /-- A call of `terminate` returns. -/
  | join
  | receive (ticket : Nat)
  | drop (ticket : Nat)

namespace Pool

/-- The sizes of pools that are sized by the machine. -/
def leastSize : Nat := 2
def greatestSize : Nat := 8

/-- Half the processors, within bounds. -/
def defaultSize (processors : Nat) : Nat := min (max (processors / 2) leastSize) greatestSize

def start (size : Nat) : Pool := { size }

def isSingleThreaded (p : Pool) : Bool := p.size == 0

/-- How many tasks have been accepted; also the ticket of the next one. -/
def accepted (p : Pool) : Nat := p.jobs.length

/-- The job that an accepted task becomes. -/
def nextJob (p : Pool) (task : Task) (mapper : Mapper) : Job := ⟨p.accepted, task, mapper⟩

/-- What is being converted, by workers or where it was submitted. -/
def converting (p : Pool) : List Job := p.running ++ p.inline

/-- Workers that are converting. -/
def active (p : Pool) : Nat := p.running.length

/-- Tasks that wait for a free worker. -/
def queued (p : Pool) : Nat := p.queue.length

def reply? (p : Pool) (ticket : Nat) : Option Reply := p.replies.lookup ticket

/-- The addresses of the scripts in the order in which their mappers were called. -/
def order (p : Pool) : List String := (p.begun.filter Job.callsMapper).map (·.task.url)

/-- A terminated pool refuses; else the ticket of the task is the number of tasks before it. -/
def submit (p : Pool) (task : Task) (mapper : Mapper) : Except Failure Pool :=
  let job := p.nextJob task mapper
  let q := { p with jobs := p.jobs ++ [job], handles := p.handles ++ [p.accepted] }
  if p.terminated then .error .poolTerminated
  else if p.isSingleThreaded then
    .ok { q with inline := p.inline ++ [job], begun := p.begun ++ [job] }
  else .ok { q with queue := p.queue ++ [job] }

def dispatch? (p : Pool) : Option Pool :=
  match p.queue with
  | [] => none
  | j :: r =>
    if !p.terminated && p.active < p.size then
      some { p with queue := r, running := p.running ++ [j], begun := p.begun ++ [j] }
    else none

/-- Where no job has the ticket, nothing is removed. -/
def without (ticket : Nat) (l : List Job) : List Job := l.eraseP (·.ticket == ticket)

/-- A job being converted, by its ticket. -/
def find? (p : Pool) (ticket : Nat) : Option Job :=
  p.converting.find? (·.ticket == ticket)

def finish? (p : Pool) (ticket : Nat) (elapsed : Timings) : Option Pool :=
  (p.find? ticket).map fun j =>
    { p with
      running := without ticket p.running, inline := without ticket p.inline
      replies := p.replies ++ [(ticket, j.reply elapsed)] }

/-- What waits is refused; what is being converted goes on. -/
def terminate (p : Pool) : Pool :=
  { p with
    queue := [], terminated := true, terminations := p.terminations + 1
    replies := p.replies ++ p.queue.map fun j => (j.ticket, .error .poolTerminated) }

def leave? (p : Pool) : Option Pool :=
  if p.terminated && p.active + p.gone < p.size then some { p with gone := p.gone + 1 } else none

/-- One of the calls waits until all workers are gone; the others have nobody to wait for. -/
def join? (p : Pool) : Option Pool :=
  if p.returned < p.terminations && (p.gone == p.size || p.returned + 1 < p.terminations) then
    some { p with returned := p.returned + 1 }
  else none

/-- A reply is received once. -/
def receive? (p : Pool) (ticket : Nat) : Option (Reply × Pool) :=
  if ticket ∈ p.handles then
    (p.reply? ticket).map fun r => (r, { p with handles := p.handles.erase ticket })
  else none

def drop? (p : Pool) (ticket : Nat) : Option Pool :=
  if ticket ∈ p.handles then some { p with handles := p.handles.erase ticket } else none

/-- The pool after an event, if the event is possible. A refused submission changes nothing. -/
def step? (p : Pool) : Event → Option Pool
  | .submit task mapper => some ((p.submit task mapper).toOption.getD p)
  | .dispatch => p.dispatch?
  | .finish ticket elapsed => p.finish? ticket elapsed
  | .terminate => some p.terminate
  | .leave => p.leave?
  | .join => p.join?
  | .receive ticket => (p.receive? ticket).map (·.2)
  | .drop ticket => p.drop? ticket

def run? (p : Pool) (events : List Event) : Option Pool := events.foldlM step? p

/-- A pool of some size after some events. -/
def Reachable (p : Pool) : Prop := ∃ size events, (start size).run? events = some p

end Pool
end Coverage.Conversion

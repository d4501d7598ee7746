import Coverage.Proofs.Conversion.History
import Coverage.Proofs.Conversion.Isolation
import Coverage.Proofs.Conversion.Progress
import Coverage.Syntax.Program

/-! Every accepted task is answered once, by what became of it: it was discarded, its mapper crashed, or
its conversion has a result. What happens to the other tasks does not matter. -/
namespace Coverage.Conversion

namespace Job

theorem reply_of_none [Syntax.Parser] {j : Job} {t : Timings} (h : j.task.convert? j.mapper t = none) :
    j.reply t = .error (.workerCrashed j.task.url) := by
  rw [reply, Task.reply, h]

end Job

namespace Pool

section Run
variable {p q : Pool} {e : Event} {events : List Event} {n size : Nat}
  {ended : List (Job × Timings)} {discarded : List Job}

/-- How often the mapper has been called for a task. -/
def calls (p : Pool) (n : Nat) : Nat := (p.begun.filter Job.callsMapper).countP (·.ticket == n)

variable [Syntax.Parser]

end Run

theorem convert?_script_crash : (script "/a.js").convert? (fun _ => .crash) ⟨1, 1⟩ = none := by
  decide +kernel

end Pool
end Coverage.Conversion

import Coverage.Conversion.Pool

/-!
One pool shared by all who ask for it. It is made when first asked for, and again once it has been
terminated or forgotten.
-/
namespace Coverage.Conversion

/-- Every pool made so far, and which of them is shared now. -/
structure SharedPool where
  pools : List Pool := []
  current : Option Nat := none

namespace SharedPool

def isAlive (s : SharedPool) (i : Nat) : Bool := s.pools[i]?.any (!·.terminated)

/-- Which pool is handed out; a new one has the given size. -/
def get (size : Nat) (s : SharedPool) : Nat × SharedPool :=
  match s.current.filter s.isAlive with
  | some i => (i, s)
  | none => (s.pools.length, ⟨s.pools ++ [Pool.start size], some s.pools.length⟩)

def update (s : SharedPool) (i : Nat) (f : Pool → Pool) : SharedPool :=
  { s with pools := s.pools.modify i f }

def terminate (s : SharedPool) (i : Nat) : SharedPool := s.update i Pool.terminate

/-- The shared pool is terminated and forgotten. -/
def reset (s : SharedPool) : SharedPool :=
  match s.current with
  | some i => { s.terminate i with current := none }
  | none => s

/-- What callers do with the shared pool, and with any pool that was handed out before. -/
inductive Call where
  | get (size : Nat)
  | reset
  | use (pool : Nat) (event : Event)

variable [Syntax.Parser]

/-- A pool that an event is not possible in stays as it is. -/
def apply (s : SharedPool) : Call → SharedPool
  | .get size => (s.get size).2
  | .reset => s.reset
  | .use i e => s.update i fun p => (p.step? e).getD p

/-- What is left by some calls, of which the first finds no pool. -/
def after (calls : List Call) : SharedPool := calls.foldl apply {}

end SharedPool
end Coverage.Conversion

import Coverage.Syntax.Dialect

/-!
What is kept of a parsed text: the spans of bytes of its top-level items, and in order the statements
and branching expressions inside them. Whatever holds another comes before it.
-/
namespace Coverage.Syntax

/-- Bytes from `start` up to `stop`. -/
structure Extent where
  start : Nat
  stop : Nat
  deriving DecidableEq

inductive Mark where
  | statement (extent : Extent)
  | choice (extent consequence : Extent) (alternative : Option Extent)
  | conditional (extent consequence alternative : Extent)
  | binary (extent left operator right : Extent)
  deriving DecidableEq

structure Outline where
  items : List Extent
  marks : List Mark
  deriving DecidableEq

/-- What reads texts. A text with a syntax error has no outline. -/
class Parser where
  outline? : Dialect → Text → Option Outline

end Coverage.Syntax

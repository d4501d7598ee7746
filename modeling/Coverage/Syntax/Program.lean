import Coverage.Syntax.Element
import Coverage.Syntax.Statement

/-!
Whole texts. A text is its statements and the comments between them; it has an outline if the grammar
accepts all of it.
-/
namespace Coverage.Syntax

def Rule.parse : Rule → Parse Marks
  | .statement => Statement.statement
  | .block o => Declaration.block o
  | .sequence c => Expression.commas c
  | .assignment c => Expression.conditional c
  | .binary level c => Expression.binary level c
  | .operand c => Expression.operandRule c
  | .callee => Expression.callee
  | .pattern => Declaration.pattern
  | .parameters => Declaration.parameters
  | .type => Types.unmarked Types.full
  | .objectType => Types.unmarked Types.object
  | .element => Element.element
  | .function o => Declaration.function o
  | .classBody => Declaration.classBody
  | .decorators => Declaration.decorators

/-- A rule with at most so many calls inside each other. -/
def Rule.run (d : Dialect) (fuel : Nat) : Nat → Rule → Cursor → Option (Marks × Cursor)
  | 0, _, _ => none
  | n + 1, r, c => r.parse ⟨d, fuel, Rule.run d fuel n⟩ c

/-- What has been read of a text, backwards. -/
structure Progress where
  items : List Extent
  marks : List Marks

def Progress.outline (p : Progress) : Outline := ⟨p.items.reverse, p.marks.reverse.flatten⟩

/-- The line with which a script names its interpreter. -/
def interpreterLine? (c : Cursor) : Option Cursor :=
  match c.rest with
  | '#' :: '!' :: _ => some (c.skipWhile (· != '\n'))
  | _ => none

/-- Items up to the end of the text; each call may read a comment or a statement. -/
def itemsFrom (run : Rule → Cursor → Option (Marks × Cursor)) :
    Nat → Progress → Cursor → Option Outline
  | 0, _, _ => none
  | n + 1, p, c =>
    let c := c.skipGap
    if c.rest.isEmpty then some p.outline
    else
      match c.comment? with
      | some d => itemsFrom run n { p with items := ⟨c.offset, d.offset⟩ :: p.items } d
      | none =>
        match run .statement c with
        | some (marks, d) => itemsFrom run n ⟨⟨c.offset, d.offset⟩ :: p.items, marks :: p.marks⟩ d
        | none => none

/-- The outline of a text, if it has no syntax error. A call that reads no character is one of a few
inside each other, so the fuel is a multiple of the length. Places are numbers of 32 bits, and a text
with more bytes is not parsed. -/
def outline? (d : Dialect) (t : Text) : Option Outline :=
  if t.byteLength < UInt32.size then
    let n := t.length + 1
    let run := Rule.run d n (16 * n)
    let c := (Cursor.start t).skipGap
    match interpreterLine? c with
    | some e => itemsFrom run (n + 1) ⟨[⟨c.offset, e.offset⟩], []⟩ e
    | none => itemsFrom run (n + 1) ⟨[], []⟩ c
  else none

instance : Parser := ⟨outline?⟩

end Coverage.Syntax

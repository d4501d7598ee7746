import Coverage.Syntax.Outline
import Coverage.Syntax.Semicolon
import Coverage.Syntax.Token

/-!
Parsing by recursive descent. A rule of the grammar takes the place behind the last lexeme and gives
the marks it found and the place behind its own last lexeme. Rules call each other through the
grammar they are run with, so that each is defined on its own; `Grammar.run` ties the knot with fuel.
-/
namespace Coverage.Syntax

/-- What holds around an expression. -/
structure Context where
  /-- The word `in` is no operator. -/
  noIn : Bool := false
  /-- A statement may end behind the expression. -/
  ends : Bool := false
  /-- A colon behind a parenthesis does not announce the result of a function. -/
  noResult : Bool := false
  deriving DecidableEq

inductive Rule where
  | statement
  /-- A block; `operand` says that an operator may follow it. -/
  | block (operand : Bool)
  /-- Expressions between commas. -/
  | sequence (c : Context)
  | assignment (c : Context)
  /-- Operators from a level on. -/
  | binary (level : Nat) (c : Context)
  | operand (c : Context)
  /-- What may be called or have members, without a call. -/
  | callee
  | pattern
  | parameters
  | type
  | objectType
  | element
  | function (operand : Bool)
  | classBody
  | decorators

abbrev Marks := List Mark

structure Grammar where
  dialect : Dialect
  /-- At least the number of characters of the text. -/
  fuel : Nat
  rule : Rule → Cursor → Option (Marks × Cursor)

abbrev Parse (α : Type) := Grammar → Cursor → Option (α × Cursor)

namespace Parse
variable {α β : Type}

instance : Monad Parse where
  pure a := fun _ c => some (a, c)
  bind p f := fun g c =>
    match p g c with
    | none => none
    | some (a, c) => f a g c

instance : Alternative Parse where
  failure := fun _ _ => none
  orElse p q := fun g c =>
    match p g c with
    | none => q () g c
    | some r => some r

def call (r : Rule) : Parse Marks := fun g c => g.rule r c
def dialect : Parse Dialect := fun g c => some (g.dialect, c)
def isTyped : Parse Bool := fun g c => some (g.dialect.isTyped, c)
def cursor : Parse Cursor := fun _ c => some (c, c)
def moveTo (c : Cursor) : Parse Unit := fun _ _ => some ((), c)

/-- `none`, and the place as it was, if the rule does not hold. -/
def attempt (p : Parse α) : Parse (Option α) := fun g c =>
  match p g c with
  | none => some (none, c)
  | some (a, c) => some (some a, c)

/-- What a rule gives here, without going on. -/
def ahead (p : Parse α) : Parse (Option α) := fun g c => some ((p g c).map (·.1), c)

def lexeme : Parse Lexeme := fun _ c => some (Token.next c, c)
def peek : Parse Token := fun _ c => some ((Token.next c).token, c)
def take (l : Lexeme) : Parse Unit := moveTo l.after
def advance : Parse Unit := fun _ c => some ((), (Token.next c).after)

/-- The byte at which the next lexeme starts. -/
def here : Parse Nat := fun _ c => some (c.skipTrivia.offset, c)
/-- The byte behind the last lexeme. -/
def done : Parse Nat := fun _ c => some (c.offset, c)

def extentFrom (start : Nat) : Parse Extent := fun _ c => some (⟨start, c.offset⟩, c)

def accept (t : Token) : Parse Bool := fun _ c =>
  let l := Token.next c
  if l.token = t then some (true, l.after) else some (false, c)

def expect (t : Token) : Parse Unit := fun _ c =>
  let l := Token.next c
  if l.token = t then some ((), l.after) else none

def sees (t : Token) : Parse Bool := fun _ c => some ((Token.next c).token = t, c)

def mark (s : String) : Parse Unit := expect (.mark s)
def word (s : String) : Parse Unit := expect (.word s)
def acceptMark (s : String) : Parse Bool := accept (.mark s)
def acceptWord (s : String) : Parse Bool := accept (.word s)
def acceptAnyMark (l : List String) : Parse Bool := l.anyM acceptMark
def acceptAnyWord (l : List String) : Parse Bool := l.anyM acceptWord
def seesMark (s : String) : Parse Bool := sees (.mark s)
def seesWord (s : String) : Parse Bool := sees (.word s)

/-- One character, even if it is the start of a longer punctuator. -/
def char (x : Char) : Parse Unit := fun _ c =>
  match c.skipTrivia with
  | ⟨o, y :: r⟩ => if x = y then some ((), ⟨o + y.utf8Size, r⟩) else none
  | _ => none

def seesChar (x : Char) : Parse Bool := fun _ c => some (c.skipTrivia.rest.head? == some x, c)

def acceptChar (x : Char) : Parse Bool := do
  if ← seesChar x then char x; return true
  return false

def anyWord : Parse String := fun _ c =>
  match Token.next c with
  | ⟨.word s, _, d⟩ => some (s, d)
  | _ => none

/-- Steps until one says stop. -/
def loopFrom (step : α → Parse (Option α)) (g : Grammar) : Nat → α → Cursor → Option (α × Cursor)
  | 0, _, _ => none
  | n + 1, a, c =>
    match step a g c with
    | none => none
    | some (none, d) => some (a, d)
    | some (some b, d) => loopFrom step g n b d

def loop (a : α) (step : α → Parse (Option α)) : Parse α := fun g c => loopFrom step g g.fuel a c

/-- A template string, with what stands in its substitutions. -/
def template (inside : Parse Marks) : Parse Marks := do
  char '\x60'
  let found ← loop ([], false) fun (acc, closed) => do
    if closed then return none
    let c ← cursor
    match Token.templateFrom 0 c.offset c.rest with
    | none => failure
    | some (.closed d) => moveTo d; return some (acc, true)
    | some (.substitution d) =>
      moveTo d
      char '\x7b'
      let marks ← inside
      char '\x7d'
      return some (marks :: acc, false)
  return found.1.reverse.flatten

/-- The marks of as many parts as there are, `none` saying that there is no more. -/
def many (p : Parse (Option Marks)) : Parse Marks := do
  let found ← loop [] fun acc => do return (← p).map (· :: acc)
  return found.reverse.flatten

/-- Parts between commas up to a closing mark, each of which may be missing. -/
def commaList (close : String) (p : Parse Marks) : Parse Marks := do
  let found ← loop ([], false) fun (acc, closed) => do
    if closed then return none
    if ← acceptMark close then return some (acc, true)
    let part ← if ← seesMark "," then pure [] else p
    if ← acceptMark "," then return some (part :: acc, false)
    mark close
    return some (part :: acc, true)
  return found.1.reverse.flatten

/-- The place where a statement may end, here or behind comments that follow. -/
def statementEnd? (d : Dialect) (operand : Bool) (fuel : Nat) : Nat → Cursor → Option Cursor
  | 0, _ => none
  | n + 1, c =>
    if Semicolon.holds d operand fuel c.rest then some c
    else c.skipGap.comment?.bind (statementEnd? d operand fuel n)

/-- Whether the statement may end without a semicolon. -/
def autoSemicolon (operand : Bool) : Parse Bool := fun g c =>
  match statementEnd? g.dialect operand g.fuel g.fuel c with
  | some d => some (true, d)
  | none => some (false, c)

/-- A semicolon, or a place where none is needed. -/
def semicolon (operand : Bool) : Parse Unit := do
  if ← autoSemicolon operand then return
  mark ";"

/-- Whether the statement ends here, so that the expression does not go on. -/
def endsHere (ctx : Context) : Parse Bool := fun g c =>
  some (ctx.ends && (statementEnd? g.dialect true g.fuel g.fuel c).isSome, c)

end Parse
end Coverage.Syntax

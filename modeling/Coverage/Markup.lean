import Coverage.FileCoverage
import Coverage.Text.Blank
import Coverage.Text.Lines

/-!
Callbacks of array methods that do nothing but return a markup element, told from the source text.
-/
namespace Coverage.Markup
open Text (dropWord? after? trimStart isBlank)

def arrayMethods : List Text :=
  ["map", "filter", "reduce", "forEach", "find", "some", "every"].map String.toList

/-- Whether a text goes on, behind a dot, with an array method and an argument list. -/
def startsArrayCall (t : Text) : Bool :=
  arrayMethods.any fun m => ((dropWord? m t).map fun r => (trimStart r).head? == some '(').getD false

def callsArrayMethod : Text → Bool
  | [] => false
  | c :: t => (c == '.' && startsArrayCall t) || callsArrayMethod t

/-- The line itself or the one before it calls an array method. -/
def nearArrayCall (t : Text) (line : UInt32) : Bool :=
  ((t.line? line).map callsArrayMethod).getD false ||
  (if line = 0 then false else ((t.line? (line - 1)).map callsArrayMethod).getD false)

/-- What follows the first arrow or, without one, the first closing parenthesis. -/
def body? (t : Text) : Option Text :=
  match after? ['=', '>'] t with
  | some b => some b
  | none => after? [')'] t

/-- The expression of a body, or the one that a block returns at once. -/
def returned? (body : Text) : Option Text :=
  match trimStart body with
  | '\x7b' :: block => dropWord? "return".toList (trimStart block)
  | e => some e

def bodyIsMarkup (t : Text) : Bool :=
  match (body? t).bind returned? with
  | some e => (e.dropWhile fun c => isBlank c || c == '(').head? == some '<'
  | none => false

def isCallback (t : Text) (f : FunctionSite) : Bool :=
  f.isAnonymous && nearArrayCall t f.body.start.line &&
    ((t.sliceSpan? f.body).map bodyIsMarkup).getD false

end Coverage.Markup

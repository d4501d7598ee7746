import Coverage.Syntax.Expression

/-!
Markup elements inside expressions. Their text ends at an angle bracket, a brace or an ampersand, and
an ampersand that a letter or a hash follows has to name a character.
-/
namespace Coverage.Syntax.Element
open Parse Expression Coverage.Syntax.Types

def isNamePart (x : Char) : Bool := Token.isWordPart x || x == '-'

def name : Parse Unit := do
  let c ← cursor
  let c := c.skipTrivia
  guard ((c.rest.head?.map Token.isWordStart).getD false)
  moveTo (c.skipWhile isNamePart)

/-- A name with members or in a name space. -/
def fullName : Parse Unit := do
  name
  loop () fun _ => do
    if ← ['.', ':'].anyM acceptChar then
      name
      return some ()
    return none

/-- How many characters name one by its code or by an entity. -/
def referenceLength? : Text → Option Nat
  | '&' :: '#' :: x :: r =>
    if x == 'x' || x == 'X' then bounded 3 6 (r.takeWhile Token.isHex) r
    else bounded 2 5 ((x :: r).takeWhile Char.isDigit) (x :: r)
  | '&' :: r => bounded 1 30 (r.takeWhile Char.isAlpha) r
  | _ => none
where
  bounded (before most : Nat) (l r : Text) : Option Nat :=
    if 0 < l.length ∧ l.length ≤ most ∧ (r.drop l.length).head? = some ';' then
      some (before + l.length + 1)
    else none

/-- Whether an ampersand with this text behind it has to be a reference. -/
def needsReference (r : Text) : Bool := (r.head?.map fun x => x == '#' || x.isAlpha).getD false

/-- The end of a quoted value, from behind its quote. -/
def valueFrom (quote : Char) (named o : Nat) : Text → Option Cursor
  | [] => none
  | x :: r =>
    let o := o + x.utf8Size
    if 0 < named then valueFrom quote (named - 1) o r
    else if x == quote then some ⟨o, r⟩
    else if x == '&' && needsReference r then
      match referenceLength? (x :: r) with
      | some n => valueFrom quote (n - 1) o r
      | none => none
    else valueFrom quote 0 o r

/-- An expression in braces, or nothing in them. -/
def container : Parse Marks := do
  char '\x7b'
  let marks ← if ← seesChar '\x7d' then pure [] else
    if ← seesMark "..." then spread {} else expressions {}
  char '\x7d'
  return marks

def value : Parse Marks := do
  let c ← cursor
  let c := c.skipTrivia
  match c.rest with
  | '\x7b' :: _ => container
  | '<' :: _ => call .element
  | x :: r =>
    guard (x == '"' || x == '\x27')
    match valueFrom x 0 (c.offset + 1) r with
    | some d => moveTo d; return []
    | none => failure
  | [] => failure

/-- An attribute; `none` behind the last. -/
def attribute? : Parse (Option Marks) := do
  if ← seesChar '\x7b' then return some (← container)
  if (← seesChar '/') || (← seesChar '>') then return none
  name
  if ← acceptChar ':' then name
  if ← acceptChar '=' then return some (← value)
  return some []

def endsText (x : Char) : Bool := ['<', '>', '\x7b', '\x7d', '&'].contains x

/-- A child; `none` before the closing tag. -/
def child? : Parse (Option Marks) := do
  let c ← cursor
  let c := c.skipWhile (!endsText ·)
  moveTo c
  match c.rest with
  | '<' :: r =>
    if ((Cursor.start r).skipTrivia.rest.head?) == some '/' then return none
    return some (← call .element)
  | '\x7b' :: _ => return some (← container)
  | '&' :: r =>
    if needsReference r then
      match referenceLength? ('&' :: r) with
      | some n => moveTo (c.skip n)
      | none => failure
    else moveTo (c.skip 1)
    return some []
  | _ => failure

def closingTag (named : Bool) : Parse Unit := do
  char '<'
  char '/'
  if named then fullName
  char '>'

/-- An element, a pair of tags without name, or a tag that closes itself. -/
def element : Parse Marks := do
  char '<'
  if ← acceptChar '>' then
    let children ← many child?
    closingTag false
    return children
  fullName
  if ← isTyped then discard <| attempt typeArguments
  let attributes ← many attribute?
  if ← acceptChar '/' then
    char '>'
    return attributes
  char '>'
  let children ← many child?
  closingTag true
  return attributes ++ children

end Coverage.Syntax.Element

import Coverage.Syntax.Expression

/-!
Patterns, parameters, functions, classes and blocks.
-/
namespace Coverage.Syntax.Declaration
open Parse Expression Coverage.Syntax.Types

def default? : Parse Marks := do
  if ← acceptMark "=" then assignment {} else return []

def patternPart : Parse Marks := do
  if ← acceptMark "..." then return ← call .pattern
  let marks ← call .pattern
  return marks ++ (← default?)

/-- A part of an object: a name, or a name and a pattern for what it stands for. -/
def patternProperty : Parse Marks := do
  if ← acceptMark "..." then return ← call .pattern
  let plain : Bool := match ← peek with
    | .word _ => true
    | _ => false
  let name ← memberName
  if ← acceptMark ":" then
    let marks ← call .pattern
    return name ++ marks ++ (← default?)
  guard plain
  return name ++ (← default?)

def pattern : Parse Marks := do
  match ← peek with
  | .word _ => advance; return []
  | .mark "[" =>
    mark "["
    commaList "]" patternPart
  | .mark "\x7b" =>
    mark "\x7b"
    commaList "\x7d" patternProperty
  | _ => failure

def decorator : Parse Marks := do
  mark "@"
  if ← seesMark "(" then return ← parenthesized
  discard anyWord
  loop () fun _ => do
    unless ← acceptMark "." do return none
    dottedName
    return some ()
  if ← isTyped then discard <| attempt do
    typeArguments
    guard (← seesMark "(")
  if ← seesMark "(" then arguments else return []

def decorators : Parse Marks :=
  many do
    if ← seesMark "@" then return some (← decorator)
    return none

def accessibilities : List String :=
  ["public", "private", "protected", "readonly", "override", "declare"]

/-- Words before a parameter, as long as they are not its name. -/
def parameterModifiers : Parse Unit :=
  loop () fun _ => do
    let l ← lexeme
    match l.token with
    | .word s =>
      let follows := match (Token.next l.after).token with
        | .word _ | .mark "\x7b" | .mark "[" => true
        | _ => false
      if accessibilities.contains s && follows then
        take l
        return some ()
      return none
    | _ => return none

def parameter : Parse Marks := do
  let typed ← isTyped
  let decoration ← decorators
  if typed then parameterModifiers
  discard <| acceptMark "..."
  let marks ← call .pattern
  if typed then
    discard <| acceptMark "?"
    maybeAnnotation
  return decoration ++ marks ++ (← default?)

def parameters : Parse Marks := do
  mark "("
  let found ← loop ([], false) fun (acc, closed) => do
    if closed then return none
    if ← acceptMark ")" then return some (acc, true)
    let part ← parameter
    if ← acceptMark "," then return some (part :: acc, false)
    mark ")"
    return some (part :: acc, true)
  return found.1.reverse.flatten

/-- Statements up to what ends them. -/
def statementsUntil (ends : Token → Bool) : Parse Marks :=
  many do
    if ends (← peek) then return none
    return some (← call .statement)

def endsBlock (t : Token) : Bool := t = .mark "\x7d" || t = .stop

/-- A block, and behind it the place where a statement may end. -/
def block (operand : Bool) : Parse Marks := do
  mark "\x7b"
  let marks ← statementsUntil endsBlock
  mark "\x7d"
  discard <| autoSemicolon operand
  return marks

/-- From behind the word `function`. -/
def function (operand : Bool) : Parse Marks := do
  discard <| acceptMark "*"
  match ← peek with
  | .word _ => advance
  | _ => pure ()
  let marks ← signature
  return marks ++ (← call (.block operand))

def classModifiers (typed : Bool) : List String :=
  ["static", "async", "get", "set"] ++
  if typed then "abstract" :: "accessor" :: accessibilities else []

/-- With types a comma may end a field too. -/
def fieldEnd (typed : Bool) : Parse Unit := do
  if typed then
    if ← acceptMark "," then return
  mark ";"

/-- A field from behind its name. -/
def field (typed : Bool) : Parse Marks := do
  if typed then maybeAnnotation
  if ← acceptMark "=" then
    let marks ← assignment { ends := true }
    unless ← autoSemicolon true do fieldEnd typed
    return marks
  unless ← autoSemicolon false do fieldEnd typed
  return []

/-- A method from behind its name; with types its body may be missing. -/
def method (typed : Bool) : Parse Marks := do
  let parameters ← signature
  if ← seesMark "\x7b" then return parameters ++ (← call (.block false))
  guard typed
  unless ← acceptMark "," do semicolon false
  return parameters

def seesStaticBlock : Parse Bool := do
  let l ← lexeme
  return l.token = .word "static" && (Token.next l.after).token = .mark "\x7b"

def classMember : Parse Marks := do
  let typed ← isTyped
  if ← acceptMark ";" then return []
  if ← seesStaticBlock then
    word "static"
    return ← call (.block false)
  let decoration ← decorators
  modifiersFrom (classModifiers typed)
  discard <| acceptMark "*"
  if typed then
    let index ← attempt do
      indexSignature
      unless ← acceptMark "," do semicolon false
    if index.isSome then return decoration
  let name ← memberName
  if typed then
    unless ← acceptMark "?" do discard <| acceptMark "!"
  let rest ← if ← seesSignature then method typed else field typed
  return decoration ++ name ++ rest

def classBody : Parse Marks := do
  mark "\x7b"
  let marks ← many do
    if ← acceptMark "\x7d" then return none
    return some (← classMember)
  return marks

end Coverage.Syntax.Declaration

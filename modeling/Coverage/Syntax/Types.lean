import Coverage.Syntax.Bracket

/-!
Type annotations. They hold no statements and no branches, so their marks are of no interest; what
counts is where they end.
-/
namespace Coverage.Syntax.Types
open Parse

def type : Parse Unit := do discard <| call .type
def objectType : Parse Unit := do discard <| call .objectType

/-- Whether the next lexeme stands on the line of the last. -/
def sameLine : Parse Bool := fun _ c =>
  some (c.rest.takeWhile Cursor.isGap |>.all (!Cursor.endsLine ·), c)

/-- A list between commas up to a closing character; the last comma may be followed by it. -/
def listUntil (close : Char) (p : Parse Unit) : Parse Unit :=
  loop () fun _ => do
    if ← acceptChar close then return none
    p
    unless ← acceptMark "," do
      char close
      return none
    return some ()

def typeArguments : Parse Unit := do
  char '<'
  type
  loop () fun _ => do
    if ← acceptMark "," then
      unless ← seesChar '>' do type
      return some ()
    return none
  char '>'

def maybeTypeArguments : Parse Unit := do
  if ← seesChar '<' then typeArguments

def typeParameter : Parse Unit := do
  let name ← anyWord
  if name == "const" || name == "in" || name == "out" then
    unless ← (do return (← seesChar ',') || (← seesChar '>') || (← seesMark "=") ||
        (← seesWord "extends")) do
      discard anyWord
  if ← acceptWord "extends" then type
  if ← acceptMark "=" then type

def typeParameters : Parse Unit := do
  char '<'
  listUntil '>' typeParameter

def maybeTypeParameters : Parse Unit := do
  if ← seesChar '<' then typeParameters

/-- The type behind a colon, which for a result may be a predicate on a parameter. -/
def result : Parse Unit := do
  if ← seesWord "asserts" then
    let guarded ← attempt do
      word "asserts"
      let name ← anyWord
      guard (name != "is")
      if ← acceptWord "is" then type
    if guarded.isSome then return
  type
  if (← seesWord "is") && (← sameLine) then
    word "is"
    type

def annotation : Parse Unit := do
  mark ":"
  type

def maybeAnnotation : Parse Unit := do
  if ← seesMark ":" then annotation

def maybeResult : Parse Unit := do
  if ← acceptMark ":" then result

def parameters : Parse Unit := do discard <| call .parameters

def functionType : Parse Unit := do
  maybeTypeParameters
  parameters
  mark "=>"
  result

/-- A dotted name with type arguments. -/
def nameRest : Parse Unit := do
  loop () fun _ => do
    unless ← seesMark "." do return none
    mark "."
    match ← peek with
    | .privateName => advance
    | _ => discard anyWord
    return some ()
  maybeTypeArguments

def tupleElement : Parse Unit := do
  discard <| acceptMark "..."
  let named ← attempt do
    discard anyWord
    discard <| acceptMark "?"
    mark ":"
  type
  if named.isNone then discard <| acceptMark "?"

def tuple : Parse Unit := do
  mark "["
  listUntil ']' tupleElement

def importType : Parse Unit := do
  word "import"
  mark "("
  type
  if ← acceptMark "," then objectType
  mark ")"
  nameRest

/-- Types with a word of their own, which take no arguments. -/
def predefined : List String :=
  ["any", "number", "boolean", "string", "symbol", "void", "unknown", "never", "object"]

def primary : Parse Unit := do
  let l ← lexeme
  match l.token with
  | .string | .number => take l
  | .mark "-" => take l; expect .number
  | .mark "\x60" => discard <| template (call .type)
  | .mark "\x7b" => objectType
  | .mark "[" => tuple
  | .mark "(" =>
    if Bracket.follower l.after == .arrow then functionType
    else
      mark "("
      type
      mark ")"
  | .mark "<" => functionType
  | .word "new" => word "new"; functionType
  | .word "abstract" =>
    take l
    if ← acceptWord "new" then functionType else nameRest
  | .word "import" => importType
  | .word "typeof" =>
    take l
    if ← seesWord "import" then importType
    else
      discard anyWord
      nameRest
  | .word s =>
    take l
    unless predefined.contains s do nameRest
  | _ => failure

/-- Brackets behind a type, on its line. -/
def indexed : Parse Unit := do
  primary
  loop () fun _ => do
    if (← seesMark "[") && (← sameLine) then
      mark "["
      if ← acceptMark "]" then return some ()
      type
      mark "]"
      return some ()
    return none

def operators : List String := ["keyof", "unique", "readonly"]

/-- A name that stands for what is found there, with what it has to extend. -/
def inferred (bound : Parse Unit) : Parse Unit := do
  word "infer"
  discard anyWord
  discard <| attempt do
    word "extends"
    bound

def unary : Parse Unit := do
  loop () fun _ => do
    let l ← lexeme
    match l.token with
    | .word s =>
      if operators.contains s then
        take l
        return some ()
      return none
    | _ => return none
  if (← attempt (inferred indexed)).isSome then return
  indexed

def separated (sep : Char) (wide : String) (p : Parse Unit) : Parse Unit := do
  discard <| acceptChar sep
  p
  loop () fun _ => do
    if (← seesChar sep) && !(← seesMark wide) then
      char sep
      p
      return some ()
    return none

def union : Parse Unit := separated '|' "||" (separated '&' "&&" unary)

/-- A union, or a choice between two types by what a third extends. -/
def full : Parse Unit := do
  union
  if ← acceptWord "extends" then
    union
    if ← acceptMark "?" then
      type
      mark ":"
      type

/-- Names of members, with a type for computed ones of index signatures. -/
def keyName : Parse Unit := do
  match ← peek with
  | .word _ | .string | .number | .privateName => advance
  | .mark "[" =>
    mark "["
    discard <| call (.assignment {})
    mark "]"
  | _ => failure

/-- `[key: type]`, `[key in type]` and `[key in type as type]`. -/
def indexSignature : Parse Unit := do
  mark "["
  discard anyWord
  if ← acceptMark ":" then type
  else
    word "in"
    type
    if ← acceptWord "as" then type
  mark "]"
  if ← acceptMark "-" then mark "?"
  else if ← acceptMark "+" then mark "?"
  else discard <| acceptMark "?"
  maybeAnnotation

/-- Whether the word just taken stands for a member of that name. -/
def endsName : Token → Bool
  | .mark s => ["(", ":", "?", ";", ",", "\x7d", "<", "=", "!"].contains s
  | .stop => true
  | _ => false

def modifiersFrom (words : List String) : Parse Unit :=
  loop () fun _ => do
    let l ← lexeme
    match l.token with
    | .word s =>
      if words.contains s && !endsName (Token.next l.after).token then
        take l
        return some ()
      return none
    | _ => return none

def callSignature : Parse Unit := do
  maybeTypeParameters
  parameters
  maybeResult

def constructor : Parse Unit := do
  word "new"
  callSignature

def member : Parse Unit := do
  if ← acceptAnyMark ["-", "+"] then
    word "readonly"
    indexSignature
    return
  modifiersFrom ["readonly", "get", "set", "public", "private", "protected", "static", "export"]
  if (← attempt indexSignature).isSome then return
  if (← seesChar '<') || (← seesMark "(") then callSignature
  else if (← attempt constructor).isSome then return
  else
    keyName
    discard <| acceptMark "?"
    if (← seesChar '<') || (← seesMark "(") then callSignature
    else maybeAnnotation

def object : Parse Unit := do
  mark "\x7b"
  unless ← acceptMark "," do discard <| acceptMark ";"
  loop () fun _ => do
    if ← acceptMark "\x7d" then return none
    member
    if ← acceptAnyMark [",", ";"] then return some ()
    if ← autoSemicolon false then
      return some ()
    failure

/-- The value of a rule that finds nothing to mark. -/
def unmarked (p : Parse Unit) : Parse Marks := do
  p
  return []

end Coverage.Syntax.Types

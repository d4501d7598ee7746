import Coverage.Syntax.Types

/-!
Expressions. Operators of one level associate to the left, the power and the conditional to the
right; a type assertion binds weaker than every operator. An assignment may stand wherever its target
may, and an arrow function wherever an operand may.
-/
namespace Coverage.Syntax.Expression
open Parse Coverage.Syntax.Types

def expressions (ctx : Context) : Parse Marks := call (.sequence ctx)
def assignment (ctx : Context) : Parse Marks := call (.assignment ctx)
def operand (ctx : Context) : Parse Marks := call (.operand ctx)

def parenthesized : Parse Marks := do
  mark "("
  let inner ← expressions {}
  mark ")"
  return inner

/-- The weakest level comes first; even levels are for what stands to the right of an operator. -/
def levels : List (Nat × List String) :=
  [(1, ["??"]), (3, ["||"]), (5, ["&&"]), (7, ["|"]), (9, ["^"]), (11, ["&"]),
   (13, ["==", "!=", "===", "!=="]), (15, ["<", ">", "<=", ">="]), (17, ["<<", ">>", ">>>"]),
   (19, ["+", "-"]), (21, ["*", "/", "%"]), (23, ["**"])]

def relation : Nat := 15
def power : Nat := 23

def level? (ctx : Context) : Token → Option Nat
  | .mark s => (levels.find? (·.2.contains s)).map (·.1)
  | .word "instanceof" => some relation
  | .word "in" => if ctx.noIn then none else some relation
  | _ => none

/-- What follows `as` or `satisfies`. -/
def assertedType : Parse Unit := do
  unless ← acceptWord "const" do type

/-- Whether a type assertion is taken up at a level, and not left to what is around. -/
def takesAssertion (level : Nat) : Bool := level ≤ 1 || level == power

/-- Operators from a level on. -/
def binary (level : Nat) (ctx : Context) : Parse Marks := do
  let start ← here
  let first ← operand ctx
  let typed ← isTyped
  loop first fun marks => do
    if ← endsHere ctx then return none
    let left ← extentFrom start
    let l ← lexeme
    if typed && takesAssertion level && (l.token = .word "as" || l.token = .word "satisfies") then
      take l
      assertedType
      return some marks
    match level? ctx l.token with
    | none => return none
    | some n =>
      if n < level then return none
      take l
      let from' ← here
      let more ← call (.binary (if n = power then n else n + 1) ctx)
      let right ← extentFrom from'
      let whole ← extentFrom start
      return some (.binary whole left ⟨l.start, l.after.offset⟩ right :: marks ++ more)

/-- A question mark that is not the one of an optional parameter. -/
def seesCondition : Parse Bool := do
  let l ← lexeme
  if l.token ≠ .mark "?" then return false
  if !(← isTyped) then return true
  match (Token.next l.after).token with
  | .mark ":" | .mark ")" | .mark "," => return false
  | _ => return true

def conditional (ctx : Context) : Parse Marks := do
  let start ← here
  let condition ← call (.binary 0 ctx)
  if (← endsHere ctx) || !(← seesCondition) then return condition
  mark "?"
  let from' ← here
  let yes ← assignment { noResult := true }
  let consequence ← extentFrom from'
  mark ":"
  let from' ← here
  let no ← assignment ctx
  let alternative ← extentFrom from'
  let whole ← extentFrom start
  return .conditional whole consequence alternative :: condition ++ yes ++ no

def commas (ctx : Context) : Parse Marks := do
  let first ← assignment ctx
  let rest ← many do
    if ← endsHere ctx then return none
    unless ← acceptMark "," do return none
    return some (← assignment ctx)
  return first ++ rest

def spread (ctx : Context) : Parse Marks := do
  discard <| acceptMark "..."
  assignment ctx

def arguments : Parse Marks := do
  mark "("
  commaList ")" (spread {})

def array : Parse Marks := do
  mark "["
  commaList "]" (spread {})

/-- Parameters with their types and the type of the result. -/
def signature : Parse Marks := do
  let typed ← isTyped
  if typed then maybeTypeParameters
  let marks ← call .parameters
  if typed then maybeResult
  return marks

/-- A name of a member; a computed one is an expression. -/
def memberName : Parse Marks := do
  match ← peek with
  | .word _ | .string | .number | .privateName => advance; return []
  | .mark "[" =>
    mark "["
    let marks ← assignment {}
    mark "]"
    return marks
  | _ => failure

/-- Whether a method goes on here behind its name. -/
def seesSignature : Parse Bool := do
  return (← seesMark "(") || ((← isTyped) && (← seesChar '<'))

/-- Words before the name of a member, as long as they are not the name itself. -/
def modifiers (words : List String) : Parse Bool := do
  let before ← done
  modifiersFrom words
  return before != (← done)

/-- A member of an object. A name with a default stands for a part of a pattern. -/
def property : Parse Marks := do
  if ← acceptMark "..." then return ← assignment {}
  let modified ← modifiers ["get", "set", "async"]
  let generator ← acceptMark "*"
  let plain : Bool := match ← peek with
    | .word _ => !modified && !generator
    | _ => false
  let name ← memberName
  if ← seesSignature then
    let parameters ← signature
    return name ++ parameters ++ (← call (.block false))
  if modified || generator then failure
  if ← acceptMark ":" then return name ++ (← assignment {})
  unless plain do failure
  if ← acceptMark "=" then return ← assignment {}
  return []

def object : Parse Marks := do
  mark "\x7b"
  commaList "\x7d" property

/-- From behind the arrow. -/
def arrowBody (ctx : Context) : Parse Marks := do
  if ← seesMark "\x7b" then call (.block true) else assignment ctx

/-- The parameters of an arrow function and the arrow. -/
def arrowHead : Parse Marks := do
  let marks ← signature
  mark "=>"
  return marks

/-- The rest of an arrow function whose head may turn out to be none. -/
def arrow? (ctx : Context) : Parse (Option Marks) := do
  match ← attempt arrowHead with
  | none => return none
  | some marks => return some (marks ++ (← arrowBody ctx))

/-- An arrow function with the type of its result, in front of the colon of a conditional: that colon
still has to follow, or the first one was it. -/
def arrowBeforeColon? (ctx : Context) : Parse (Option Marks) := attempt do
  let head ← arrowHead
  let body ← arrowBody ctx
  guard (← seesMark ":")
  return head ++ body

/-- An arrow function that starts with a parenthesis. -/
def arrowFromParenthesis? (ctx : Context) : Parse (Option Marks) := do
  let l ← lexeme
  unless l.token = .mark "(" do return none
  match Bracket.follower l.after with
  | .arrow => arrow? ctx
  | .colon =>
    if !(← isTyped) then return none
    if ctx.noResult then arrowBeforeColon? ctx else arrow? ctx
  | .other => return none

/-- An arrow function with type parameters. -/
def genericArrow? (ctx : Context) : Parse (Option Marks) := do
  unless (← isTyped) && (← seesChar '<') do return none
  arrow? ctx

/-- A single parameter and the arrow. -/
def bareArrow? (ctx : Context) : Parse (Option Marks) := do
  let head ← attempt do
    discard anyWord
    mark "=>"
  if head.isNone then return none
  return some (← arrowBody ctx)

/-- From behind the word `class`, without a name if `named` does not hold. -/
def classRest : Parse Marks := do
  let typed ← isTyped
  match ← peek with
  | .word s => unless s == "extends" || (typed && s == "implements") do advance
  | _ => pure ()
  if typed then maybeTypeParameters
  let heritage ←
    if ← acceptWord "extends" then
      let marks ← operand {}
      if typed then maybeTypeArguments
      pure marks
    else pure []
  if typed then
    if ← acceptWord "implements" then
      type
      loop () fun _ => do
        unless ← acceptMark "," do return none
        type
        return some ()
  return heritage ++ (← call .classBody)

def regex : Parse Marks := do
  let c ← cursor
  match Token.pattern? c.skipTrivia with
  | some d => moveTo d; return []
  | none => failure

/-- From behind the word `new`. -/
def construction : Parse Marks := do
  if ← acceptMark "." then
    word "target"
    return []
  let callee ← call .callee
  if ← isTyped then discard <| attempt do
    typeArguments
    guard (← seesMark "(")
  if ← seesMark "(" then return callee ++ (← arguments)
  return callee

/-- An operand and whether it may be assigned to. -/
abbrev Target := Marks × Bool

def fixed (p : Parse Marks) : Parse Target := do return (← p, false)

def asynchronous (ctx : Context) : Parse Target := do
  let l ← lexeme
  let next := Token.next l.after
  if next.token = .word "function" then
    take next
    return ← fixed (call (.function true))
  let arrow ← attempt do
    take l
    match next.token with
    | .word _ =>
      match ← bareArrow? ctx with
      | some marks => return marks
      | none => failure
    | .mark "(" =>
      match ← arrowFromParenthesis? ctx with
      | some marks => return marks
      | none => failure
    | .mark "<" =>
      match ← genericArrow? ctx with
      | some marks => return marks
      | none => failure
    | _ => failure
  match arrow with
  | some marks => return (marks, false)
  | none =>
    take l
    return ([], true)

def constants : List String := ["this", "super", "null", "true", "false"]

/-- Operators and the like, which cannot be names where an operand is expected. -/
def reserved : List String := ["typeof", "void", "delete", "yield"]

def primaryWord (ctx : Context) (l : Lexeme) (s : String) : Parse Target := do
  if s == "function" then
    take l
    fixed (call (.function true))
  else if s == "async" then
    if (← ahead do take l; guard (← endsHere ctx)).isSome then
      take l
      return ([], true)
    match ← bareArrow? ctx with
    | some marks => return (marks, false)
    | none => asynchronous ctx
  else if s == "class" then
    take l
    fixed classRest
  else if s == "new" then
    take l
    fixed construction
  else if s == "import" then
    take l
    guard ((← seesMark "(") || (← seesMark "."))
    return ([], false)
  else if constants.contains s then
    take l
    return ([], false)
  else if reserved.contains s then failure
  else
    match ← bareArrow? ctx with
    | some marks => return (marks, false)
    | none =>
      take l
      return ([], true)

def primary (ctx : Context) : Parse Target := do
  let l ← lexeme
  match l.token with
  | .number | .string => take l; return ([], false)
  | .privateName =>
    take l
    guard (← seesWord "in")
    return ([], false)
  | .word s => primaryWord ctx l s
  | .mark "(" =>
    match ← arrowFromParenthesis? ctx with
    | some marks => return (marks, false)
    | none => return (← parenthesized, true)
  | .mark "[" => return (← array, true)
  | .mark "\x7b" => return (← object, true)
  | .mark "\x60" => fixed (template (expressions {}))
  | .mark "/" | .mark "/=" => fixed regex
  | .mark "@" =>
    let marks ← call .decorators
    word "class"
    return (marks ++ (← classRest), false)
  | .mark "<" | .mark "<<" =>
    if (← dialect).hasMarkup then
      match ← genericArrow? ctx with
      | some marks => return (marks, false)
      | none => fixed (call .element)
    else failure
  | _ => failure

/-- A name behind a point. -/
def dottedName : Parse Unit := do
  match ← peek with
  | .word _ | .privateName => advance
  | _ => failure

def index : Parse Marks := do
  mark "["
  let marks ← expressions {}
  mark "]"
  return marks

/-- Type arguments before a call, or at the end of an operand. -/
def suffixTypeArguments : Parse Unit := do
  typeArguments
  match ← peek with
  | .stop => return
  | .mark s => guard (["(", "\x60", ")", "]", ",", ";", ":", "\x7d", "."].contains s)
  | _ => guard (!(← sameLine))

/-- One member, index or call more; `calls` says whether calls are wanted. -/
def suffix? (calls : Bool) (t : Target) : Parse (Option Target) := do
  let typed ← isTyped
  let l ← lexeme
  match l.token with
  | .mark "." =>
    take l
    dottedName
    return some (t.1, true)
  | .mark "[" => return some (t.1 ++ (← index), true)
  | .mark "?." =>
    if !calls then return none
    take l
    match ← peek with
    | .mark "(" => return some (t.1 ++ (← arguments), false)
    | .mark "[" => return some (t.1 ++ (← index), true)
    | .mark "\x60" => return some (t.1 ++ (← template (expressions {})), false)
    | .mark "<" | .mark "<<" =>
      guard typed
      typeArguments
      return some (t.1 ++ (← arguments), false)
    | _ =>
      dottedName
      return some (t.1, true)
  | .mark "(" =>
    if !calls then return none
    return some (t.1 ++ (← arguments), false)
  | .mark "\x60" => return some (t.1 ++ (← template (expressions {})), false)
  | .mark "!" =>
    if typed && (← sameLine) then
      take l
      return some t
    return none
  | .mark "<" | .mark "<<" =>
    if typed && calls then
      match ← attempt suffixTypeArguments with
      | some _ => return some (t.1, false)
      | none => return none
    return none
  | _ => return none

/-- An operand with members, indices and calls. -/
def suffixed (ctx : Context) : Parse Target := do
  let first ← primary ctx
  loop first fun t => do
    if ← endsHere ctx then return none
    suffix? true t

/-- What stands behind `new`: no call belongs to it. -/
def callee : Parse Marks := do
  if ← acceptWord "new" then return ← construction
  let first ← primary {}
  return (← loop first (suffix? false)).1

def assignmentMarks : List String :=
  ["=", "+=", "-=", "*=", "/=", "%=", "**=", "<<=", ">>=", ">>>=", "&=", "|=", "^=", "&&=", "||=", "??="]

/-- An operand, one step up or down, and what is assigned to it. -/
def assigned (ctx : Context) : Parse Marks := do
  let (marks, assignable) ← suffixed ctx
  if ← endsHere ctx then return marks
  let l ← lexeme
  match l.token with
  | .mark s =>
    if s == "++" || s == "--" then
      take l
      return marks
    if assignable && assignmentMarks.contains s then
      take l
      return marks ++ (← assignment ctx)
    return marks
  | _ => return marks

/-- Whether a lexeme may start an expression rather than go on behind one. -/
def startsExpression (typed : Bool) : Token → Bool
  | .word s => !(["in", "instanceof"].contains s || typed && ["as", "satisfies"].contains s)
  | .number | .string | .privateName => true
  | .mark s => ["(", "[", "\x7b", "\x60", "!", "~", "+", "-", "++", "--", "/", "/=", "<", "@"].contains s
  | _ => false

def awaited (ctx : Context) (l : Lexeme) : Parse Marks := do
  take l
  let marks ← operand ctx
  if ← isTyped then
    loop () fun _ => do
      if ← endsHere ctx then return none
      unless ← acceptAnyWord ["as", "satisfies"] do return none
      assertedType
      return some ()
  return marks

def yielded (ctx : Context) : Parse Marks := do
  if ctx.ends then
    if ← autoSemicolon false then return []
  if ← acceptMark "*" then return ← assignment ctx
  if startsExpression (← isTyped) (← peek) then return ← assignment ctx
  return []

/-- A type in angle brackets before an operand, or an arrow function with type parameters. -/
def angled (ctx : Context) : Parse Marks := do
  match ← genericArrow? ctx with
  | some marks => return marks
  | none =>
    typeArguments
    operand ctx

def operandRule (ctx : Context) : Parse Marks := do
  let l ← lexeme
  match l.token with
  | .mark s =>
    if ["!", "~", "+", "-", "++", "--"].contains s then
      take l
      return ← operand ctx
    if s == "<" && !(← dialect).hasMarkup then return ← angled ctx
    assigned ctx
  | .word s =>
    if s == "typeof" || s == "void" || s == "delete" then
      take l
      operand ctx
    else if s == "await" then awaited ctx l
    else if s == "yield" then
      take l
      yielded ctx
    else assigned ctx
  | _ => assigned ctx

end Coverage.Syntax.Expression

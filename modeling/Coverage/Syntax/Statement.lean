import Coverage.Syntax.Declaration

/-!
Statements. Those that count as statements of their own are marked with all that belongs to them, a
semicolon included; declarations of functions and classes, blocks and what imports and exports are
only marked inside.
-/
namespace Coverage.Syntax.Statement
open Parse Expression Coverage.Syntax.Types Declaration

/-- What a rule finds, behind the mark of the statement itself. -/
def marked (p : Parse Marks) : Parse Marks := do
  let start ← here
  let marks ← p
  return .statement (← extentFrom start) :: marks

def expression : Parse Marks := marked do
  let marks ← expressions { ends := true }
  semicolon true
  return marks

def initializer? : Parse (Option Marks) := do
  if ← acceptMark "=" then return some (← assignment { ends := true }) else return none

/-- A variable with its type and value, and whether the value comes last. -/
def declarator : Parse (Marks × Bool) := do
  let marks ← call .pattern
  if ← isTyped then
    discard <| acceptMark "!"
    maybeAnnotation
  match ← initializer? with
  | some value => return (marks ++ value, true)
  | none => return (marks, false)

def moreDeclarators (first : Marks × Bool) : Parse (Marks × Bool) :=
  loop first fun (marks, _) => do
    unless ← acceptMark "," do return none
    let (more, valued) ← declarator
    return some (marks ++ more, valued)

/-- A declaration of variables, the word before them included. -/
def variableList : Parse Marks := marked do
  discard anyWord
  let (marks, valued) ← moreDeclarators (← declarator)
  semicolon valued
  return marks

/-- Whether a word opens a declaration of variables here. -/
def seesVariables : Parse Bool := do
  let l ← lexeme
  let next := (Token.next l.after).token
  match l.token with
  | .word "var" | .word "const" => return true
  | .word "let" =>
    match next with
    | .word s => return !(["in", "of", "instanceof"].contains s)
    | .mark "[" | .mark "\x7b" => return true
    | _ => return false
  | _ => return false

def ifRule : Parse Marks := do
  let start ← here
  word "if"
  let condition ← parenthesized
  let from' ← here
  let yes ← call .statement
  let consequence ← extentFrom from'
  let from' ← here
  if ← acceptWord "else" then
    let no ← call .statement
    let alternative ← extentFrom from'
    let whole ← extentFrom start
    return .statement whole :: .choice whole consequence (some alternative) ::
      condition ++ yes ++ no
  let whole ← extentFrom start
  return .statement whole :: .choice whole consequence none :: condition ++ yes

def whileRule : Parse Marks := marked do
  word "while"
  let condition ← parenthesized
  return condition ++ (← call .statement)

def doRule : Parse Marks := marked do
  word "do"
  let body ← call .statement
  word "while"
  let condition ← parenthesized
  unless ← autoSemicolon false do discard <| acceptMark ";"
  return body ++ condition

/-- What is walked over, and the body. -/
def walkRest (marks : Marks) : Parse Marks := do
  unless ← acceptWord "of" do word "in"
  let walked ← expressions {}
  mark ")"
  return marks ++ walked ++ (← call .statement)

def seesWalk : Parse Bool := do return (← seesWord "of") || (← seesWord "in")

/-- From behind the start of a counting loop. -/
def countRest (marks : Marks) : Parse Marks := do
  let condition ← if ← acceptMark ";" then pure [] else do
    let condition ← expressions {}
    mark ";"
    pure condition
  let step ← if ← seesMark ")" then pure [] else expressions {}
  mark ")"
  return marks ++ condition ++ step ++ (← call .statement)

/-- A loop that declares what it walks with. -/
def walkDeclared : Parse Marks := do
  discard anyWord
  let marks ← call .pattern
  if ← isTyped then maybeAnnotation
  let value ← if ← acceptMark "=" then assignment { noIn := true } else pure []
  guard (← seesWalk)
  return marks ++ value

def forRule : Parse Marks := marked do
  word "for"
  discard <| acceptWord "await"
  mark "("
  if ← acceptMark ";" then countRest []
  else if ← seesVariables then
    match ← attempt walkDeclared with
    | some marks => walkRest marks
    | none => countRest (← variableList)
  else
    let first ← expressions { noIn := true }
    if ← seesWalk then walkRest first
    else
      mark ";"
      countRest first

def endsCase (t : Token) : Bool := t = .word "case" || t = .word "default" || endsBlock t

def case? : Parse (Option Marks) := do
  if ← acceptMark "\x7d" then return none
  let value ← if ← acceptWord "default" then pure [] else do
    word "case"
    expressions {}
  mark ":"
  return some (value ++ (← statementsUntil endsCase))

def switchRule : Parse Marks := marked do
  word "switch"
  let value ← parenthesized
  mark "\x7b"
  return value ++ (← many case?)

def catch? : Parse Marks := do
  unless ← acceptWord "catch" do return []
  let caught ← if ← acceptMark "(" then do
      let marks ← call .pattern
      if ← isTyped then maybeAnnotation
      mark ")"
      pure marks
    else pure []
  return caught ++ (← call (.block false))

def finally? : Parse Marks := do
  unless ← acceptWord "finally" do return []
  call (.block false)

def tryRule : Parse Marks := do
  word "try"
  let body ← call (.block false)
  let caught ← catch?
  return body ++ caught ++ (← finally?)

def returnRule : Parse Marks := marked do
  word "return"
  if ← autoSemicolon false then return []
  if ← acceptMark ";" then return []
  let marks ← expressions { ends := true }
  semicolon true
  return marks

def throwRule : Parse Marks := marked do
  word "throw"
  let marks ← expressions { ends := true }
  semicolon true
  return marks

/-- A jump, with or without a label. -/
def jump : Parse Marks := do
  discard anyWord
  if ← autoSemicolon false then return []
  if ← acceptMark ";" then return []
  discard anyWord
  semicolon false
  return []

def withRule : Parse Marks := do
  word "with"
  let scope ← parenthesized
  return scope ++ (← call .statement)

/-- A function from behind the word `function`; with types its body may be missing. -/
def functionDeclaration : Parse Marks := do
  word "function"
  discard <| acceptMark "*"
  discard anyWord
  let marks ← signature
  if (← isTyped) && !(← seesMark "\x7b") then
    semicolon false
    return marks
  let body ← call (.block false)
  discard <| autoSemicolon false
  return marks ++ body

/-- Whether a function with a name follows. -/
def seesFunction : Parse Bool := do
  let named ← ahead do
    word "function"
    discard <| acceptMark "*"
    anyWord
  return named.isSome

def classDeclaration : Parse Marks := do
  word "class"
  let marks ← classRest
  discard <| autoSemicolon false
  return marks

/-- Whether a class with a name follows. -/
def seesClass : Parse Bool := do
  let l ← lexeme
  if l.token ≠ .word "class" then return false
  match (Token.next l.after).token with
  | .word s => return s != "extends"
  | _ => return false

/-! ### Declarations of types and name spaces -/

def interfaceRule : Parse Marks := do
  word "interface"
  discard anyWord
  maybeTypeParameters
  if ← acceptWord "extends" then
    type
    loop () fun _ => do
      unless ← acceptMark "," do return none
      type
      return some ()
  objectType
  return []

def aliasRule : Parse Marks := do
  word "type"
  discard anyWord
  maybeTypeParameters
  mark "="
  type
  semicolon false
  return []

def enumMember? : Parse (Option Marks) := do
  if ← acceptMark "\x7d" then return none
  let name ← memberName
  let value ← default?
  unless ← acceptMark "," do guard (← seesMark "\x7d")
  return some (name ++ value)

def enumRule : Parse Marks := do
  discard <| acceptWord "const"
  word "enum"
  discard anyWord
  mark "\x7b"
  many enumMember?

/-- A dotted name and a block. -/
def spaceRest : Parse Marks := do
  discard anyWord
  loop () fun _ => do
    unless ← acceptMark "." do return none
    discard anyWord
    return some ()
  call (.block true)

def namespaceRule : Parse Marks := do
  word "namespace"
  spaceRest

def moduleRule : Parse Marks := do
  word "module"
  match ← peek with
  | .string =>
    advance
    if ← seesMark "\x7b" then call (.block false) else return []
  | _ => spaceRest

/-- Whether a word is followed by another on its line, as words that open declarations are. -/
def opensDeclaration (s : String) : Parse Bool := do
  let opened ← ahead do
    word s
    guard (← sameLine)
    match ← peek with
    | .word t => guard !(["in", "of", "instanceof", "as", "satisfies", "is"].contains t)
    | .string => guard (s == "module")
    | _ => failure
  return opened.isSome

/-- The words that open declarations other than of variables and name spaces. -/
def declarationWords : List String :=
  ["function", "async", "class", "abstract", "interface", "type", "enum", "module", "import", "declare"]

def declareRule : Parse Marks := do
  word "declare"
  if (← seesWord "global") then
    word "global"
    return ← call (.block false)
  if ← opensDeclaration "namespace" then namespaceRule
  else if ← seesVariables then variableList
  else
    match ← peek with
    | .word s =>
      guard (declarationWords.contains s || s == "const")
      call .statement
    | _ => failure

def abstractRule : Parse Marks := do
  word "abstract"
  classDeclaration

/-! ### Imports and exports -/

def moduleName : Parse Unit := do
  match ← peek with
  | .word _ | .string => advance
  | _ => failure

/-- A name, and another for it. With types the word `type` may come first. -/
def specifier : Parse Unit := do
  if ← isTyped then
    let l ← lexeme
    if l.token = .word "type" then
      match (Token.next l.after).token with
      | .word "as" => pure ()
      | .word _ | .string => take l
      | _ => pure ()
  moduleName
  if ← acceptWord "as" then moduleName

def specifiers : Parse Unit := do
  mark "\x7b"
  listUntil '\x7d' specifier

def source : Parse Unit := do
  expect .string
  if ← sameLine then
    if ← acceptAnyWord ["with", "assert"] then discard Expression.object

def allAs : Parse Unit := do
  mark "*"
  word "as"
  discard anyWord

/-- What is imported, from behind the word `import`. -/
def importClause : Parse Unit := do
  if ← seesMark "\x7b" then specifiers
  else if ← seesMark "*" then allAs
  else
    discard anyWord
    if ← acceptMark "," then
      if ← seesMark "\x7b" then specifiers else allAs

/-- A name for a module or for a part of one. -/
def importAlias : Parse Unit := do
  discard anyWord
  mark "="
  if (← attempt do word "require"; mark "("; expect .string; mark ")").isNone then
    discard anyWord
    loop () fun _ => do
      unless ← acceptMark "." do return none
      discard anyWord
      return some ()

/-- The word `type` before what is imported or exported. -/
def typeOnly : Parse Unit := do
  let l ← lexeme
  if l.token = .word "type" || l.token = .word "typeof" then
    match (Token.next l.after).token with
    | .word "from" =>
      if (Token.next (Token.next l.after).after).token = .word "from" then take l
    | .word _ | .mark "\x7b" | .mark "*" => take l
    | _ => return

def importRule : Parse Marks := do
  word "import"
  if ← seesStringLexeme then source
  else
    let typed ← isTyped
    if typed then typeOnly
    let aliased ← if typed then attempt importAlias else pure none
    if aliased.isNone then
      importClause
      word "from"
      source
  semicolon false
  return []
where
  seesStringLexeme : Parse Bool := sees .string

/-- Whether an import is the call of a function or stands for the module itself. -/
def seesImportExpression : Parse Bool := do
  let l ← lexeme
  match (Token.next l.after).token with
  | .mark "(" | .mark "." => return true
  | _ => return false

/-- A declaration that can be exported. -/
def declaration? : Parse (Option Marks) := do
  let typed ← isTyped
  if typed && (← ahead do word "const"; word "enum").isSome then return some (← enumRule)
  if ← seesVariables then return some (← variableList)
  if ← seesFunction then return some (← functionDeclaration)
  if ← seesClass then return some (← classDeclaration)
  match ← peek with
  | .word "async" =>
    let l ← lexeme
    let named ← ahead do
      take l
      guard (← seesFunction)
    if named.isSome then
      take l
      return some (← functionDeclaration)
  | _ => pure ()
  unless typed do return none
  match ← peek with
  | .word "interface" => return some (← interfaceRule)
  | .word "type" => if ← opensDeclaration "type" then return some (← aliasRule)
  | .word "enum" => return some (← enumRule)
  | .word "module" => if ← opensDeclaration "module" then return some (← moduleRule)
  | .word "declare" =>
    if (← opensDeclaration "declare") then return some (← declareRule)
  | .word "abstract" => return some (← abstractRule)
  | _ => pure ()
  return none

def exportedValue : Parse Marks := do
  let marks ← assignment { ends := true }
  semicolon true
  return marks

def exportDefault : Parse Marks := do
  word "default"
  match ← declaration? with
  | some marks => return marks
  | none => exportedValue

/-- What can be exported with types alone. -/
def typedExport? : Parse (Option Marks) := do
  if ← acceptMark "=" then return some (← exportedValue)
  if ← acceptWord "as" then
    word "namespace"
    discard anyWord
    semicolon false
    return some []
  if ← acceptWord "import" then
    typeOnly
    importAlias
    semicolon false
    return some []
  return none

/-- From behind the word `export`. -/
def exported : Parse Marks := do
  let typed ← isTyped
  if ← seesWord "default" then return ← exportDefault
  if typed then
    match ← typedExport? with
    | some marks => return marks
    | none => pure ()
  let names ← attempt do
    if typed then typeOnly
    if ← seesMark "*" then
      if (← attempt allAs').isNone then mark "*"
      word "from"
      source
    else
      specifiers
      if ← acceptWord "from" then source
  if names.isSome then
    semicolon false
    return []
  if typed && (← opensDeclaration "namespace") then return ← namespaceRule
  let decoration ← decorators
  match ← declaration? with
  | some marks => return decoration ++ marks
  | none => failure
where
  allAs' : Parse Unit := do
    mark "*"
    word "as"
    moduleName

def exportRule : Parse Marks := do
  word "export"
  exported

/-- Decorators before a class or an export. -/
def decorated : Parse Marks := do
  let decoration ← decorators
  if ← seesWord "export" then return decoration ++ (← exportRule)
  match ← declaration? with
  | some marks => return decoration ++ marks
  | none => failure

/-! ### All statements -/

/-- Words that open a statement or an expression and so are no labels. -/
def opening : List String :=
  ["var", "const", "if", "for", "while", "do", "return", "function", "class", "import", "switch",
    "throw", "try", "break", "continue", "debugger", "with", "new", "typeof", "void", "delete",
    "yield", "await", "this", "super", "null", "true", "false", "undefined"]

/-- Words that open a statement only with types. -/
def openingTyped : List String := ["interface", "enum", "abstract"]

def seesLabel : Parse Bool := do
  let l ← lexeme
  match l.token with
  | .word s =>
    let opens := opening.contains s || ((← isTyped) && openingTyped.contains s)
    return !opens && (Token.next l.after).token == .mark ":"
  | _ => return false

/-- Words that open a declaration and are names too. -/
def nameWords : List String := ["async", "let", "export"]

/-- Whether a word is a whole statement, because one ends or may end right behind it. -/
def endsBehindWord : Parse Bool := do
  let ended ← ahead do
    discard anyWord
    unless ← seesMark ";" do guard (← autoSemicolon true)
  return ended.isSome

def fromWord (s : String) : Parse Marks := do
  if nameWords.contains s then
    if ← endsBehindWord then return ← expression
  match s with
  | "if" => ifRule
  | "while" => whileRule
  | "do" => doRule
  | "for" => forRule
  | "switch" => switchRule
  | "try" => tryRule
  | "return" => returnRule
  | "throw" => throwRule
  | "break" | "continue" => jump
  | "debugger" =>
    advance
    semicolon false
    return []
  | "with" => withRule
  | "import" => if ← seesImportExpression then expression else importRule
  | "export" => exportRule
  | _ =>
    match ← declaration? with
    | some marks => return marks
    | none =>
      if (← isTyped) && s == "namespace" && (← opensDeclaration "namespace") then
        marked do
          let marks ← namespaceRule
          semicolon true
          return marks
      else expression

def statement : Parse Marks := do
  match ← peek with
  | .mark ";" => advance; return []
  | .mark "\x7b" => call (.block false)
  | .mark "@" => decorated
  | .word s =>
    if ← seesLabel then
      discard anyWord
      mark ":"
      call .statement
    else fromWord s
  | _ => expression

end Coverage.Syntax.Statement

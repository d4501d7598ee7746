import Coverage.Syntax.Cursor

/-!
Lexemes. Words, numbers, strings and punctuators are told by their first characters; regular
expressions, template strings and markup text are read where the grammar expects them.
-/
namespace Coverage.Syntax

inductive Token where
  | stop
  | word (s : String)
  | privateName
  | number
  | string
  | mark (s : String)
  | unknown
  deriving DecidableEq

/-- A lexeme, the byte it starts at and the place behind it. -/
structure Lexeme where
  token : Token
  start : Nat
  after : Cursor

namespace Token

def isOctal (x : Char) : Bool := '0' ≤ x && x ≤ '7'
def isHex (x : Char) : Bool := x.isDigit || ('a' ≤ x && x ≤ 'f') || ('A' ≤ x && x ≤ 'F')

def wordBreakers : List Char := ":;`\"'@#.,|^&<=>+-*/\\%?!~()[]\x7b\x7d".toList

/-- Everything but controls, gaps and punctuation may stand in a word. -/
def isWordPart (x : Char) : Bool :=
  x.isAlphanum || x == '_' || x == '$' ||
  (0x20 ≤ x.toNat && !Cursor.isGap x && !wordBreakers.contains x)

def isWordStart (x : Char) : Bool := isWordPart x && !x.isDigit

/-- How many characters write one by its code, as in `\u0061` or `\u{61}`. -/
def codeEscapeLength? : Text → Option Nat
  | '\\' :: 'u' :: '\x7b' :: r =>
    let digits := r.takeWhile isHex
    if digits.isEmpty then none
    else if (r.drop digits.length).head? = some '\x7d' then some (digits.length + 4) else none
  | '\\' :: 'u' :: a :: b :: x :: y :: _ => if [a, b, x, y].all isHex then some 6 else none
  | _ => none

/-- The word that goes on here, backwards, and the place behind it; first some characters of an
escape are passed over. -/
def wordFrom (escaped : Nat) (acc : List Char) (o : Nat) : Text → List Char × Cursor
  | [] => (acc, ⟨o, []⟩)
  | x :: r =>
    if 0 < escaped then wordFrom (escaped - 1) acc (o + x.utf8Size) r
    else if isWordPart x then wordFrom 0 (x :: acc) (o + x.utf8Size) r
    else
      match codeEscapeLength? (x :: r) with
      | some n => wordFrom (n - 1) (x :: acc) (o + x.utf8Size) r
      | none => (acc, ⟨o, x :: r⟩)

/-- The word that starts here. -/
def word? (c : Cursor) : Option (String × Cursor) :=
  match c.rest with
  | x :: _ =>
    if isWordStart x || (codeEscapeLength? c.rest).isSome then
      let (acc, d) := wordFrom 0 [] c.offset c.rest
      some (String.ofList acc.reverse, d)
    else none
  | [] => none

def isDigitOr_ (p : Char → Bool) (x : Char) : Bool := p x || x == '_'

def skipMark (p : Char → Bool) (c : Cursor) : Cursor :=
  match c.rest with
  | x :: _ => if p x then c.skip 1 else c
  | [] => c

/-- The place behind the digits of an exponent, if there is one. -/
def skipExponent (c : Cursor) : Cursor :=
  let d := skipMark (fun x => x == 'e' || x == 'E') c
  if d.offset = c.offset then c
  else
    let d := skipMark (fun x => x == '+' || x == '-') d
    let e := d.skipWhile (isDigitOr_ Char.isDigit)
    if e.offset = d.offset then c else e

/-- The place behind the number that starts here. -/
def number? (c : Cursor) : Option Cursor :=
  let radix (p : Char → Bool) : Option Cursor :=
    let d := (c.skip 2).skipWhile (isDigitOr_ p)
    if d.offset = c.offset + 2 then none else some (skipMark (· == 'n') d)
  match c.rest with
  | '0' :: x :: _ =>
    if x == 'x' || x == 'X' then radix isHex
    else if x == 'o' || x == 'O' then radix isOctal
    else if x == 'b' || x == 'B' then radix fun y => y == '0' || y == '1'
    else some (decimal c)
  | '.' :: x :: _ => if x.isDigit then some (decimal c) else none
  | x :: _ => if x.isDigit then some (decimal c) else none
  | [] => none
where
  decimal (c : Cursor) : Cursor :=
    let d := c.skipWhile (isDigitOr_ Char.isDigit)
    match d.rest with
    | 'n' :: _ => d.skip 1
    | '.' :: _ => skipExponent ((d.skip 1).skipWhile (isDigitOr_ Char.isDigit))
    | _ => skipExponent d

/-- How many characters an escape in a string takes. -/
def escapeLength? : Text → Option Nat
  | '\\' :: 'x' :: a :: b :: _ => if isHex a && isHex b then some 4 else none
  | '\\' :: 'x' :: _ => none
  | '\\' :: 'u' :: r => codeEscapeLength? ('\\' :: 'u' :: r)
  | '\\' :: '\r' :: '\n' :: _ => some 3
  | '\\' :: _ :: _ => some 2
  | _ => none

def stringFrom (quote : Char) (escaped o : Nat) : Text → Option Cursor
  | [] => none
  | x :: r =>
    let o := o + x.utf8Size
    if 0 < escaped then stringFrom quote (escaped - 1) o r
    else if x == quote then some ⟨o, r⟩
    else if x == '\\' then
      match escapeLength? (x :: r) with
      | some n => stringFrom quote (n - 1) o r
      | none => none
    else if x == '\n' || x == '\r' then none
    else stringFrom quote 0 o r

/-- The place behind the string whose quote stands here. -/
def string? (c : Cursor) : Option Cursor :=
  match c.rest with
  | x :: r =>
    if x == '"' || x == '\x27' then stringFrom x 0 (c.offset + 1) r else none
  | [] => none

/-- The end of a stretch of template characters: the place behind the closing quote, or before the
brace of a substitution. -/
inductive TemplateStop where
  | closed (c : Cursor)
  | substitution (c : Cursor)

def templateFrom (escaped o : Nat) : Text → Option TemplateStop
  | [] => none
  | x :: r =>
    let o := o + x.utf8Size
    if 0 < escaped then templateFrom (escaped - 1) o r
    else if x == '\x60' then some (.closed ⟨o, r⟩)
    else if x == '\\' then
      match escapeLength? (x :: r) with
      | some n => templateFrom (n - 1) o r
      | none => none
    else if x == '$' && r.head? == some '\x7b' then some (.substitution ⟨o, r⟩)
    else templateFrom 0 o r

/-- The place behind a regular expression without its flags, from behind its first slash. -/
def patternFrom (inClass escaped : Bool) (o : Nat) : Text → Option Cursor
  | [] => none
  | x :: r =>
    let o := o + x.utf8Size
    if x == '\n' then none
    else if escaped then patternFrom inClass false o r
    else if x == '\\' then patternFrom inClass true o r
    else if inClass then patternFrom (x != ']') false o r
    else if x == '/' then some ⟨o, r⟩
    else patternFrom (x == '[') false o r

/-- The place behind the regular expression that starts here. -/
def pattern? (c : Cursor) : Option Cursor :=
  match c.rest with
  | '/' :: '/' :: _ => none
  | '/' :: '*' :: _ => none
  | '/' :: r =>
    (patternFrom false false (c.offset + 1) r).map (·.skipWhile fun x => 'a' ≤ x && x ≤ 'z')
  | _ => none

/-- Longer punctuators come before those that they start with. -/
def punctuators : List (List Char) :=
  [">>>=", "...", "===", "!==", "**=", "<<=", ">>=", ">>>", "&&=", "||=", "??=", "=>", "==", "!=",
   "<=", ">=", "&&", "||", "??", "?.", "++", "--", "+=", "-=", "*=", "/=", "%=", "&=", "|=", "^=",
   "<<", ">>", "**", "\x7b", "\x7d", "(", ")", "[", "]", ";", ",", "<", ">", "+", "-", "*", "/", "%",
   "&", "|", "^", "!", "~", "?", ":", "=", ".", "@", "#", "\x60"].map String.toList

/-- The longest punctuator here; a question mark before a decimal stands on its own. -/
def punctuator? (c : Cursor) : Option (String × Cursor) :=
  match c.rest with
  | '?' :: '.' :: x :: _ =>
    if x.isDigit then some ("?", c.skip 1) else some ("?.", c.skip 2)
  | _ =>
    (punctuators.find? (·.isPrefixOf c.rest)).map fun p => (String.ofList p, c.skip p.length)

/-- The lexeme behind blanks and comments. -/
def next (c : Cursor) : Lexeme :=
  let c := c.skipTrivia
  let at' (t : Token) (d : Cursor) : Lexeme := ⟨t, c.offset, d⟩
  match c.rest with
  | [] => at' .stop c
  | '#' :: _ =>
    match word? (c.skip 1) with
    | some (_, d) => at' .privateName d
    | none => at' .unknown c
  | x :: _ =>
    match word? c with
    | some (s, d) => at' (.word s) d
    | none =>
      match number? c with
      | some d => at' .number d
      | none =>
        if x == '"' || x == '\x27' then
          match string? c with
          | some d => at' .string d
          | none => at' .unknown c
        else
          match punctuator? c with
          | some (s, d) => at' (.mark s) d
          | none => at' .unknown c

end Token
end Coverage.Syntax

import Coverage.Syntax.Cursor
import Coverage.Syntax.Dialect

/-!
Where a statement may end without a semicolon: at the end of the text, before a closing brace, and at
the end of a line unless the next line goes on with the expression. The JavaScript rule looks through
comments on the line and the TypeScript rule does not.
-/
namespace Coverage.Syntax.Semicolon

def isSpace (x : Char) : Bool := x == ' ' || (0x9 ≤ x.toNat && x.toNat ≤ 0xd)

def isSeparator (x : Char) : Bool := x.toNat == 0x2028 || x.toNat == 0x2029

/-- What comments on the way say: that no statement ends here, nothing, or that a line did end. -/
inductive Gap where
  | refused
  | open
  | ended
  deriving DecidableEq

/-- The text behind a block comment, and whether it held a line end. -/
def closeBlock (newline : Bool) : Text → Bool × Text
  | [] => (newline, [])
  | '*' :: '/' :: r => (newline, r)
  | x :: r => closeBlock (newline || x == '\n' || isSeparator x) r

/-- The text behind spaces and comments. A block comment closes the gap unless `all` is wanted or
another comment follows at once. -/
def gap (all : Bool) : Nat → Bool → Text → Gap × Text
  | 0, _, t => (.ended, t)
  | n + 1, newline, t =>
    match t.dropWhile isSpace with
    | '/' :: '/' :: r => gap all n newline (r.dropWhile fun x => !(x == '\n' || isSeparator x))
    | '/' :: '*' :: r =>
      let (newline, r) := closeBlock newline r
      if all || r.head? == some '/' then gap all n newline r
      else (if newline then .ended else .open, r)
    | '/' :: r => (.refused, r)
    | r => (.ended, r)

/-- Whether a word does not go on behind the given letters. -/
def standsAlone (w : List Char) (t : Text) : Bool :=
  w.isPrefixOf t && !((t.drop w.length).head?.map Char.isAlpha).getD false

/-- The next line starts with an operator that is a word. -/
def startsWordOperator (t : Text) : Bool :=
  standsAlone "in".toList t || standsAlone "instanceof".toList t

def doubled (x : Char) (r : Text) : Bool := r.head? == some x

/-- Whether a statement ends before a line that starts like this. -/
def beforeLine (typed operand : Bool) (t : Text) : Bool :=
  match t with
  | [] => true
  | x :: r =>
    if "`,:;*%><=?^|&/".toList.contains x then false
    else if x == '(' || x == '[' then typed && !operand
    else if x == '.' then !typed && ((r.head?.map Char.isDigit).getD false)
    else if x == '+' || x == '-' then doubled x r
    else if x == '!' then r.head? != some '='
    else !startsWordOperator t

/-- From behind the end of a line; the fuel bounds the comments to come. -/
def behindLine (typed operand : Bool) (fuel : Nat) (t : Text) : Bool :=
  match gap true fuel false t with
  | (.refused, _) => false
  | (_, r) => beforeLine typed operand r

/-- `operand` says that an operator could stand here. -/
def untyped (operand : Bool) : Nat → Text → Bool
  | 0, _ => false
  | n + 1, t =>
    match t with
    | [] => true
    | '/' :: _ =>
      match gap false n false t with
      | (.refused, _) => false
      | (g, r) =>
        if g == .ended && !operand && r.head? != some ',' && r.head? != some '=' then true
        else
          match r with
          | [] | '/' :: _ => false
          | _ => untyped operand n r
    | x :: r =>
      if x == '\x7d' then true
      else if x == '\n' || isSeparator x then behindLine false operand n r
      else if isSpace x then untyped operand n r
      else false

def typed (operand : Bool) (fuel : Nat) : Text → Bool
  | [] => true
  | x :: r =>
    if x == '\x7d' then if (r.dropWhile isSpace).head? == some ':' then operand else true
    else if x == '\n' then behindLine true operand fuel r
    else if isSpace x then typed operand fuel r
    else false

/-- Whether a statement may end right here without a semicolon; the fuel is at least the number of
characters. -/
def holds (d : Dialect) (operand : Bool) (fuel : Nat) (t : Text) : Bool :=
  if d.isTyped then typed operand fuel t else untyped operand fuel t

end Coverage.Syntax.Semicolon

import Coverage.Text.Bytes

/-!
A place in a text that is being parsed: the bytes before it and the characters behind it. Between two
lexemes stand blanks and comments.
-/
namespace Coverage.Syntax

structure Cursor where
  offset : Nat
  rest : Text

namespace Cursor

def start (t : Text) : Cursor := ⟨0, t⟩

/-- The cursor behind the first `n` characters. -/
def skip : Nat → Cursor → Cursor
  | 0, c => c
  | _, ⟨o, []⟩ => ⟨o, []⟩
  | n + 1, ⟨o, x :: r⟩ => skip n ⟨o + x.utf8Size, r⟩

def skipWhileFrom (p : Char → Bool) (o : Nat) : Text → Cursor
  | [] => ⟨o, []⟩
  | x :: r => if p x then skipWhileFrom p (o + x.utf8Size) r else ⟨o, x :: r⟩

def skipWhile (p : Char → Bool) (c : Cursor) : Cursor := skipWhileFrom p c.offset c.rest

/-- The characters that may stand between lexemes: blanks, separators and marks without width. -/
def isGap (x : Char) : Bool :=
  let n := x.toNat
  (0x9 ≤ n && n ≤ 0xd) || n == 0x20 || n == 0xa0 || n == 0x1680 || (0x2000 ≤ n && n ≤ 0x200b) ||
  n == 0x2028 || n == 0x2029 || n == 0x202f || n == 0x205f || n == 0x2060 || n == 0x3000 ||
  n == 0xfeff

def skipGap (c : Cursor) : Cursor := c.skipWhile isGap

def endsLine (x : Char) : Bool :=
  x == '\n' || x == '\r' || x.toNat == 0x2028 || x.toNat == 0x2029

/-- The place behind the next `*/`. -/
def closeBlock? (o : Nat) : Text → Option Cursor
  | [] => none
  | ['*'] => none
  | '*' :: '/' :: r => some ⟨o + 2, r⟩
  | x :: r => closeBlock? (o + x.utf8Size) r

/-- The place behind a comment that starts here. -/
def comment? (c : Cursor) : Option Cursor :=
  match c.rest with
  | '/' :: '/' :: r => some (skipWhile (!endsLine ·) ⟨c.offset + 2, r⟩)
  | '/' :: '*' :: r => closeBlock? (c.offset + 2) r
  | _ => none

/-- Where a walk over gaps and comments stands; a block comment remembers where it opened. -/
inductive Walk where
  | gap
  | line
  | block (opened : Cursor)

def skipTriviaFrom : Walk → Nat → Text → Cursor
  | .gap, o, [] => ⟨o, []⟩
  | .gap, o, '/' :: '/' :: r => skipTriviaFrom .line (o + 2) r
  | .gap, o, '/' :: '*' :: r => skipTriviaFrom (.block ⟨o, '/' :: '*' :: r⟩) (o + 2) r
  | .gap, o, x :: r => if isGap x then skipTriviaFrom .gap (o + x.utf8Size) r else ⟨o, x :: r⟩
  | .line, o, [] => ⟨o, []⟩
  | .line, o, x :: r => skipTriviaFrom (if endsLine x then .gap else .line) (o + x.utf8Size) r
  | .block opened, _, [] => opened
  | .block _, o, '*' :: '/' :: r => skipTriviaFrom .gap (o + 2) r
  | .block opened, o, x :: r => skipTriviaFrom (.block opened) (o + x.utf8Size) r

/-- The place of the next lexeme. -/
def skipTrivia (c : Cursor) : Cursor := skipTriviaFrom .gap c.offset c.rest

end Cursor
end Coverage.Syntax

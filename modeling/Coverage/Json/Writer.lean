import Coverage.Json.Basic

/-!
Writing JSON text, on one line or with every member and element on a line of its own, two spaces
deeper than what holds it.
-/
namespace Coverage.Json

def hexDigit (n : Nat) : Char := (Nat.digitChar n)

/-- Quotes, backslashes and control characters are escaped, and nothing else. -/
def escape (c : Char) : List Char :=
  if c = '"' then ['\\', '"']
  else if c = '\\' then ['\\', '\\']
  else if c = '\n' then ['\\', 'n']
  else if c = '\r' then ['\\', 'r']
  else if c = '\t' then ['\\', 't']
  else if c = '\x08' then ['\\', 'b']
  else if c = '\x0c' then ['\\', 'f']
  else if c.toNat < 0x20 then
    ['\\', 'u', '0', '0', hexDigit (c.toNat / 16), hexDigit (c.toNat % 16)]
  else [c]

def quoted (s : String) : String := String.ofList ('"' :: s.toList.flatMap escape ++ ['"'])

def Number.text : Number → String
  | natural n => toString n
  | negative n => "-" ++ toString n
  | real minus x => (if minus then "-" else "") ++ x.text

def newline (n : Nat) : String := String.ofList ('\n' :: List.replicate (2 * n) ' ')

mutual
def pretty (n : Nat) : Json → String
  | null => "null"
  | bool b => if b then "true" else "false"
  | number x => x.text
  | string s => quoted s
  | array [] => "[]"
  | array (x :: r) =>
    "[" ++ newline (n + 1) ++ pretty (n + 1) x ++ prettyElements (n + 1) r ++ newline n ++ "]"
  | object [] => "\x7b\x7d"
  | object ((k, x) :: r) =>
    "\x7b" ++ newline (n + 1) ++ quoted k ++ ": " ++ pretty (n + 1) x ++ prettyMembers (n + 1) r ++
      newline n ++ "\x7d"
  | void => "null"

def prettyElements (n : Nat) : List Json → String
  | [] => ""
  | x :: r => "," ++ newline n ++ pretty n x ++ prettyElements n r

def prettyMembers (n : Nat) : List (String × Json) → String
  | [] => ""
  | (k, x) :: r => "," ++ newline n ++ quoted k ++ ": " ++ pretty n x ++ prettyMembers n r
end

mutual
def compact : Json → String
  | null => "null"
  | bool b => if b then "true" else "false"
  | number x => x.text
  | string s => quoted s
  | array [] => "[]"
  | array (x :: r) => "[" ++ compact x ++ compactElements r ++ "]"
  | object [] => "\x7b\x7d"
  | object ((k, x) :: r) => "\x7b" ++ quoted k ++ ":" ++ compact x ++ compactMembers r ++ "\x7d"
  | void => "null"

def compactElements : List Json → String
  | [] => ""
  | x :: r => "," ++ compact x ++ compactElements r

def compactMembers : List (String × Json) → String
  | [] => ""
  | (k, x) :: r => "," ++ quoted k ++ ":" ++ compact x ++ compactMembers r
end

/-- A document as it is saved. -/
def text (j : Json) : String := j.pretty 0

end Coverage.Json

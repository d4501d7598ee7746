import Coverage.Json.Basic
import Coverage.Text.Blank

/-!
Reading JSON text. The grammar is checked first and values are made as it goes; blanks are the space,
the tab and the two line ends. Digits beyond a 64-bit whole number only move the decimal point.
-/
namespace Coverage.Json
open Text (dropWord?)

def isBlank (c : Char) : Bool := c == ' ' || c == '\t' || c == '\n' || c == '\r'

def skipBlanks (t : Text) : Text := t.dropWhile isBlank

def digitValue (c : Char) : Nat := c.toNat - '0'.toNat

def hexValue? (c : Char) : Option Nat :=
  if c.isDigit then some (digitValue c)
  else if 'a' ≤ c ∧ c ≤ 'f' then some (c.toNat - 'a'.toNat + 10)
  else if 'A' ≤ c ∧ c ≤ 'F' then some (c.toNat - 'A'.toNat + 10)
  else none

namespace Number

/-- A significand below `2 ^ 64` and a power of ten. -/
structure Decimal where
  significand : Nat
  exponent : Int

def limit : Nat := 0x10000000000000000

/-- A digit before the point; once one does not fit the later ones are dropped as well. -/
def wholeDigit (d : Decimal) (c : Char) : Decimal :=
  let next := d.significand * 10 + digitValue c
  if d.exponent = 0 ∧ next < limit then { d with significand := next }
  else { d with exponent := d.exponent + 1 }

/-- Digits behind the point, until one does not fit. -/
def fraction (d : Decimal) : List Char → Decimal
  | [] => d
  | c :: r =>
    let next := d.significand * 10 + digitValue c
    if next < limit then fraction ⟨next, d.exponent - 1⟩ r else d

def powerOfTen (n : Nat) : Binary64 := .ofNat (Nat.pow 10 n)

/-- Powers of ten up to the 308th are applied in one rounding step, smaller ones in several. -/
def scale (x : Binary64) (e : Int) : Option Binary64 :=
  if 308 < e then if x.isZero then some x else none
  else if 0 ≤ e then
    let y := x.mul (powerOfTen e.toNat)
    if y.isFinite then some y else none
  else if -308 ≤ e then some (x.div (powerOfTen (-e).toNat))
  else if x.isZero then some x
  else scale (x.div (powerOfTen 308)) (e + 308)
termination_by (-e).toNat

def real? (minus : Bool) (d : Decimal) : Option Number :=
  (scale (.ofNat d.significand) d.exponent).map (.real minus)

def natOfDigits (l : List Char) : Nat := l.foldl (fun n c => n * 10 + digitValue c) 0

/-- A whole number without exponent; zero with a sign is no whole number. -/
def whole? (minus : Bool) (digits : List Char) : Option Number :=
  let n := natOfDigits digits
  if minus then
    if 0 < n ∧ n ≤ 0x8000000000000000 then some (.negative n)
    else real? true (digits.foldl wholeDigit ⟨0, 0⟩)
  else if n < limit then some (.natural n)
  else real? false (digits.foldl wholeDigit ⟨0, 0⟩)

/-- The sign and the digits behind an exponent mark. -/
def exponent? : Text → Option (Int × Text)
  | t =>
    let (minus, t) := match t with
      | '-' :: r => (true, r)
      | '+' :: r => (false, r)
      | t => (false, t)
    let digits := t.takeWhile Char.isDigit
    if digits.isEmpty then none
    else
      let n : Int := natOfDigits digits
      some (if minus then -n else n, t.dropWhile Char.isDigit)

/-- Outer `none`: not a number; inner `none`: a number out of range. -/
def read? (t : Text) : Option (Option Number × Text) := do
  let (minus, t) := match t with
    | '-' :: r => (true, r)
    | t => (false, t)
  let digits := t.takeWhile Char.isDigit
  let rest := t.dropWhile Char.isDigit
  if digits.isEmpty || (digits.head? == some '0' && 1 < digits.length) then none
  let (point, decimals, rest) := match rest with
    | '.' :: r => (true, r.takeWhile Char.isDigit, r.dropWhile Char.isDigit)
    | r => (false, [], r)
  if point && decimals.isEmpty then none
  let decimal := fraction (digits.foldl wholeDigit ⟨0, 0⟩) decimals
  match rest with
  | c :: r =>
    if c == 'e' || c == 'E' then
      let (e, rest) ← exponent? r
      return (real? minus { decimal with exponent := decimal.exponent + e }, rest)
    else return (if point then real? minus decimal else whole? minus digits, rest)
  | [] => return (if point then real? minus decimal else whole? minus digits, [])

end Number

/-- A string so far: its characters backwards, a first half of a surrogate pair that waits for its
second, and whether every half found one. -/
structure Scan where
  reversed : List Char
  lead : Option Nat
  sound : Bool

namespace Scan

def start : Scan := ⟨[], none, true⟩

def push (s : Scan) (c : Char) : Scan :=
  match s.lead with
  | some _ => ⟨[], none, false⟩
  | none => { s with reversed := c :: s.reversed }

def pushUnit (s : Scan) (n : Nat) : Scan :=
  match s.lead with
  | some hi =>
    if 0xdc00 ≤ n ∧ n ≤ 0xdfff then
      { s with
        reversed := Char.ofNat (0x10000 + (hi - 0xd800) * 0x400 + (n - 0xdc00)) :: s.reversed
        lead := none }
    else ⟨[], none, false⟩
  | none =>
    if 0xd800 ≤ n ∧ n ≤ 0xdbff then { s with lead := some n }
    else if 0xdc00 ≤ n ∧ n ≤ 0xdfff then ⟨[], none, false⟩
    else s.push (Char.ofNat n)

def result (s : Scan) : Option String :=
  if s.sound && s.lead.isNone then some (String.ofList s.reversed.reverse) else none

end Scan

def simpleEscape? : Char → Option Char
  | '"' => some '"'
  | '\\' => some '\\'
  | '/' => some '/'
  | 'b' => some '\x08'
  | 'f' => some '\x0c'
  | 'n' => some '\n'
  | 'r' => some '\r'
  | 't' => some '\t'
  | _ => none

def unit? (a b c d : Char) : Option Nat := do
  return (((← hexValue? a) * 16 + (← hexValue? b)) * 16 + (← hexValue? c)) * 16 + (← hexValue? d)

/-- The text behind an opening quote. Outer `none`: no string; inner `none`: a string with half of a
surrogate pair. -/
def scanString (s : Scan) : Text → Option (Option String × Text)
  | [] => none
  | '"' :: r => some (s.result, r)
  | '\\' :: 'u' :: a :: b :: c :: d :: r => do scanString (s.pushUnit (← unit? a b c d)) r
  | '\\' :: c :: r => do scanString (s.push (← simpleEscape? c)) r
  | c :: r => if c.toNat < 0x20 || c == '\\' then none else scanString (s.push c) r

mutual
/-- One value; the fuel bounds the number of values and commas still to come. -/
def readValue : Nat → Text → Option (Json × Text)
  | 0, _ => none
  | n + 1, t =>
    match skipBlanks t with
    | '[' :: r =>
      match skipBlanks r with
      | ']' :: r => some (array [], r)
      | r => readElements n [] r
    | '\x7b' :: r =>
      match skipBlanks r with
      | '\x7d' :: r => some (object [], r)
      | r => readMembers n [] true r
    | '"' :: r => do
      let (s, r) ← scanString .start r
      return (s.elim void string, r)
    | 'n' :: r => do return (null, ← dropWord? "ull".toList r)
    | 't' :: r => do return (bool true, ← dropWord? "rue".toList r)
    | 'f' :: r => do return (bool false, ← dropWord? "alse".toList r)
    | r => do
      let (x, r) ← Number.read? r
      return (x.elim void number, r)

def readElements : Nat → List Json → Text → Option (Json × Text)
  | 0, _, _ => none
  | n + 1, acc, t => do
    let (x, r) ← readValue n t
    match skipBlanks r with
    | ']' :: r => return (array (x :: acc).reverse, r)
    | ',' :: r => readElements n (x :: acc) r
    | _ => none

/-- An object with a name that is no string is void as a whole. -/
def readMembers : Nat → List (String × Json) → Bool → Text → Option (Json × Text)
  | 0, _, _, _ => none
  | n + 1, acc, named, t =>
    match skipBlanks t with
    | '"' :: r => do
      let (k, r) ← scanString .start r
      match skipBlanks r with
      | ':' :: r =>
        let (x, r) ← readValue n r
        let acc := (k.getD "", x) :: acc
        let named := named && k.isSome
        match skipBlanks r with
        | '\x7d' :: r => return (if named then object acc.reverse else void, r)
        | ',' :: r => readMembers n acc named r
        | _ => none
      | _ => none
    | _ => none
end

/-- A document with nothing but blanks around it. -/
def document? (t : String) : Option Json := do
  let l := t.toList
  let (j, r) ← readValue (2 * l.length + 2) l
  if (skipBlanks r).isEmpty then some j else none

def ofText? (t : String) : Option Json := (document? t).bind value?

end Coverage.Json

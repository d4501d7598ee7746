/-!
Non-negative numbers with a 53-bit significand and a power of two, as quotients are rounded to them:
to the nearest, a tie to the even significand. Their texts are the fewest decimal digits that round
back and the value with one decimal.
-/
namespace Coverage

/-- The number `significand * 2 ^ exponent`. -/
structure Binary64 where
  significand : Nat
  exponent : Int
  deriving DecidableEq, Inhabited

/-- The nearest whole number; a tie goes to the even one. -/
def roundDiv (num den : Nat) : Nat :=
  let q := num / den
  let twice := 2 * (num % den)
  if twice < den then q
  else if den < twice then q + 1
  else if q % 2 = 0 then q else q + 1

namespace Binary64

def zero : Binary64 := ⟨0, -1074⟩

/-- The greatest `e` with `2 ^ e * den ≤ num`. -/
def floorLog (num den : Nat) : Int :=
  let e : Int := (num.log2 : Int) - den.log2
  if Nat.pow 2 e.toNat * den ≤ num * Nat.pow 2 (-e).toNat then e else e - 1

/-- The quotient rounded to a number; its exponent has no upper limit. -/
def ofRatio (num den : Nat) : Binary64 :=
  if num = 0 then zero
  else
    let e := max (floorLog num den - 52) (-1074)
    let m := roundDiv (num * Nat.pow 2 (-e).toNat) (den * Nat.pow 2 e.toNat)
    if m = Nat.pow 2 53 then ⟨Nat.pow 2 52, e + 1⟩ else ⟨m, e⟩

def ofNat (n : Nat) : Binary64 := ofRatio n 1

def isZero (x : Binary64) : Bool := x.significand == 0
def isFinite (x : Binary64) : Bool := decide (x.exponent ≤ 971)

/-- The value is `x.num / x.den`. -/
def num (x : Binary64) : Nat := x.significand * Nat.pow 2 x.exponent.toNat

def den (x : Binary64) : Nat := Nat.pow 2 (-x.exponent).toNat

def mul (x y : Binary64) : Binary64 := ofRatio (x.num * y.num) (x.den * y.den)
def div (x y : Binary64) : Binary64 := ofRatio (x.num * y.den) (x.den * y.num)

/-- The interchange encoding: eleven bits of exponent, then the significand without its top bit. -/
def bits (x : Binary64) : Nat :=
  if x.significand < Nat.pow 2 52 then x.significand
  else (x.exponent + 1075).toNat * Nat.pow 2 52 + (x.significand - Nat.pow 2 52)

/-- One decimal; a tie goes to the even digit. -/
def oneDecimal (x : Binary64) : String :=
  let tenths := roundDiv (10 * x.num) x.den
  s!"{tenths / 10}.{tenths % 10}"

/-- Whether `c * 10 ^ k` lies among the reals that round to `x`, ends included for even significands. -/
def isNear (x : Binary64) (c : Nat) (k : Int) : Bool :=
  let below := if x.significand = Nat.pow 2 52 ∧ -1074 < x.exponent then 1 else 2
  let value := 4 * c * Nat.pow 10 k.toNat * x.den
  let unit := Nat.pow 2 x.exponent.toNat * Nat.pow 10 (-k).toNat
  let low := (4 * x.significand - below) * unit
  let high := (4 * x.significand + 2) * unit
  if x.significand % 2 = 0 then low ≤ value && value ≤ high else low < value && value < high

/-- On the grid of step `10 ^ k` the points next to `x`, the nearer first and of a tie the even. -/
def gridPoints (x : Binary64) (k : Int) : List Nat :=
  let n := x.num * Nat.pow 10 (-k).toNat
  let d := x.den * Nat.pow 10 k.toNat
  let near := roundDiv n d
  let other := if near * d ≤ n then near + 1 else near - 1
  [near, other]

/-- The exponent `p` with `10 ^ (p - 1) ≤ x < 10 ^ p`, searched upwards. -/
def decimalPoint (x : Binary64) : Int :=
  let below (i : Nat) : Bool :=
    let e : Int := (i : Int) - 324
    decide (x.num * Nat.pow 10 (-e).toNat < x.den * Nat.pow 10 e.toNat)
  let p : Nat := ((List.range 640).find? below).getD 0
  (p : Int) - 324

/-- The fewest digits `c` and the exponent `k` such that `c * 10 ^ k` rounds to `x`. -/
def shortest (x : Binary64) : Nat × Int :=
  let p := x.decimalPoint
  let hit (i : Nat) : Option (Nat × Int) :=
    let k := p - (i + 1 : Nat)
    ((x.gridPoints k).find? fun c => x.isNear c k).map fun c =>
      if c = Nat.pow 10 (i + 1) then (1, p) else (c, k)
  ((List.range 18).findSome? hit).getD (0, 0)

/-- Positional with at least one decimal while the point stays within sixteen places to the right
or five to the left of the first digit, and scientific beyond. -/
def text (x : Binary64) : String :=
  if x.isZero then "0.0"
  else
    let (c, k) := x.shortest
    let digits := (toString c).toList
    let n := digits.length
    let point := k + n
    let zeros (i : Int) : List Char := List.replicate i.toNat '0'
    String.ofList <|
      if 0 ≤ k ∧ point ≤ 16 then digits ++ zeros k ++ ['.', '0']
      else if 0 < point ∧ point ≤ 16 then
        digits.take point.toNat ++ '.' :: digits.drop point.toNat
      else if -5 < point ∧ point ≤ 0 then '0' :: '.' :: zeros (-point) ++ digits
      else
        let tail := 'e' :: (toString (point - 1)).toList
        if n = 1 then digits ++ tail else digits.take 1 ++ '.' :: digits.drop 1 ++ tail

end Binary64
end Coverage

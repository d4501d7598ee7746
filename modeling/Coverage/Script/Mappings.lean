import Coverage.Text.Bytes

/-!
The segments of a version 3 source map. Lines of generated code stand between semicolons and the
segments of a line between commas. Each segment holds differences in base 64: the column to the one
before on its line, and, from four fields on, the source to the last one named. Columns and sources
are kept in 64 bits and cut to 32 at the end.
-/
namespace Coverage

structure MappingSegment where
  line : UInt32
  column : UInt32
  source : Option UInt32
  deriving DecidableEq

inductive MappingFault where
  | invalidCharacter (c : Char)
  | overflow
  | truncated (piece : String)
  | negativePosition (piece : String)
  deriving DecidableEq

namespace MappingFault

def message : MappingFault → String
  | invalidCharacter c => s!"invalid base64 character '{c}' in mappings"
  | overflow => "VLQ value overflows"
  | truncated piece => s!"truncated VLQ segment '{piece}'"
  | negativePosition piece => s!"negative position in mapping segment '{piece}'"

end MappingFault

namespace Mappings

def digit? (c : Char) : Option Nat :=
  if 'A' ≤ c ∧ c ≤ 'Z' then some (c.toNat - 'A'.toNat)
  else if 'a' ≤ c ∧ c ≤ 'z' then some (c.toNat - 'a'.toNat + 26)
  else if '0' ≤ c ∧ c ≤ '9' then some (c.toNat - '0'.toNat + 52)
  else if c = '+' then some 62
  else if c = '/' then some 63
  else none

/-- A number in 64 bits with sign. -/
def word (n : Int) : Int := n.bmod 0x10000000000000000

/-- The lowest bit of the word is the sign, the other bits the amount. -/
def fieldOf (n : Nat) : Int :=
  let w := word n
  if n % 2 = 1 then -(w / 2) else w / 2

/-- Bits beyond this place cannot start another digit. -/
def lastShift : Nat := 60

/-- The fields of a segment; `value` and `shift` are what the digits of an open field came to. -/
def fieldsFrom (value shift : Nat) : Text → Except MappingFault (List Int × Bool)
  | [] => .ok ([], shift == 0)
  | c :: r =>
    match digit? c with
    | none => .error (.invalidCharacter (Char.ofNat (Text.leadByte c)))
    | some d =>
      let value := value + d % 32 * Nat.pow 2 shift
      if 32 ≤ d then
        if lastShift < shift + 5 then .error .overflow else fieldsFrom value (shift + 5) r
      else (fieldsFrom 0 0 r).map fun (fields, closed) => (fieldOf value :: fields, closed)

def fields (piece : Text) : Except MappingFault (List Int) :=
  match fieldsFrom 0 0 piece with
  | .error e => .error e
  | .ok (fields, closed) => if closed then .ok fields else .error (.truncated (String.ofList piece))

/-- The column on the current line and the last source. -/
structure Cursor where
  column : Int
  source : Int

def cut (n : Int) : UInt32 := UInt32.ofNat (n % 0x100000000).toNat

/-- A segment and where the one behind it counts from. The sums of columns and those of sources wrap in 64
bits, as in a release build; a debug build panics where a sum leaves them, as that of the columns does on
`+///////////H,+///////////H,+///////////H`. -/
def segment (line : Nat) (piece : Text) (c : Cursor) :
    Except MappingFault (MappingSegment × Cursor) := do
  let fields ← fields piece
  let column := word (c.column + fields.headD 0)
  let mapped := decide (4 ≤ fields.length)
  let source := if mapped then word (c.source + fields.getD 1 0) else c.source
  if column < 0 || (mapped && decide (source < 0)) then
    throw (.negativePosition (String.ofList piece))
  return (⟨UInt32.ofNat line, cut column, if mapped then some (cut source) else none⟩,
    ⟨column, source⟩)

def lineSegments (line : Nat) : List Text → Cursor →
    Except MappingFault (List MappingSegment × Cursor)
  | [], c => .ok ([], c)
  | piece :: r, c => do
    let (s, c) ← segment line piece c
    let (rest, c) ← lineSegments line r c
    return (s :: rest, c)

def linesSegments : Nat → List Text → Cursor → Except MappingFault (List MappingSegment)
  | _, [], _ => .ok []
  | n, line :: r, c => do
    let pieces := (Text.splitAt ',' line).filter (!·.isEmpty)
    let (segments, c) ← lineSegments n pieces { c with column := 0 }
    return segments ++ (← linesSegments (n + 1) r c)

/-- The segments of all lines in order; empty pieces are skipped. -/
def decode (mappings : String) : Except MappingFault (List MappingSegment) :=
  linesSegments 0 (Text.splitAt ';' mappings.toList) ⟨0, 0⟩

end Mappings
end Coverage

import Coverage.Binary64
import Coverage.SortedMap

/-!
JSON documents. A document keeps the members of an object as they were written; `Json.canonical`
orders them and lets the last of equal names count. Text that follows the grammar may still stand for
no value (a number out of range, half of a surrogate pair): such a part is `void`, and only a reader
that skips it accepts the document.
-/
namespace Coverage

inductive Json.Number where
  | natural (n : Nat)
  | negative (n : Nat)
  | real (minus : Bool) (x : Binary64)
  deriving DecidableEq

inductive Json where
  | null
  | bool (b : Bool)
  | number (n : Json.Number)
  | string (s : String)
  | array (l : List Json)
  | object (l : List (String × Json))
  | void

namespace Json

instance : Inhabited Json := ⟨null⟩

def ofNat (n : Nat) : Json := number (.natural n)

mutual
/-- How deep arrays and objects stand inside each other. -/
def depth : Json → Nat
  | array l => depthList l + 1
  | object l => depthMembers l + 1
  | _ => 0

def depthList : List Json → Nat
  | [] => 0
  | x :: r => max x.depth (depthList r)

def depthMembers : List (String × Json) → Nat
  | [] => 0
  | (_, x) :: r => max x.depth (depthMembers r)
end

mutual
/-- No part is void. -/
def isSound : Json → Bool
  | array l => isSoundList l
  | object l => isSoundMembers l
  | void => false
  | _ => true

def isSoundList : List Json → Bool
  | [] => true
  | x :: r => x.isSound && isSoundList r

def isSoundMembers : List (String × Json) → Bool
  | [] => true
  | (_, x) :: r => x.isSound && isSoundMembers r
end

/-- Of members with one name the last stays, and names ascend. -/
def collapse {α : Type} (l : List (String × α)) : List (String × α) := (SortedMap.ofList l).entries

mutual
/-- Every object with distinct names in ascending order. -/
def canonical : Json → Json
  | array l => array (canonicalList l)
  | object l => object (collapse (canonicalMembers l))
  | j => j

def canonicalList : List Json → List Json
  | [] => []
  | x :: r => x.canonical :: canonicalList r

def canonicalMembers : List (String × Json) → List (String × Json)
  | [] => []
  | (k, x) :: r => (k, x.canonical) :: canonicalMembers r
end

/-- Arrays and objects deeper than this are refused. -/
def depthLimit : Nat := 127

/-- The value of a document none of whose parts may be skipped. -/
def value? (j : Json) : Option Json :=
  if j.isSound && decide (j.depth ≤ depthLimit) then some j.canonical else none

end Json
end Coverage

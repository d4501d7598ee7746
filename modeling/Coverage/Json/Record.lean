import Coverage.Json.Basic

/-!
Reading values of fixed shape from JSON. A record is an object, whose unknown members are ignored, or
the array of its fields in order, whose last fields may be left out.
-/
namespace Coverage.Json
variable {α : Type}

def natBelow? (limit : Nat) : Json → Option Nat
  | number (.natural n) => if n < limit then some n else none
  | _ => none

def uint32? (j : Json) : Option UInt32 := (natBelow? UInt32.size j).map UInt32.ofNat
def uint64? (j : Json) : Option UInt64 := (natBelow? UInt64.size j).map UInt64.ofNat
def nat? (j : Json) : Option Nat := natBelow? UInt64.size j

def string? : Json → Option String
  | string s => some s
  | _ => none

def bool? : Json → Option Bool
  | bool b => some b
  | _ => none

def list? (d : Json → Option α) : Json → Option (List α)
  | array l => l.mapM d
  | _ => none

def nullable? (d : Json → Option α) : Json → Option (Option α)
  | null => some none
  | j => (d j).map some

def members? (d : Json → Option α) : Json → Option (List (String × α))
  | object l => l.mapM fun e => (d e.2).map (e.1, ·)
  | _ => none

/-- What an object has under one of several names; more than one member is refused. -/
def member? (names : List String) (l : List (String × Json)) : Option (Option Json) :=
  match l.filter fun e => names.contains e.1 with
  | [] => some none
  | [e] => some (some e.2)
  | _ => none

/-- The fields of a record, each known by one or several names. -/
def fields? (names : List (List String)) : Json → Option (List (Option Json))
  | object l => names.mapM (member? · l)
  | array l =>
    if l.length ≤ names.length then
      some (l.map some ++ List.replicate (names.length - l.length) none)
    else none
  | _ => none

def required? (d : Json → Option α) (field : Option Json) : Option α := field.bind d

def optional? (d : Json → Option α) (absent : α) : Option Json → Option α
  | none => some absent
  | some j => d j

def ofUInt32 (n : UInt32) : Json := ofNat n.toNat
def ofUInt64 (n : UInt64) : Json := ofNat n.toNat

end Coverage.Json

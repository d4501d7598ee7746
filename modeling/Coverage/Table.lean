import Coverage.SortedMap

/-!
Records of one kind with their hit counts. A table keeps the two apart, so a record may be without
a count and a count without a record; `Table.Aligned` says that neither happens.
-/
namespace Coverage

abbrev Id := UInt32
abbrev Hits := UInt64

/-- A sum that stops at the greatest count. -/
def Hits.add (a b : Hits) : Hits := if a.toNat + b.toNat < UInt64.size then a + b else -1

theorem Hits.toNat_add {a b : Hits} : (a.add b).toNat = min (a.toNat + b.toNat) (UInt64.size - 1) := by
  have ha := UInt64.toNat_lt a
  have hb := UInt64.toNat_lt b
  unfold Hits.add
  split
  · next h =>
    rw [UInt64.toNat_add, Nat.mod_eq_of_lt (by simpa using h), Nat.min_eq_left (by omega)]
  · next h =>
    rw [Nat.min_eq_right (by omega)]
    rfl

structure Table (ρ η : Type) where
  records : SortedMap Id ρ
  hits : SortedMap Id η
  deriving DecidableEq

namespace Table
variable {ρ η : Type}

def empty : Table ρ η := ⟨∅, ∅⟩

instance : Inhabited (Table ρ η) := ⟨empty⟩
instance : EmptyCollection (Table ρ η) := ⟨empty⟩

def size (t : Table ρ η) : Nat := t.records.size
def ids (t : Table ρ η) : List Id := t.records.keys

def Aligned (t : Table ρ η) : Prop := t.records.keys = t.hits.keys

/-- One past the greatest id in use. -/
def nextId (t : Table ρ η) : Id := (t.records.lastKey?.map (· + 1)).getD 0

def add (t : Table ρ η) (r : ρ) (h : η) : Table ρ η :=
  ⟨t.records.insert t.nextId r, t.hits.insert t.nextId h⟩

def addAll (t : Table ρ η) (l : List (ρ × η)) : Table ρ η := l.foldl (fun t e => t.add e.1 e.2) t

def erase (t : Table ρ η) (id : Id) : Table ρ η := ⟨t.records.erase id, t.hits.erase id⟩

/-- Records and counts under the given ids go. -/
def eraseAll (t : Table ρ η) (ids : List Id) : Table ρ η := ids.foldl erase t

def count [Inhabited η] (t : Table ρ η) (id : Id) : η := (t.hits.get? id).getD default

/-- Each record with its id and its count; a missing count is the default one. -/
def rows [Inhabited η] (t : Table ρ η) : List (Id × ρ × η) :=
  t.records.entries.map fun e => (e.1, e.2, t.count e.1)

/-- The ids of the records that a test picks. -/
def idsWhere (t : Table ρ η) (p : ρ → Bool) : List Id :=
  (t.records.entries.filter fun e => p e.2).map (·.1)

/-- The least id whose record has no count. -/
def uncounted? (t : Table ρ η) : Option Id := t.ids.find? fun id => !t.hits.contains id

end Table
end Coverage

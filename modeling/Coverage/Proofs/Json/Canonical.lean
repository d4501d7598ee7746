import Coverage.Json.Reader
import Coverage.Proofs.SortedMap

/-! Documents and the values they stand for. A value is canonical: nothing is void, and no object has two
members of one name. -/
namespace Coverage.Json

/-- An array is reached from its elements and an object from the values of its members. -/
@[elab_as_elim]
theorem inductionOn {P : Json → Prop} (j : Json) (null : P null) (bool : ∀ b, P (bool b))
    (number : ∀ n, P (number n)) (string : ∀ s, P (string s))
    (array : ∀ l, (∀ x ∈ l, P x) → P (array l)) (object : ∀ l, (∀ e ∈ l, P e.2) → P (object l))
    (void : P void) : P j := by
  refine @Json.rec P (fun l => ∀ x ∈ l, P x) (fun l => ∀ e ∈ l, P e.2) (fun e => P e.2)
    null bool number string array object void ?_ ?_ ?_ ?_ ?_ j
  · simp
  · intro x l hx hl y hy
    rcases List.mem_cons.1 hy with rfl | hy
    · exact hx
    · exact hl y hy
  · simp
  · intro e l he hl y hy
    rcases List.mem_cons.1 hy with rfl | hy
    · exact he
    · exact hl y hy
  · intro k x hx
    exact hx

variable {j x : Json} {l : List Json} {o : List (String × Json)} {n : Nat}

section Parts

theorem isSound_array_iff : (array l).isSound = true ↔ ∀ x ∈ l, x.isSound = true := by
  rw [isSound]
  induction l with
  | nil => simp [isSoundList]
  | cons x l ih => simp [isSoundList, ih]

theorem isSound_object_iff : (object o).isSound = true ↔ ∀ e ∈ o, e.2.isSound = true := by
  rw [isSound]
  induction o with
  | nil => simp [isSoundMembers]
  | cons e o ih =>
    obtain ⟨k, x⟩ := e
    simp [isSoundMembers, ih]

theorem depth_array_le_iff : (array l).depth ≤ n + 1 ↔ ∀ x ∈ l, x.depth ≤ n := by
  rw [depth, Nat.add_le_add_iff_right]
  induction l with
  | nil => simp [depthList]
  | cons x l ih => rw [depthList, Nat.max_le, ih, List.forall_mem_cons]

theorem depth_object_le_iff : (object o).depth ≤ n + 1 ↔ ∀ e ∈ o, e.2.depth ≤ n := by
  rw [depth, Nat.add_le_add_iff_right]
  induction o with
  | nil => simp [depthMembers]
  | cons e o ih =>
    obtain ⟨k, x⟩ := e
    rw [depthMembers, Nat.max_le, ih, List.forall_mem_cons]

theorem canonical_array : (array l).canonical = array (l.map canonical) := by
  have h : canonicalList l = l.map canonical := by
    induction l with
    | nil => rfl
    | cons x l ih => rw [canonicalList, ih, List.map_cons]
  rw [canonical, h]

theorem canonical_object :
    (object o).canonical = object (collapse (o.map fun e => (e.1, e.2.canonical))) := by
  have h : canonicalMembers o = o.map fun e => (e.1, e.2.canonical) := by
    induction o with
    | nil => rfl
    | cons e o ih =>
      obtain ⟨k, x⟩ := e
      rw [canonicalMembers, ih, List.map_cons]
  rw [canonical, h]

theorem nodup_collapse {α : Type} (l : List (String × α)) : ((collapse l).map (·.1)).Nodup :=
  SortedMap.nodup_keys _

theorem lookup_collapse {α : Type} {l : List (String × α)} (h : (l.map (·.1)).Nodup) (k : String) :
    SortedMap.lookup k (collapse l) = SortedMap.lookup k l := by
  refine Option.ext fun x => ?_
  rw [SortedMap.lookup_eq_some_iff_of_nodup h]
  exact SortedMap.get?_ofList_eq_some_iff h

/-- Members with distinct names are only put in order. -/
theorem perm_collapse {α : Type} {l : List (String × α)} (h : (l.map (·.1)).Nodup) :
    l.Perm (collapse l) := (SortedMap.perm_entries_iff h).2 rfl

end Parts

section Plain

mutual
/-- No part is void, and every number is natural and in range. -/
def IsPlain : Json → Prop
  | number (.natural n) => n < Number.limit
  | number _ | void => False
  | array l => IsPlainList l
  | object l => IsPlainMembers l
  | _ => True

def IsPlainList : List Json → Prop
  | [] => True
  | x :: r => x.IsPlain ∧ IsPlainList r

def IsPlainMembers : List (String × Json) → Prop
  | [] => True
  | (_, x) :: r => x.IsPlain ∧ IsPlainMembers r
end

theorem isPlain_array_iff : (array l).IsPlain ↔ ∀ x ∈ l, x.IsPlain := by
  rw [IsPlain]
  induction l with
  | nil => simp [IsPlainList]
  | cons x l ih => simp [IsPlainList, ih]

theorem isPlain_object_iff : (object o).IsPlain ↔ ∀ e ∈ o, e.2.IsPlain := by
  rw [IsPlain]
  induction o with
  | nil => simp [IsPlainMembers]
  | cons e o ih =>
    obtain ⟨k, x⟩ := e
    simp [IsPlainMembers, ih]

theorem isSound_of_isPlain (h : j.IsPlain) : j.isSound = true := by
  induction j using inductionOn with
  | null | bool | number | string => rfl
  | array l ih => exact isSound_array_iff.2 fun x hx => ih x hx (isPlain_array_iff.1 h x hx)
  | object l ih => exact isSound_object_iff.2 fun e he => ih e he (isPlain_object_iff.1 h e he)
  | void => exact h.elim

/-- Plain, and no deeper than this. -/
def IsPlainTo (n : Nat) (j : Json) : Prop := j.IsPlain ∧ j.depth ≤ n

theorem IsPlainTo.mono {m : Nat} (h : j.IsPlainTo m) (hmn : m ≤ n) : j.IsPlainTo n :=
  ⟨h.1, Nat.le_trans h.2 hmn⟩

theorem isPlainTo_array_iff : (array l).IsPlainTo (n + 1) ↔ ∀ x ∈ l, x.IsPlainTo n := by
  simp only [IsPlainTo, isPlain_array_iff, depth_array_le_iff, forall_and]

theorem isPlainTo_object_iff : (object o).IsPlainTo (n + 1) ↔ ∀ e ∈ o, e.2.IsPlainTo n := by
  simp only [IsPlainTo, isPlain_object_iff, depth_object_le_iff, forall_and]

theorem isPlainTo_string (s : String) : (string s).IsPlainTo n := by simp [IsPlainTo, IsPlain, depth]

theorem isPlainTo_natural {k : Nat} (h : k < Number.limit) : (ofNat k).IsPlainTo n := by
  simp [IsPlainTo, IsPlain, depth, ofNat, h]

end Plain

section Values

mutual
/-- No part is void, and no object has two members of one name. -/
def IsValue : Json → Prop
  | void => False
  | array l => IsValueList l
  | object l => (l.map (·.1)).Nodup ∧ IsValueMembers l
  | _ => True

def IsValueList : List Json → Prop
  | [] => True
  | x :: r => x.IsValue ∧ IsValueList r

def IsValueMembers : List (String × Json) → Prop
  | [] => True
  | (_, x) :: r => x.IsValue ∧ IsValueMembers r
end

theorem isValue_array_iff : (array l).IsValue ↔ ∀ x ∈ l, x.IsValue := by
  rw [IsValue]
  induction l with
  | nil => simp [IsValueList]
  | cons x l ih => simp [IsValueList, ih]

theorem isValue_object_iff :
    (object o).IsValue ↔ (o.map (·.1)).Nodup ∧ ∀ e ∈ o, e.2.IsValue := by
  have h : ∀ o, IsValueMembers o ↔ ∀ e ∈ o, e.2.IsValue := by
    intro o
    induction o with
    | nil => simp [IsValueMembers]
    | cons e o ih =>
      obtain ⟨k, x⟩ := e
      simp [IsValueMembers, ih]
  rw [IsValue, h]

theorem isValue_canonical (h : j.isSound = true) : j.canonical.IsValue := by
  induction j using inductionOn with
  | null | bool | number | string => simp [canonical, IsValue]
  | array l ih =>
    rw [canonical_array, isValue_array_iff, List.forall_mem_map]
    exact fun x hx => ih x hx (isSound_array_iff.1 h x hx)
  | object l ih =>
    rw [canonical_object, isValue_object_iff]
    refine ⟨nodup_collapse _, fun e he => ?_⟩
    obtain ⟨d, hd, rfl⟩ := List.mem_map.1 (SortedMap.mem_of_mem_ofList he)
    exact ih d hd (isSound_object_iff.1 h d hd)
  | void => simp [isSound] at h

/-- What a text stands for. -/
theorem isValue_of_ofText? {t : String} (h : ofText? t = some j) : j.IsValue := by
  obtain ⟨d, -, hvalue⟩ := Option.bind_eq_some_iff.1 h
  rw [value?] at hvalue
  split at hvalue
  · next hsound =>
    obtain rfl := Option.some.inj hvalue
    exact isValue_canonical (Bool.and_eq_true_iff.1 hsound).1
  · simp at hvalue

end Values
end Coverage.Json

import Coverage.Proofs.Json.Canonical
import Coverage.Proofs.Json.Digits
import Coverage.Proofs.Readers
import Coverage.Proofs.Validity
import Mathlib.Data.List.Nodup

/-! What a document says. Each shape is a relation between a value and what it stands for, and each reader
accepts exactly what stands in its relation. -/
namespace Coverage

namespace Json
variable {α β : Type} {P : Json → α → Prop} {d : Json → Option α} {j : Json} {x : α}
  {names : List String} {name : String} {field : Option Json} {absent : α}

/-- An object, or an array without more elements than there are fields. -/
def IsRecord (names : List String) : Json → Prop
  | object _ => True
  | array l => l.length ≤ names.length
  | _ => False

/-- A field under its name; in an array the fields stand in order. -/
def field? (names : List String) (name : String) : Json → Option Json
  | object l => SortedMap.lookup name l
  | array l => l[names.idxOf name]?
  | _ => none

def Required (P : Json → α → Prop) (field : Option Json) (x : α) : Prop := ∃ j, field = some j ∧ P j x

/-- A field that may be left out. -/
def Optional (P : Json → α → Prop) (absent : α) : Option Json → α → Prop
  | none, x => x = absent
  | some j, x => P j x

def IsUInt32 (j : Json) (n : UInt32) : Prop := j = ofUInt32 n
def IsUInt64 (j : Json) (n : UInt64) : Prop := j = ofUInt64 n
def IsString (j : Json) (s : String) : Prop := j = string s

def IsListOf (P : Json → α → Prop) (j : Json) (l : List α) : Prop :=
  ∃ o, j = array o ∧ List.Forall₂ P o l

/-- The members are the entries, in any order, each under its id in digits. -/
def IsIdMapOf (P : Json → α → Prop) (j : Json) (m : SortedMap Id α) : Prop :=
  ∃ o l, j = object o ∧ l.Perm m.entries ∧
    List.Forall₂ (fun e d => e.1 = toString d.1 ∧ P e.2 d.2) o l

/-- What holds of whatever a value stands for holds of all entries. -/
theorem IsIdMapOf.forall_of_get? {m : SortedMap Id α} {p : α → Prop} (h : IsIdMapOf P j m)
    (hp : ∀ j x, P j x → p x) : ∀ id x, m.get? id = some x → p x := by
  obtain ⟨o, l, -, hperm, hforall⟩ := h
  have hboth := hforall.flip.imp fun r e hre => And.intro (hp e.2 r.2 hre.2) hre
  have hall : ∀ r ∈ l, p r.2 := ((List.forall₂_and_left l o).1 hboth).1
  intro id x hx
  exact hall (id, x) (hperm.mem_iff.2 (SortedMap.get?_eq_some_iff.1 hx))

/-- A reader reads the values that stand in a relation to something, and reads them as that. -/
def Accepts (d : Json → Option α) (P : Json → α → Prop) : Prop :=
  ∀ j, j.IsValue → ∀ x, d j = some x ↔ P j x

section Fields

theorem member?_eq {o : List (String × Json)} (h : (o.map (·.1)).Nodup) (name : String) :
    member? [name] o = some (SortedMap.lookup name o) := by
  have hfilter : (o.filter fun e => [name].contains e.1) =
      ((SortedMap.lookup name o).map (name, ·)).toList := by
    induction o with
    | nil => rfl
    | cons e o ih =>
      obtain ⟨hhead, hrest⟩ := List.nodup_cons.1 h
      rw [List.filter_cons, ih hrest, SortedMap.lookup]
      by_cases he : e.1 = name
      · subst he
        have hnone : SortedMap.lookup e.1 o = none :=
          SortedMap.lookup_eq_none_iff.2 fun a ha hk => hhead (List.mem_map.2 ⟨a, ha, hk⟩)
        simp [hnone]
      · simp [he]
  rw [member?, hfilter]
  cases SortedMap.lookup name o <;> rfl

theorem fields?_eq_some_iff (hnames : names.Nodup) (hj : j.IsValue) {l : List (Option Json)} :
    fields? (names.map ([·])) j = some l ↔ IsRecord names j ∧ l = names.map (field? names · j) := by
  cases j with
  | object o =>
    have hmember : (names.map ([·])).mapM (member? · o) =
        some (names.map (SortedMap.lookup · o)) := by
      induction names with
      | nil => rfl
      | cons name names ih =>
        rw [List.map_cons, List.mapM_cons, member?_eq (isValue_object_iff.1 hj).1,
          ih (List.nodup_cons.1 hnames).2]
        rfl
    simp [fields?, hmember, IsRecord, field?, eq_comm]
  | array o =>
    have hfields (hlen : o.length ≤ names.length) :
        o.map some ++ List.replicate (names.length - o.length) none =
          names.map fun name => o[names.idxOf name]? := by
      apply List.ext_getElem
      · simp
        omega
      · intro i hi hi'
        rw [List.length_map] at hi'
        rw [List.getElem_map, hnames.idxOf_getElem i hi']
        by_cases h : i < o.length
        · rw [List.getElem_append_left (by simpa using h), List.getElem_map, List.getElem?_eq_getElem h]
        · rw [List.getElem_append_right (by simpa using h), List.getElem_replicate,
            List.getElem?_eq_none (by omega)]
    rw [fields?, List.length_map]
    split
    · next hlen => simp [hfields hlen, IsRecord, field?, hlen, eq_comm]
    · next hlen => simp [IsRecord, hlen]
  | null | bool | number | string | void => simp [fields?, IsRecord]

/-- A reader that goes on with the fields of a record. -/
theorem fields?_bind_eq_some_iff (names : List String) (hnames : names.Nodup) (hj : j.IsValue)
    {k : List (Option Json) → Option α} : (fields? (names.map ([·])) j).bind k = some x ↔
      IsRecord names j ∧ k (names.map (field? names · j)) = some x := by
  simp only [Option.bind_eq_some_iff, fields?_eq_some_iff hnames hj]
  constructor
  · rintro ⟨l, ⟨hrecord, rfl⟩, hk⟩
    exact ⟨hrecord, hk⟩
  · rintro ⟨hrecord, hk⟩
    exact ⟨_, ⟨hrecord, rfl⟩, hk⟩

theorem isValue_of_field? (hj : j.IsValue) : ∀ x ∈ field? names name j, x.IsValue := by
  intro x hx
  cases j with
  | object o => exact (isValue_object_iff.1 hj).2 _ (SortedMap.mem_of_lookup hx)
  | array o => exact isValue_array_iff.1 hj x (List.mem_of_getElem? hx)
  | null | bool | number | string | void => simp [field?] at hx

theorem Accepts.required (h : Accepts d P) (hfield : ∀ j ∈ field, j.IsValue) :
    required? d field = some x ↔ Required P field x := by
  rw [required?, Option.bind_eq_some_iff]
  exact exists_congr fun j => and_congr_right fun hj => h j (hfield j hj) x

theorem Accepts.optional (h : Accepts d P) (hfield : ∀ j ∈ field, j.IsValue) :
    optional? d absent field = some x ↔ Optional P absent field x := by
  cases field with
  | none => rw [optional?, Optional, Option.some.injEq, eq_comm]
  | some j => exact h j (hfield j rfl) x

end Fields

section Parts

theorem natBelow?_eq_some_iff {limit n : Nat} :
    natBelow? limit j = some n ↔ j = ofNat n ∧ n < limit := by
  constructor
  · intro h
    cases j with
    | number k =>
      cases k with
      | natural k =>
        rw [natBelow?] at h
        split at h
        · next hk =>
          obtain rfl := Option.some.inj h
          exact ⟨rfl, hk⟩
        · simp at h
      | negative | real => simp [natBelow?] at h
    | null | bool | string | array | object | void => simp [natBelow?] at h
  · rintro ⟨rfl, hn⟩
    simp [natBelow?, ofNat, hn]

theorem accepts_uint32 : Accepts uint32? IsUInt32 := by
  intro j _ n
  simp only [uint32?, Option.map_eq_some_iff, natBelow?_eq_some_iff, IsUInt32, ofUInt32]
  constructor
  · rintro ⟨k, ⟨rfl, hk⟩, rfl⟩
    rw [UInt32.toNat_ofNat_of_lt' hk]
  · rintro rfl
    exact ⟨n.toNat, ⟨rfl, n.toNat_lt⟩, UInt32.ofNat_toNat⟩

theorem accepts_uint64 : Accepts uint64? IsUInt64 := by
  intro j _ n
  simp only [uint64?, Option.map_eq_some_iff, natBelow?_eq_some_iff, IsUInt64, ofUInt64]
  constructor
  · rintro ⟨k, ⟨rfl, hk⟩, rfl⟩
    rw [UInt64.toNat_ofNat_of_lt' hk]
  · rintro rfl
    exact ⟨n.toNat, ⟨rfl, n.toNat_lt⟩, UInt64.ofNat_toNat⟩

theorem accepts_string : Accepts string? IsString := by
  intro j _ s
  cases j <;> simp [string?, IsString]

theorem accepts_list (h : Accepts d P) : Accepts (list? d) (IsListOf P) := by
  intro j hj l
  cases j with
  | array o =>
    simp only [list?, mapM_eq_some_iff, IsListOf, array.injEq, exists_eq_left']
    exact forall₂_congr_of_mem fun x hx => h x (isValue_array_iff.1 hj x hx)
  | null | bool | number | string | object | void => simp [list?, IsListOf]

/-- Names that differ stand for ids that differ. -/
theorem nodup_ids_of_names {o : List (String × Json)} {l : List (Id × α)} (ho : (o.map (·.1)).Nodup)
    (hl : List.Forall₂ (fun e d => e.1 = toString d.1 ∧ P e.2 d.2) o l) : (l.map (·.1)).Nodup := by
  have hnames : o.map (·.1) = (l.map (·.1)).map toString := by
    rw [List.map_map, ← List.forall₂_eq_eq_eq, List.forall₂_map_left_iff, List.forall₂_map_right_iff]
    exact hl.imp fun _ _ h => h.1
  rw [hnames] at ho
  exact ho.of_map _

theorem accepts_idMap (h : Accepts d P) : Accepts (SortedMap.ofJson? d) (IsIdMapOf P) := by
  intro j hj m
  cases j with
  | object o =>
    obtain ⟨hnames, hparts⟩ := isValue_object_iff.1 hj
    have hentry : ∀ e ∈ o, ∀ r : Id × α,
        (((d e.2).map (e.1, ·)).bind fun e => (idOfName? e.1).map (·, e.2)) = some r ↔
          e.1 = toString r.1 ∧ P e.2 r.2 := by
      intro e he r
      rw [← idOfName?_eq_some_iff, ← h e.2 (hparts e he) r.2]
      cases hx : d e.2 with
      | none => simp
      | some x => cases hid : idOfName? e.1 <;> simp [hid, Prod.ext_iff]
    calc SortedMap.ofJson? d (object o) = some m
      _ ↔ ∃ l, List.Forall₂ (fun e r => e.1 = toString r.1 ∧ P e.2 r.2) o l ∧ m = .ofList l := by
        simp only [SortedMap.ofJson?, members?, Option.bind_eq_bind, Option.pure_def]
        rw [← Option.bind_assoc, mapM_bind_mapM, Option.bind_eq_some_iff]
        simp only [mapM_eq_some_iff, forall₂_congr_of_mem hentry, Option.some.injEq, eq_comm (b := m)]
      _ ↔ IsIdMapOf P (object o) m := by
        simp only [IsIdMapOf, object.injEq, exists_and_left, exists_eq_left']
        refine exists_congr fun l => ?_
        rw [and_comm]
        exact and_congr_left fun hl => (SortedMap.perm_entries_iff (nodup_ids_of_names hnames hl)).symm
  | null | bool | number | string | array | void => simp [SortedMap.ofJson?, members?, IsIdMapOf]

end Parts
end Json
end Coverage

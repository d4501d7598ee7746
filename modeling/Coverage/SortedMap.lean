/-!
Finite maps kept as lists of entries in strictly increasing key order. Two maps with the same
look-ups are the same value (`SortedMap.ext_get?`), and each operation has one lemma that says what
it does to look-ups.
-/
namespace Coverage

structure SortedMap (κ α : Type) [Ord κ] where
  entries : List (κ × α)
  sorted : entries.Pairwise fun a b => compare a.1 b.1 = .lt

namespace SortedMap
variable {κ α β : Type} [Ord κ]

def empty : SortedMap κ α := ⟨[], .nil⟩

instance : Inhabited (SortedMap κ α) := ⟨empty⟩
instance : EmptyCollection (SortedMap κ α) := ⟨empty⟩

instance [DecidableEq κ] [DecidableEq α] : DecidableEq (SortedMap κ α) := fun a b =>
  decidable_of_iff (a.entries = b.entries)
    ⟨fun h => by cases a; cases b; cases h; rfl, fun h => h ▸ rfl⟩

def keys (m : SortedMap κ α) : List κ := m.entries.map (·.1)
def values (m : SortedMap κ α) : List α := m.entries.map (·.2)
def size (m : SortedMap κ α) : Nat := m.entries.length
def isEmpty (m : SortedMap κ α) : Bool := m.entries.isEmpty
def lastKey? (m : SortedMap κ α) : Option κ := m.entries.getLast?.map (·.1)

def lookup (k : κ) : List (κ × α) → Option α
  | [] => none
  | e :: r => if compare e.1 k = .eq then some e.2 else lookup k r

def get? (m : SortedMap κ α) (k : κ) : Option α := lookup k m.entries
def contains (m : SortedMap κ α) (k : κ) : Bool := (m.get? k).isSome

/-- An entry with the same key is replaced. -/
def insertEntry (k : κ) (x : α) : List (κ × α) → List (κ × α)
  | [] => [(k, x)]
  | e :: r =>
    match compare k e.1 with
    | .lt => (k, x) :: e :: r
    | .eq => (k, x) :: r
    | .gt => e :: insertEntry k x r

theorem mem_insertEntry {k : κ} {x : α} {l : List (κ × α)} {a : κ × α}
    (h : a ∈ insertEntry k x l) : a = (k, x) ∨ a ∈ l := by
  induction l with
  | nil => simpa [insertEntry] using h
  | cons e r ih =>
    rw [insertEntry] at h
    split at h <;> simp only [List.mem_cons] at h ⊢
    · exact h
    · exact h.imp_right .inr
    · obtain h | h := h
      · exact .inr (.inl h)
      · exact (ih h).imp_right .inr

variable [Std.TransOrd κ]

theorem pairwise_insertEntry (k : κ) (x : α) {l : List (κ × α)}
    (h : l.Pairwise fun a b => compare a.1 b.1 = .lt) :
    (insertEntry k x l).Pairwise fun a b => compare a.1 b.1 = .lt := by
  induction l with
  | nil => simp [insertEntry]
  | cons e r ih =>
    have hr := List.pairwise_cons.1 h
    rw [insertEntry]
    split
    · next hk =>
      refine List.pairwise_cons.2 ⟨fun a ha => ?_, h⟩
      obtain rfl | ha := List.mem_cons.1 ha
      · exact hk
      · exact Std.TransCmp.lt_trans hk (hr.1 a ha)
    · next hk =>
      exact List.pairwise_cons.2 ⟨fun a ha => Std.TransCmp.lt_of_eq_of_lt hk (hr.1 a ha), hr.2⟩
    · next hk =>
      refine List.pairwise_cons.2 ⟨fun a ha => ?_, ih hr.2⟩
      obtain rfl | ha := mem_insertEntry ha
      · exact Std.OrientedCmp.lt_of_gt hk
      · exact hr.1 a ha

def insert (m : SortedMap κ α) (k : κ) (x : α) : SortedMap κ α :=
  ⟨insertEntry k x m.entries, pairwise_insertEntry k x m.sorted⟩

/-- Of two entries with one key the later counts. -/
def ofList (l : List (κ × α)) : SortedMap κ α := l.foldl (fun m e => m.insert e.1 e.2) empty

omit [Std.TransOrd κ]

def filter (p : κ → α → Bool) (m : SortedMap κ α) : SortedMap κ α :=
  ⟨m.entries.filter fun e => p e.1 e.2, m.sorted.filter _⟩

def erase (m : SortedMap κ α) (k : κ) : SortedMap κ α := m.filter fun k' _ => compare k' k != .eq

theorem pairwise_map_snd (f : κ → α → β) {l : List (κ × α)}
    (h : l.Pairwise fun a b => compare a.1 b.1 = .lt) :
    (l.map fun e => (e.1, f e.1 e.2)).Pairwise fun a b => compare a.1 b.1 = .lt :=
  List.pairwise_map.2 h

def mapWithKey (f : κ → α → β) (m : SortedMap κ α) : SortedMap κ β :=
  ⟨m.entries.map fun e => (e.1, f e.1 e.2), pairwise_map_snd f m.sorted⟩

/-- A key that is absent stays absent. -/
def modify (m : SortedMap κ α) (k : κ) (f : α → α) : SortedMap κ α :=
  m.mapWithKey fun k' x => if compare k' k = .eq then f x else x

variable {m : SortedMap κ α} {k k' : κ} {x : α} {l : List (κ × α)}

@[simp] theorem entries_empty : (empty : SortedMap κ α).entries = [] := rfl
@[simp] theorem get?_empty : (empty : SortedMap κ α).get? k = none := rfl

theorem ext_entries {m₁ m₂ : SortedMap κ α} (h : m₁.entries = m₂.entries) : m₁ = m₂ := by
  cases m₁; cases m₂; cases h; rfl

@[simp] theorem entries_mapWithKey (f : κ → α → β) :
    (m.mapWithKey f).entries = m.entries.map fun e => (e.1, f e.1 e.2) := rfl

@[simp] theorem keys_mapWithKey (f : κ → α → β) : (m.mapWithKey f).keys = m.keys := by
  simp [keys, Function.comp_def]

@[simp] theorem keys_modify (f : α → α) : (m.modify k f).keys = m.keys := keys_mapWithKey _

section LawfulEq
variable [Std.LawfulEqOrd κ]

theorem compare_eq_iff : compare k k' = .eq ↔ k = k' :=
  Std.LawfulEqCmp.compare_eq_iff_eq

theorem lookup_map (f : κ → α → β) :
    lookup k (l.map fun e => (e.1, f e.1 e.2)) = (lookup k l).map (f k) := by
  induction l with
  | nil => rfl
  | cons e r ih =>
    simp only [List.map_cons, lookup]
    split
    · next h => rw [compare_eq_iff.1 h]; rfl
    · exact ih

theorem get?_mapWithKey (f : κ → α → β) : (m.mapWithKey f).get? k = (m.get? k).map (f k) :=
  lookup_map f

theorem lookup_eq_none_iff : lookup k l = none ↔ ∀ e ∈ l, e.1 ≠ k := by
  induction l with
  | nil => simp [lookup]
  | cons e r ih => rw [lookup]; split <;> simp_all

theorem lookup_eq_some_iff (h : l.Pairwise fun a b => compare a.1 b.1 = .lt) :
    lookup k l = some x ↔ (k, x) ∈ l := by
  induction l with
  | nil => simp [lookup]
  | cons e r ih =>
    have hr := List.pairwise_cons.1 h
    rw [lookup, List.mem_cons]
    split
    · next hk =>
      have hk := compare_eq_iff.1 hk
      refine ⟨fun h => .inl ?_, fun h => ?_⟩
      · cases h; rw [← hk]
      · obtain h | h := h
        · rw [← h]
        · have := hr.1 _ h
          simp [hk] at this
    · next hk =>
      rw [ih hr.2]
      refine ⟨.inr, fun h => ?_⟩
      obtain h | h := h
      · exact absurd (by simp [← h]) hk
      · exact h

theorem get?_eq_some_iff : m.get? k = some x ↔ (k, x) ∈ m.entries := lookup_eq_some_iff m.sorted

theorem get?_eq_none_iff : m.get? k = none ↔ k ∉ m.keys := by
  rw [get?, lookup_eq_none_iff]
  simp only [keys, List.mem_map, Prod.exists, not_exists, not_and]
  exact ⟨fun h a b hab he => h _ hab he, fun h e he hk => h e.1 e.2 he hk⟩

theorem mem_keys_iff : k ∈ m.keys ↔ (m.get? k).isSome := by
  rw [← Option.ne_none_iff_isSome, Ne, get?_eq_none_iff, Classical.not_not]

theorem get?_filter (p : κ → α → Bool) : (m.filter p).get? k = (m.get? k).filter (p k) := by
  cases h : m.get? k with
  | none =>
    rw [get?_eq_none_iff] at h
    rw [Option.filter_none, get?_eq_none_iff]
    intro hk
    obtain ⟨e, he, rfl⟩ := List.mem_map.1 hk
    exact h (List.mem_map.2 ⟨e, (List.mem_filter.1 he).1, rfl⟩)
  | some x =>
    rw [get?_eq_some_iff] at h
    cases hp : p k x with
    | true =>
      simp only [Option.filter_some, hp, if_true]
      exact get?_eq_some_iff.2 (List.mem_filter.2 ⟨h, hp⟩)
    | false =>
      rw [Option.filter_some, hp, if_neg (by simp), get?_eq_none_iff]
      intro hk
      obtain ⟨e, he, rfl⟩ := List.mem_map.1 hk
      obtain ⟨hm, hpe⟩ := List.mem_filter.1 he
      have := (get?_eq_some_iff.2 h).symm.trans (get?_eq_some_iff (x := e.2).2 hm)
      simp_all

variable [Std.TransOrd κ]

theorem lookup_of_lt_head {e : κ × α} (h : (e :: l).Pairwise fun a b => compare a.1 b.1 = .lt)
    (hk : compare k e.1 = .lt) : lookup k (e :: l) = none := by
  rw [lookup_eq_none_iff]
  intro a ha hak
  subst hak
  obtain rfl | ha := List.mem_cons.1 ha
  · simp at hk
  · have := Std.TransCmp.lt_trans hk ((List.pairwise_cons.1 h).1 a ha)
    simp at this

theorem eq_of_lookup_eq {l₁ l₂ : List (κ × α)}
    (h₁ : l₁.Pairwise fun a b => compare a.1 b.1 = .lt)
    (h₂ : l₂.Pairwise fun a b => compare a.1 b.1 = .lt)
    (h : ∀ k, lookup k l₁ = lookup k l₂) : l₁ = l₂ := by
  induction l₁ generalizing l₂ with
  | nil =>
    cases l₂ with
    | nil => rfl
    | cons e r => simpa [lookup] using h e.1
  | cons d q ih =>
    cases l₂ with
    | nil => simpa [lookup] using h d.1
    | cons e r =>
      have hd := h d.1
      have he := h e.1
      have hde : compare d.1 e.1 = .eq := by
        cases hc : compare d.1 e.1 with
        | eq => rfl
        | lt =>
          rw [lookup_of_lt_head h₂ hc] at hd
          simp [lookup] at hd
        | gt =>
          rw [lookup_of_lt_head h₁ (Std.OrientedCmp.lt_of_gt hc)] at he
          simp [lookup] at he
      have hk := compare_eq_iff.1 hde
      have hx : d.2 = e.2 := by simpa [lookup, hk] using hd
      have hne : d = e := Prod.ext hk hx
      subst hne
      congr 1
      have hd₁ := (List.pairwise_cons.1 h₁).1
      have hd₂ := (List.pairwise_cons.1 h₂).1
      refine ih (List.pairwise_cons.1 h₁).2 (List.pairwise_cons.1 h₂).2 fun k => ?_
      cases hkd : compare d.1 k with
      | eq =>
        have hkd := compare_eq_iff.1 hkd
        have no {t : List (κ × α)} (ht : ∀ a ∈ t, compare d.1 a.1 = .lt) : lookup k t = none :=
          lookup_eq_none_iff.2 fun a ha hc => by
            have := ht a ha
            simp [hkd, hc] at this
        rw [no hd₁, no hd₂]
      | lt => simpa [lookup, hkd] using h k
      | gt => simpa [lookup, hkd] using h k

/-- Maps with the same look-ups are equal. -/
theorem ext_get? {m₁ m₂ : SortedMap κ α} (h : ∀ k, m₁.get? k = m₂.get? k) : m₁ = m₂ :=
  ext_entries (eq_of_lookup_eq m₁.sorted m₂.sorted h)

variable [DecidableEq κ]

omit [Std.TransOrd κ] in
theorem lookup_insertEntry :
    lookup k' (insertEntry k x l) = if k = k' then some x else lookup k' l := by
  induction l with
  | nil => simp [insertEntry, lookup]
  | cons e r ih =>
    rw [insertEntry]
    split
    · simp only [lookup, compare_eq_iff]
    · next hk => simp only [lookup, compare_eq_iff] at hk ⊢; grind
    · next hk =>
      have hne : k ≠ e.1 := fun h => by simp [h] at hk
      simp only [lookup, compare_eq_iff, ih]
      grind

theorem get?_insert : (m.insert k x).get? k' = if k = k' then some x else m.get? k' :=
  lookup_insertEntry

theorem get?_insert_self : (m.insert k x).get? k = some x := by simp [get?_insert]

theorem get?_insert_of_ne (h : k ≠ k') : (m.insert k x).get? k' = m.get? k' := by
  simp [get?_insert, h]

omit [Std.TransOrd κ]

theorem get?_modify (f : α → α) :
    (m.modify k f).get? k' = if k = k' then (m.get? k').map f else m.get? k' := by
  rw [modify, get?_mapWithKey]
  by_cases h : k = k'
  · simp [h]
  · simp [h, Ne.symm h]

end LawfulEq
end SortedMap
end Coverage

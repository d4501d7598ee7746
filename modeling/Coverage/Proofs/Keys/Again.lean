import Coverage.Proofs.Base.Partition
import Coverage.Proofs.Invariants.Writable
import Mathlib.Data.Finset.Max

/-! Keys that are normalised again. One scheme is dropped each time, so a name that begins with a scheme
afterwards changes once more, and a map is left as it is exactly if it has no such name. -/
namespace Coverage.Keys

variable {m c additional : CoverageMap} {key path : String} {f : FileCoverage}

/-- The name begins with the scheme of a file address. -/
def Schemed (key : String) : Prop := scheme <+: key.toList

instance : Decidable (Schemed key) := by unfold Schemed; infer_instance

section Names

theorem withoutScheme_of_schemed (h : Schemed key) : withoutScheme key = key.toList.drop scheme.length :=
  if_pos (List.isPrefixOf_iff_prefix.2 h)

theorem withoutScheme_of_not_schemed (h : ¬ Schemed key) : withoutScheme key = key.toList :=
  if_neg fun hp => h (List.isPrefixOf_iff_prefix.1 hp)

theorem not_mem_normalize (key : String) : '\\' ∉ (normalize key).toList := by
  rw [normalize, String.toList_ofList, List.mem_map]
  rintro ⟨c, _, hc⟩
  split at hc
  · simp at hc
  · next hb => exact hb hc

/-- Without backslashes only the scheme is dropped. -/
theorem toList_normalize_normalize (key : String) :
    (normalize (normalize key)).toList = withoutScheme (normalize key) := by
  have hsub : ∀ c ∈ withoutScheme (normalize key), c ∈ (normalize key).toList := by
    by_cases hs : Schemed (normalize key)
    · rw [withoutScheme_of_schemed hs]
      exact fun c hc => List.mem_of_mem_drop hc
    · rw [withoutScheme_of_not_schemed hs]
      exact fun c hc => hc
  rw [normalize, String.toList_ofList]
  refine (List.map_congr_left fun c hc => ?_).trans (List.map_id _)
  have hne : c ≠ '\\' := fun he => not_mem_normalize key (he ▸ hsub c hc)
  simp [hne]

theorem normalize_normalize_of_not_schemed (h : ¬ Schemed (normalize key)) :
    normalize (normalize key) = normalize key := by
  apply String.toList_injective
  rw [toList_normalize_normalize, withoutScheme_of_not_schemed h]

theorem length_normalize_normalize (h : Schemed (normalize key)) :
    (normalize (normalize key)).length < (normalize key).length := by
  have hle : scheme.length ≤ (normalize key).toList.length := h.length_le
  have hpos : 0 < scheme.length := by decide
  rw [← String.length_toList, ← String.length_toList, toList_normalize_normalize,
    withoutScheme_of_schemed h, List.length_drop]
  omega

end Names

section Maps

theorem normal_of_mem_paths (h : key ∈ (normalizeMap m).paths) : ∃ path ∈ m.paths, normalize path = key :=
  mem_paths_normalizeMap.1 h

/-- Under names that stay as they are each file stands alone. -/
theorem spelled_of_normal (hkeys : ∀ key ∈ c.paths, normalize key = key) (hc : c.Named)
    (hf : c.get? key = some f) : spelled key c.entries = [f] := by
  have hkey : normalize key = key := hkeys key (SortedMap.mem_keys_iff.2 (by simp [hf]))
  have halone : ∀ other ∈ c.paths, normalize other = normalize key → other = key := by
    intro other hother h
    rwa [hkeys other hother, hkey] at h
  have hspelled := spelled_of_alone hf halone
  rw [hkey] at hspelled
  obtain rfl := hc key f hf
  exact hspelled

theorem normalizeMap_eq_self (hkeys : ∀ key ∈ c.paths, normalize key = key) (hc : c.Named) :
    normalizeMap c = c := by
  refine SortedMap.ext_get? fun key => ?_
  cases hf : c.get? key with
  | some f => rw [get?_normalizeMap, spelled_of_normal hkeys hc hf, Merge.file?_singleton]
  | none =>
    rw [SortedMap.get?_eq_none_iff] at hf ⊢
    intro hmem
    obtain ⟨path, hpath, rfl⟩ := normal_of_mem_paths hmem
    rw [hkeys path hpath] at hf
    exact hf hpath

/-- Of the names with a scheme the longest is that of no file once all are normalised again. -/
theorem not_schemed_of_paths_again (h : (normalizeMap (normalizeMap m)).paths = (normalizeMap m).paths) :
    ∀ key ∈ (normalizeMap m).paths, ¬ Schemed key := by
  by_contra hsome
  push Not at hsome
  obtain ⟨key, hkey, hs⟩ := hsome
  have hnonempty : ((normalizeMap m).paths.toFinset.filter Schemed).Nonempty :=
    ⟨key, by simpa using ⟨hkey, hs⟩⟩
  obtain ⟨longest, hmem, hmax⟩ := Finset.exists_max_image _ String.length hnonempty
  obtain ⟨hlongest, hls⟩ : longest ∈ (normalizeMap m).paths ∧ Schemed longest := by simpa using hmem
  rw [← h] at hlongest
  obtain ⟨longer, hlonger, rfl⟩ := normal_of_mem_paths hlongest
  obtain ⟨path, _, rfl⟩ := normal_of_mem_paths hlonger
  by_cases hp : Schemed (normalize path)
  · have hle := hmax (normalize path) (by simpa using ⟨hlonger, hp⟩)
    have hlt := length_normalize_normalize hp
    omega
  · rw [normalize_normalize_of_not_schemed hp] at hls
    exact hp hls

theorem normalizeMap_again_iff : normalizeMap (normalizeMap m) = normalizeMap m ↔
    ∀ path ∈ m.paths, ¬ Schemed (normalize path) := by
  constructor
  · intro h path hpath
    exact not_schemed_of_paths_again (congrArg CoverageMap.paths h) _
      (mem_paths_normalizeMap.2 ⟨path, hpath, rfl⟩)
  · intro h
    refine normalizeMap_eq_self ?_ (CoverageMap.named_normalizeMap m)
    intro key hkey
    obtain ⟨path, hpath, rfl⟩ := normal_of_mem_paths hkey
    exact normalize_normalize_of_not_schemed (h path hpath)

end Maps

/-- Both sides have the file under its normalised name, and what is merged has the file made of the two. -/
def Paired (base additional c : CoverageMap) (path : String) : Prop :=
  ∃ b a, (normalizeMap base).get? (normalize path) = some b ∧
    (normalizeMap additional).get? (normalize path) = some a ∧
    c.get? (normalize path) = some (Base.file (normalize path) b a)

theorem paired_merge (hm : path ∈ m.paths) (ha : path ∈ additional.paths) :
    Paired m additional (Base.merge (normalizeMap m) (normalizeMap additional)) path := by
  obtain ⟨b, hb⟩ := Option.isSome_iff_exists.1
    (SortedMap.mem_keys_iff.1 (mem_paths_normalizeMap.2 ⟨path, hm, rfl⟩))
  obtain ⟨a, ha⟩ := Option.isSome_iff_exists.1
    (SortedMap.mem_keys_iff.1 (mem_paths_normalizeMap.2 ⟨path, ha, rfl⟩))
  exact ⟨b, a, hb, ha, Base.get?_merge_of_both hb ha⟩

/-- Normalising a map again changes nothing exactly if none of its names begins with a scheme once it is
normalised. Then a map that was written with normalised names and is used as a base is merged by the names
it had, and files of the same name on both sides are paired. -/
theorem again_of_keys (m : CoverageMap) :
    (normalizeMap (normalizeMap m) = normalizeMap m ↔ ∀ path ∈ m.paths, ¬ Schemed (normalize path)) ∧
    ((∀ path ∈ m.paths, ¬ Schemed (normalize path)) →
      ∀ (M : Type → Type) [Monad M] [LawfulMonad M] [Storage M] (p : Path) (additional : CoverageMap),
        ∃ result : Option String → CoverageMap × Base.Counts,
          Documents.mergeOnto p additional = result <$> (Storage.readText? p : M (Option String)) ∧
          ∀ t, CoverageMap.ofText t = .ok (normalizeMap m) →
            result (some t) = (Base.merge (normalizeMap m) (normalizeMap additional),
              Base.counts (normalizeMap m) (normalizeMap additional)) ∧
            ∀ path ∈ m.paths, path ∈ additional.paths → Paired m additional (result (some t)).1 path) := by
  refine ⟨normalizeMap_again_iff, ?_⟩
  intro h M _ _ _ p additional
  refine ⟨fun t => Base.onto (Base.ofFile t) additional, Base.mergeOnto_eq M p additional, ?_⟩
  intro t ht
  have hfile : Base.ofFile (some t) = normalizeMap m := by simp [Base.ofFile, ht, Except.toOption]
  have hresult : Base.onto (Base.ofFile (some t)) additional =
      (Base.merge (normalizeMap m) (normalizeMap additional),
        Base.counts (normalizeMap m) (normalizeMap additional)) := by
    rw [hfile, Base.onto, normalizeMap_again_iff.2 h]
  refine ⟨hresult, ?_⟩
  intro path hpath hadditional
  change Paired m additional (Base.onto (Base.ofFile (some t)) additional).1 path
  rw [hresult]
  exact paired_merge hpath hadditional

/-- One file with an address for its name, and the same file by its path. -/
def spellings : CoverageMap :=
  .ofList [("file:///src/a.ts", Base.counted), ("/src/a.ts", Base.counted)]

theorem writable_spellings : spellings.Writable := by
  intro path f hf
  have hfile : f = Base.counted := by
    have hmem := SortedMap.mem_of_mem_ofList (SortedMap.get?_eq_some_iff.1 hf)
    simp at hmem
    rcases hmem with ⟨_, rfl⟩ | ⟨_, rfl⟩ <;> rfl
  subst hfile
  exact ⟨by decide, .inl (by decide), fun id b hb => nomatch hb⟩

/-- The base file holds what was written with normalised names. -/
def written : Directory :=
  ⟨.ofList [("base.json", .file (.text (CoverageMap.text (normalizeMap spellings))))]⟩

theorem again_of_keys_sample :
    (∀ path ∈ spellings.paths, ¬ Schemed (normalize path)) ∧
    normalizeMap (normalizeMap spellings) = normalizeMap spellings ∧
    CoverageMap.ofText (CoverageMap.text (normalizeMap spellings)) = .ok (normalizeMap spellings) ∧
    "file:///src/a.ts" ∈ spellings.paths ∧ LawfulMonad (StateM Directory) ∧
    ∃ r, (Documents.mergeOnto "base.json" spellings : StateM Directory _).run written = (r, written) ∧
      Paired spellings spellings r.1 "file:///src/a.ts" := by
  have hplain : ∀ path ∈ spellings.paths, ¬ Schemed (normalize path) := by decide
  have hread := CoverageMap.ofText_text writable_spellings.normalizeMap
  have hmem : "file:///src/a.ts" ∈ spellings.paths := by decide
  refine ⟨hplain, (again_of_keys spellings).1.2 hplain, hread, hmem, inferInstance, ?_⟩
  obtain ⟨result, hresult, hbase⟩ :=
    (again_of_keys spellings).2 hplain (StateM Directory) "base.json" spellings
  obtain ⟨_, hpaired⟩ := hbase _ hread
  refine ⟨_, ?_, hpaired _ hmem hmem⟩
  rw [hresult, StateT.run_map]
  rfl

/-- A name with two schemes, and one that gets its scheme from backslashes. -/
def addresses : CoverageMap :=
  .ofList [("file://file:///a.ts", .empty "/a.ts"), ("file:\\\\b.ts", .empty "/b.ts")]

theorem changed_by_normalizing_again : normalizeMap (normalizeMap addresses) ≠ normalizeMap addresses ∧
    (normalizeMap addresses).paths = ["file:///a.ts", "file://b.ts"] ∧
    (normalizeMap (normalizeMap addresses)).paths = ["/a.ts", "b.ts"] := by
  have hfirst : (normalizeMap addresses).paths = ["file:///a.ts", "file://b.ts"] := by decide
  have hsecond : (normalizeMap (normalizeMap addresses)).paths = ["/a.ts", "b.ts"] := by decide
  refine ⟨?_, hfirst, hsecond⟩
  intro h
  rw [h, hfirst] at hsecond
  simp at hsecond

end Coverage.Keys

import Coverage.CommandLine.Run
import Coverage.Proofs.Files.Storage
import Coverage.Proofs.Invariants.Writable
import Coverage.Proofs.Selection.Filter

/-! Commands on files. What a command writes is read back in full, and a command that stops before it
writes leaves every file as it was. -/
namespace Coverage.CommandLine

variable {σ : Type} [Storage (StateM σ)] {s : σ} {c : Command} {m : CoverageMap} {p : Path}
  {before after : List String}

open Documents

/-- The file that a command writes. -/
def Command.target : Command → Path
  | .merge o => o.output
  | .mergeBase o => o.output
  | .fixup o => o.target

/-- The coverage that a command is to write, or why it stops before it writes any. -/
def intended [Syntax.Parser] (s : σ) : Command → Except Fault CoverageMap
  | .merge o =>
    match answer (Discovery.discover o.inputs o.pattern) s with
    | .error e => .error (.failure e)
    | .ok files =>
      match answer (loadAll files) s with
      | .error e => .error (.failure e)
      | .ok maps =>
        if (o.kept (o.merged maps)).isEmpty then .error .nothingLeft else .ok (o.kept (o.merged maps))
  | .mergeBase o =>
    match answer (load o.additional) s with
    | .error e => .error (.failure e)
    | .ok additional => .ok (answer (mergeOnto o.base additional) s).1
  | .fixup o =>
    match answer (load o.input) s with
    | .error e => .error (.failure e)
    | .ok c => .ok (Fixups.apply c
        (answer (SourceReader.readAll { root := o.sourceRoot } c.paths) s).text? o.backfill).1

/-- A run stops for what keeps it from writing, or it concludes with what it is to write. -/
def Follows [Syntax.Parser] (s : σ) (c : Command) : Prop :=
  (∃ e lines, intended s c = .error e ∧ (c.run : StateM σ _).run s = (⟨lines, .error e⟩, s)) ∨
  ∃ m before after, intended s c = .ok m ∧
    (c.run : StateM σ _).run s = (conclude before m c.target after : StateM σ _).run s

section Follows
variable [Syntax.Parser] [LawfulStorage σ]

theorem follows_merge (s : σ) (o : MergeOptions) : Follows s (.merge o) := by
  have hrun : (Command.merge o).run = (o.run : StateM σ Outcome) := rfl
  rw [Follows, hrun, MergeOptions.run, (Discovery.keeps_discover _ _).run_bind]
  simp only [intended]
  cases answer (Discovery.discover o.inputs o.pattern) s with
  | error e => exact .inl ⟨_, _, rfl, rfl⟩
  | ok files =>
    simp only
    rw [(keeps_loadAll files).run_bind]
    cases answer (loadAll files) s with
    | error e => exact .inl ⟨_, _, rfl, rfl⟩
    | ok maps =>
      simp only
      split
      · exact .inl ⟨_, _, rfl, rfl⟩
      · exact .inr ⟨_, _, _, rfl, rfl⟩

theorem follows_mergeBase (s : σ) (o : BaseOptions) : Follows s (.mergeBase o) := by
  have hrun : (Command.mergeBase o).run = (o.run : StateM σ Outcome) := rfl
  rw [Follows, hrun, BaseOptions.run, (keeps_load _).run_bind]
  simp only [intended]
  cases answer (load o.additional) s with
  | error e => exact .inl ⟨_, _, rfl, rfl⟩
  | ok additional =>
    simp only
    rw [(keeps_mergeOnto o.base additional).run_bind]
    exact .inr ⟨_, _, _, rfl, rfl⟩

theorem follows_fixup (s : σ) (o : FixupOptions) : Follows s (.fixup o) := by
  have hrun : (Command.fixup o).run = (o.run : StateM σ Outcome) := rfl
  rw [Follows, hrun, FixupOptions.run, (keeps_load _).run_bind]
  simp only [intended]
  cases answer (load o.input) s with
  | error e => exact .inl ⟨_, _, rfl, rfl⟩
  | ok c =>
    simp only
    rw [(SourceReader.keeps_readAll _ c.paths).run_bind]
    exact .inr ⟨_, _, _, rfl, rfl⟩

theorem follows_of_run (s : σ) (c : Command) : Follows s c := by
  cases c with
  | merge o => exact follows_merge s o
  | mergeBase o => exact follows_mergeBase s o
  | fixup o => exact follows_fixup s o

end Follows

theorem of_conclude (h : (answer (conclude before m p after) s).result = .ok ()) :
    answer (save p m) s = .ok () ∧ behind (conclude before m p after) s = behind (save p m) s := by
  rw [conclude, answer_bind] at h
  rw [conclude, behind_bind]
  cases hsave : answer (save p m) s with
  | error e => simp [hsave, answer_pure, Outcome.failed] at h
  | ok => exact ⟨rfl, rfl⟩

section Written

theorem writable_of_load (h : answer (load p) s = .ok m) : m.Writable := by
  obtain ⟨t, -, ht⟩ := answer_load_eq_ok_iff.1 h
  exact CoverageMap.writable_of_ofText ht

/-- Every file of the merged documents that is kept can be written, and bears the name it stands under. -/
theorem writable_kept (o : MergeOptions) {maps : List CoverageMap} (h : ∀ m ∈ maps, m.Writable) :
    (o.kept (o.merged maps)).Writable ∧ (o.kept (o.merged maps)).Named := by
  have hvalid : (o.merged maps).Every FileCoverage.Valid :=
    FileCoverage.stable_valid.maps (List.forall_mem_map.2 fun m hm => (h m hm).normalizeMap.valid)
  have hkinds : (o.merged maps).Every FileCoverage.KindsCanonical :=
    FileCoverage.stable_kindsCanonical.maps
      (List.forall_mem_map.2 fun m hm => (h m hm).normalizeMap.kinds)
  have hnamed : (o.merged maps).Named :=
    CoverageMap.named_maps (List.forall_mem_map.2 fun m _ => CoverageMap.named_normalizeMap m)
  have hkept := hnamed.filter o.included o.excluded
  exact ⟨CoverageMap.writable_of_named (hvalid.filter _ _) (hkinds.filter _ _) hkept, hkept⟩

theorem writable_mergeOnto [LawfulStorage σ] (p : Path) (h : m.Writable) :
    (answer (mergeOnto p m) s).1.Writable := by
  have hbase : (answer (loadBase p) s).Writable := by
    rw [loadBase, (keeps_load p).answer_bind, answer_pure]
    cases hload : answer (load p) s with
    | error e => exact fun path f hf => (Option.some_ne_none f hf.symm).elim
    | ok b => exact writable_of_load hload
  have hanswer : (answer (mergeOnto p m) s).1 =
      Base.merge (Keys.normalizeMap (answer (loadBase p) s)) (Keys.normalizeMap m) := rfl
  rw [hanswer]
  exact CoverageMap.writable_of_named
    (FileCoverage.stable_valid.merge hbase.normalizeMap.valid h.normalizeMap.valid)
    (FileCoverage.stable_kindsCanonical.merge hbase.normalizeMap.kinds h.normalizeMap.kinds)
    ((CoverageMap.named_normalizeMap _).merge (CoverageMap.named_normalizeMap m))

theorem forall_writable_of_loadAll [LawfulStorage σ] {files : List Path} {maps : List CoverageMap}
    (h : answer (loadAll files) s = .ok maps) : ∀ m ∈ maps, m.Writable := by
  have hforall := answer_loadAll_eq_ok_iff.1 h
  clear h
  induction hforall with
  | nil => simp
  | cons hp _ ih => exact List.forall_mem_cons.2 ⟨writable_of_load hp, ih⟩

theorem intended_merge_eq_ok_iff [Syntax.Parser] {o : MergeOptions} : intended s (.merge o) = .ok m ↔
    ∃ files maps, answer (Discovery.discover o.inputs o.pattern) s = .ok files ∧
      answer (loadAll files) s = .ok maps ∧ o.kept (o.merged maps) = m ∧ m.isEmpty = false := by
  rw [intended]
  constructor
  · intro h
    split at h
    · simp at h
    · next files hfiles =>
      split at h
      · simp at h
      · next maps hmaps =>
        split at h
        · simp at h
        · next hkept =>
          obtain rfl := Except.ok.inj h
          exact ⟨files, maps, hfiles, hmaps, rfl, by simpa using hkept⟩
  · rintro ⟨files, maps, hfiles, hmaps, rfl, hkept⟩
    simp [hfiles, hmaps, hkept]

theorem writable_of_intended [Syntax.Parser] [LawfulStorage σ] (h : intended s c = .ok m) : m.Writable := by
  cases c with
  | merge o =>
    obtain ⟨files, maps, -, hmaps, rfl, -⟩ := intended_merge_eq_ok_iff.1 h
    exact (writable_kept o (forall_writable_of_loadAll hmaps)).1
  | mergeBase o =>
    rw [intended] at h
    split at h
    · simp at h
    · next additional hload =>
      obtain rfl := Except.ok.inj h
      exact writable_mergeOnto o.base (writable_of_load hload)
  | fixup o =>
    rw [intended] at h
    split at h
    · simp at h
    · next c hload =>
      obtain rfl := Except.ok.inj h
      exact (writable_of_load hload).apply _ _

end Written

section Keys

/-- A file is read from this member of the document in a file: it has its shape and is complete. -/
def IsInput (s : σ) (p : Path) (path : String) : Prop :=
  ∃ t l j g, answer (Storage.readText? p) s = some t ∧ Json.ofText? t = some (.object l) ∧
    (path, j) ∈ l ∧ j.IsFile g ∧ g.Complete

theorem mem_paths_of_load (h : answer (load p) s = .ok m) {path : String} :
    path ∈ m.paths ↔ IsInput s p path := by
  obtain ⟨t, ht, hm⟩ := answer_load_eq_ok_iff.1 h
  obtain ⟨l, hl, hingests⟩ := CoverageMap.ingests_of_ofText hm
  rw [hingests.paths]
  constructor
  · rintro ⟨j, g, hj, hg, hcomplete⟩
    exact ⟨t, l, j, g, ht, hl, hj, hg, hcomplete⟩
  · rintro ⟨t', l', j, g, ht', hl', hj, hg, hcomplete⟩
    obtain rfl := Option.some.inj (ht.symm.trans ht')
    obtain rfl := Json.object.inj (Option.some.inj (hl.symm.trans hl'))
    exact ⟨j, g, hj, hg, hcomplete⟩

theorem kept_of_no_patterns {o : MergeOptions} (hincluded : o.included = []) (hexcluded : o.excluded = [])
    (m : CoverageMap) : o.kept m = m := by
  rw [MergeOptions.kept, hincluded, hexcluded, Selection.filter_of_no_patterns]

/-- Without patterns the keys of what is written are the normalised names of all that was read. -/
theorem mem_paths_of_intended [Syntax.Parser] [LawfulStorage σ] {o : MergeOptions} (h : intended s (.merge o) = .ok m)
    (hincluded : o.included = []) (hexcluded : o.excluded = []) {key : String} :
    key ∈ m.paths ↔ ∃ files, answer (Discovery.discover o.inputs o.pattern) s = .ok files ∧
      ∃ p ∈ files, ∃ path, IsInput s p path ∧ Keys.normalize path = key := by
  obtain ⟨files, maps, hfiles, hmaps, rfl, -⟩ := intended_merge_eq_ok_iff.1 h
  have hloaded := answer_loadAll_eq_ok_iff.1 hmaps
  have hinputs : (∃ m ∈ maps, ∃ path ∈ m.paths, Keys.normalize path = key) ↔
      ∃ p ∈ files, ∃ path, IsInput s p path ∧ Keys.normalize path = key := by
    clear hmaps hfiles h
    induction hloaded with
    | nil => simp
    | cons hp _ ih => simp only [List.exists_mem_cons_iff, ih, mem_paths_of_load hp]
  rw [kept_of_no_patterns hincluded hexcluded, hfiles]
  simp only [Except.ok.injEq, exists_eq_left', ← hinputs]
  rw [CoverageMap.paths, SortedMap.mem_keys_iff, MergeOptions.merged, Merge.isSome_get?_maps]
  simp only [List.mem_map, exists_exists_and_eq_and, Keys.mem_paths_normalizeMap]

end Keys

/-- A command that stops before it writes changes no file. One that succeeds has written what it was
to write, and all of it is read back, valid; of merged documents every file bears the name it stands
under, and without patterns these are the normalised names of all files that were read. -/
theorem readBack_of_run [Syntax.Parser] [LawfulStorage σ] (s : σ) (c : Command) :
    (∀ e, intended s c = .error e → (answer c.run s).result = .error e ∧ behind c.run s = s) ∧
    ((answer c.run s).result = .ok () → ∃ m, intended s c = .ok m ∧
      answer (load c.target) (behind c.run s) = .ok m ∧ m.Every FileCoverage.Valid ∧
      ∀ o, c = .merge o → m.Named ∧ (o.included = [] → o.excluded = [] → ∀ key, key ∈ m.paths ↔
        ∃ files, answer (Discovery.discover o.inputs o.pattern) s = .ok files ∧
          ∃ p ∈ files, ∃ path, IsInput s p path ∧ Keys.normalize path = key)) := by
  rcases follows_of_run s c with ⟨e, lines, he, hrun⟩ | ⟨m, before, after, hm, hrun⟩
  · have hresult : (answer c.run s).result = .error e := by rw [answer, hrun]
    refine ⟨fun e' he' => ?_, fun hok => ?_⟩
    · obtain rfl := Except.error.inj (he.symm.trans he')
      exact ⟨hresult, by rw [behind, hrun]⟩
    · simp [hresult] at hok
  · refine ⟨fun e he => ?_, fun hok => ?_⟩
    · simp [hm] at he
    · rw [answer_of_run hrun] at hok
      have hwritable := writable_of_intended hm
      obtain ⟨hsave, hsaved⟩ := of_conclude hok
      refine ⟨m, hm, ?_, hwritable.valid, ?_⟩
      · rw [behind_of_run hrun, hsaved]
        exact answer_load_behind_save hwritable hsave
      · rintro o rfl
        refine ⟨?_, fun hincluded hexcluded _ => mem_paths_of_intended hm hincluded hexcluded⟩
        obtain ⟨files, maps, -, hmaps, rfl, -⟩ := intended_merge_eq_ok_iff.1 hm
        exact (writable_kept o (forall_writable_of_loadAll hmaps)).2

/-- A folder with one document, which is to be merged, with nothing else, into a file beside it. -/
def sampleDirectory : Directory :=
  ⟨.ofList [("in.json", .file (.text (CoverageMap.text CoverageMap.sampleMap)))]⟩

def sampleMerge : MergeOptions := { inputs := ["in.json"], output := "out.json" }

theorem intended_sampleMerge : intended sampleDirectory (.merge sampleMerge) =
    .ok (sampleMerge.kept (sampleMerge.merged [CoverageMap.sampleMap])) := by
  have hload : answer (load "in.json") sampleDirectory = .ok CoverageMap.sampleMap :=
    answer_load_eq_ok_iff.2 ⟨_, rfl, CoverageMap.ofText_text CoverageMap.writable_sampleMap⟩
  have hall : answer (loadAll ["in.json"]) sampleDirectory = .ok [CoverageMap.sampleMap] :=
    answer_loadAll_eq_ok_iff.2 (.cons hload .nil)
  exact intended_merge_eq_ok_iff.2 ⟨["in.json"], _, rfl, hall, rfl, by decide⟩

theorem result_sampleMerge : (answer (Command.merge sampleMerge).run sampleDirectory).result = .ok () := by
  have hsave (m : CoverageMap) : answer (save "out.json" m) sampleDirectory = .ok () := rfl
  have htarget : (Command.merge sampleMerge).target = "out.json" := rfl
  rcases follows_of_run sampleDirectory (.merge sampleMerge) with ⟨e, lines, he, -⟩ |
    ⟨m, before, after, -, hrun⟩
  · simp [intended_sampleMerge] at he
  · rw [answer_of_run hrun, htarget, conclude, answer_bind, hsave]
    rfl

theorem intended_missing : intended sampleDirectory (.merge { inputs := ["coverage"] }) =
    .error (.failure (.missingInput "coverage")) := by
  have hmissing : answer (Discovery.discover ["coverage"] "coverage-final.json") sampleDirectory =
      .error (.missingInput "coverage") := rfl
  rw [intended, hmissing]

/-- The one file is read back under its name, and merging what is not there leaves the folder as it was. -/
theorem readBack_of_run_sample :
    ((answer (Command.merge sampleMerge).run sampleDirectory).result = .ok () ∧
      ∃ m, answer (load "out.json") (behind (Command.merge sampleMerge).run sampleDirectory) = .ok m ∧
        m.paths = ["/a.ts"] ∧ m.Named ∧ m.Every FileCoverage.Valid) ∧
    behind (Command.merge { inputs := ["coverage"] }).run sampleDirectory = sampleDirectory := by
  refine ⟨⟨result_sampleMerge, ?_⟩,
    ((readBack_of_run sampleDirectory _).1 _ intended_missing).2⟩
  obtain ⟨m, hm, hread, hvalid, hmerge⟩ :=
    (readBack_of_run sampleDirectory (.merge sampleMerge)).2 result_sampleMerge
  obtain rfl := Except.ok.inj (intended_sampleMerge.symm.trans hm)
  exact ⟨_, hread, by decide, (hmerge sampleMerge rfl).1, hvalid⟩

end Coverage.CommandLine

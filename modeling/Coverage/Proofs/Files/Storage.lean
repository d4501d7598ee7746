import Coverage.Files.Directory
import Coverage.Files.Discovery
import Coverage.Files.Documents
import Coverage.Files.SourceReader
import Coverage.Proofs.Document.RoundTrip

/-! What is asked of a place that holds files: looking changes nothing, and a text that was written is
read back. A directory tree in memory does so. -/
namespace Coverage

variable {σ α β : Type}

/-- What an action answers. -/
def answer (x : StateM σ α) (s : σ) : α := (x.run s).1

/-- What an action leaves behind. -/
def behind (x : StateM σ α) (s : σ) : σ := (x.run s).2

/-- An action that only looks. -/
def Keeps (x : StateM σ α) : Prop := ∀ s, behind x s = s

section Actions
variable {x : StateM σ α} {f : α → StateM σ β} {s : σ}

theorem answer_pure (a : α) (s : σ) : answer (pure a) s = a := rfl

theorem behind_pure (a : α) (s : σ) : behind (pure a) s = s := rfl

theorem answer_bind : answer (x >>= f) s = answer (f (answer x s)) (behind x s) := rfl

theorem behind_bind : behind (x >>= f) s = behind (f (answer x s)) (behind x s) := rfl

theorem answer_of_run {y : StateM σ α} {s' : σ} (h : x.run s = y.run s') : answer x s = answer y s' :=
  congrArg Prod.fst h

theorem behind_of_run {y : StateM σ α} {s' : σ} (h : x.run s = y.run s') : behind x s = behind y s' :=
  congrArg Prod.snd h

theorem Keeps.pure (a : α) : Keeps (Pure.pure a : StateM σ α) := fun _ => rfl

theorem Keeps.bind (hx : Keeps x) (hf : ∀ a, Keeps (f a)) : Keeps (x >>= f) :=
  fun s => (hf _ _).trans (hx s)

theorem Keeps.run_bind (hx : Keeps x) : (x >>= f).run s = (f (answer x s)).run s :=
  congrArg (f (answer x s)).run (hx s)

theorem Keeps.answer_bind (hx : Keeps x) : answer (x >>= f) s = answer (f (answer x s)) s :=
  congrArg (answer _) (hx s)

end Actions

class LawfulStorage (σ : Type) [Storage (StateM σ)] : Prop where
  keeps_kind? : ∀ p, Keeps (Storage.kind? p : StateM σ _)
  keeps_readText? : ∀ p, Keeps (Storage.readText? p : StateM σ _)
  keeps_filesBelow : ∀ p, Keeps (Storage.filesBelow p : StateM σ _)
  /-- A text that could be written is read back. -/
  readText?_writeText : ∀ p t s, answer (Storage.writeText p t : StateM σ _) s = true →
    answer (Storage.readText? p) (behind (Storage.writeText p t) s) = some t

section Reading
variable [Storage (StateM σ)] [LawfulStorage σ]

open LawfulStorage

theorem Documents.keeps_load (p : Path) : Keeps (load p : StateM σ _) := by
  refine (keeps_readText? p).bind fun t => ?_
  cases t <;> exact .pure _

theorem Documents.keeps_loadAll (l : List Path) : Keeps (loadAll l : StateM σ _) := by
  induction l with
  | nil => exact .pure _
  | cons p r ih =>
    refine (keeps_load p).bind fun x => ?_
    cases x with
    | error e => exact .pure _
    | ok c => exact ih.bind fun _ => .pure _

theorem Documents.keeps_mergeOnto (p : Path) (c : CoverageMap) : Keeps (mergeOnto p c : StateM σ _) :=
  ((keeps_load p).bind fun _ => .pure _).bind fun _ => .pure _

theorem Discovery.keeps_expand (pattern : String) (p : Path) : Keeps (expand pattern p : StateM σ _) := by
  refine (keeps_kind? p).bind fun k => ?_
  cases k with
  | none => exact .pure _
  | some k =>
    cases k with
    | file => exact .pure _
    | folder => exact (keeps_filesBelow p).bind fun _ => .pure _

theorem Discovery.keeps_expandAll (pattern : String) (l : List Path) :
    Keeps (expandAll pattern l : StateM σ _) := by
  induction l with
  | nil => exact .pure _
  | cons p r ih =>
    refine (keeps_expand pattern p).bind fun x => ?_
    cases x with
    | error e => exact .pure _
    | ok l => exact ih.bind fun _ => .pure _

theorem Discovery.keeps_discover (inputs : List Path) (pattern : String) :
    Keeps (discover inputs pattern : StateM σ _) := by
  refine (keeps_expandAll pattern inputs).bind fun x => ?_
  split <;> exact .pure _

theorem SourceReader.keeps_read (r : SourceReader) (path : String) : Keeps (r.read path : StateM σ _) := by
  rw [read]
  split
  · exact .pure _
  · exact (keeps_readText? _).bind fun _ => .pure _

theorem SourceReader.keeps_readAll (r : SourceReader) (paths : List String) :
    Keeps (r.readAll paths : StateM σ _) := by
  induction paths generalizing r with
  | nil => exact .pure _
  | cons path rest ih => exact (r.keeps_read path).bind fun _ => ih _

end Reading

namespace Documents
variable [Storage (StateM σ)] {s : σ} {p : Path} {m : CoverageMap}

theorem answer_load_eq_ok_iff : answer (load p) s = .ok m ↔
    ∃ t, answer (Storage.readText? p) s = some t ∧ CoverageMap.ofText t = .ok m := by
  rw [load, answer_bind]
  cases answer (Storage.readText? p) s <;> simp [answer_pure]

theorem answer_loadAll_eq_ok_iff [LawfulStorage σ] {l : List Path} {maps : List CoverageMap} :
    answer (loadAll l) s = .ok maps ↔ List.Forall₂ (fun p m => answer (load p) s = .ok m) l maps := by
  induction l generalizing maps with
  | nil => simp [loadAll, answer_pure, eq_comm]
  | cons p r ih =>
    rw [loadAll, (keeps_load p).answer_bind, List.forall₂_cons_left_iff]
    cases hp : answer (load p) s with
    | error e => simp [answer_pure]
    | ok c =>
      change answer (loadAll r >>= fun x => pure (x.map (c :: ·))) s = _ ↔ _
      rw [(keeps_loadAll r).answer_bind, answer_pure]
      simp only [← ih]
      cases answer (loadAll r) s with
      | error e => simp [Except.map]
      | ok l => simp [Except.map, eq_comm]

/-- What is left to do once the folders are there, or could not be made. -/
def writeIfReady (p : Path) (t : String) (ready : Bool) : StateM σ (Except Failure Unit) := do
  if !ready then return .error .storage
  return if ← Storage.writeText p t then .ok () else .error .storage

theorem exists_saveText_eq (p : Path) (t : String) :
    ∃ x : StateM σ Bool, saveText p t = x >>= writeIfReady p t := by
  rw [saveText]
  split
  · exact ⟨pure true, rfl⟩
  · exact ⟨Storage.makeFolders (Path.parent p), rfl⟩

/-- Saving that succeeds ends with a text that could be written. -/
theorem exists_written {t : String} (h : answer (saveText p t) s = .ok ()) :
    ∃ s', answer (Storage.writeText p t) s' = true ∧
      behind (saveText p t) s = behind (Storage.writeText p t) s' := by
  obtain ⟨x, hx⟩ := exists_saveText_eq (σ := σ) p t
  rw [hx, answer_bind] at h
  rw [hx, behind_bind]
  refine ⟨behind x s, ?_⟩
  cases hready : answer x s with
  | false => simp [hready, writeIfReady, answer_pure] at h
  | true =>
    have hwrite : writeIfReady p t true = (Storage.writeText p t : StateM σ Bool) >>= fun b =>
      pure (if b then .ok () else .error .storage) := rfl
    rw [hready, hwrite, answer_bind, answer_pure] at h
    rw [hwrite, behind_bind, behind_pure]
    cases hb : answer (Storage.writeText p t) (behind x s) with
    | false => simp [hb] at h
    | true => exact ⟨rfl, rfl⟩

/-- A map that can be written is read back from where it was saved. -/
theorem answer_load_behind_save [LawfulStorage σ] (hm : m.Writable) (h : answer (save p m) s = .ok ()) :
    answer (load p) (behind (save p m) s) = .ok m := by
  obtain ⟨s', hwrite, hbehind⟩ := exists_written h
  rw [answer_load_eq_ok_iff, save, hbehind]
  exact ⟨_, LawfulStorage.readText?_writeText _ _ _ hwrite, CoverageMap.ofText_text hm⟩

end Documents

namespace Directory
variable {d : Directory} {place : List String} {c : Content} {p : Path} {t : String}

/-- A file in the place of no folder takes no folder away. -/
theorem isFolder_put (h : d.isFolder place = false) (q : List String) :
    (d.put place (.file c)).isFolder q = d.isFolder q := by
  have hplace : place.isEmpty = false := by
    cases place with
    | nil => simp [isFolder, node?] at h
    | cons a l => rfl
  cases q with
  | nil => rfl
  | cons a l =>
    simp only [isFolder, node?, hplace] at h
    simp only [isFolder, node?, put, SortedMap.get?_insert]
    by_cases hq : Path.ofNames place = Path.ofNames (a :: l)
    · rw [hq] at h
      simpa [hq] using h.symm
    · simp [hq]

theorem place?_put (h : d.isFolder place = false) : (d.put place (.file c)).place? p = d.place? p := by
  have hstep : (d.put place (.file c)).step? = d.step? := by
    funext q segment
    simp only [step?, isFolder_put h]
  simp only [place?, hstep]

theorem readText?_write (h : (d.write p (.text t)).2 = true) :
    (d.write p (.text t)).1.readText? p = some t := by
  rw [write] at h ⊢
  cases htarget : d.target? p with
  | none => simp [htarget] at h
  | some place =>
    obtain ⟨hplace, hfolder⟩ := Option.filter_eq_some_iff.1 htarget
    have hfolder : d.isFolder place = false := by simpa using hfolder
    have hnode : (d.put place (.file (.text t))).node? place = some (.file (.text t)) := by
      cases place with
      | nil => simp [isFolder, node?] at hfolder
      | cons a l => simp [node?, put, SortedMap.get?_insert]
    simp only [readText?, find?, place?_put hfolder, hplace, Option.bind_some, hnode]

instance : LawfulStorage Directory where
  keeps_kind? _ _ := rfl
  keeps_readText? _ _ := rfl
  keeps_filesBelow _ _ := rfl
  readText?_writeText _ _ _ := readText?_write

end Directory
end Coverage

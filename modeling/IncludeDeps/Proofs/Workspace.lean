import IncludeDeps.Proofs.Computation
import IncludeDeps.Proofs.Ordered
import IncludeDeps.Workspace.Operations

/-!
# The contents of the files of a workspace

Whatever the path, it leads to one of the files there are or to a directory, if it leads anywhere
(`Workspace.of_find`); so what is read is one of finitely many contents (`Workspace.mem_contents_of_read`),
and a property of all contents that can be read is decided by looking at the entries.

How a path leads there does not matter for this: links, steps up and slashes are followed by
`Workspace.follow`, and `Workspace.of_follow` goes through its branches once.
-/

namespace IncludeDeps.Workspace

variable {w : Workspace} {last : LastStep} {p : Path} {x : Bytes}

/-- The content of an entry that is a file. -/
def content? : Entry → Option Bytes
  | .file content => some content
  | _ => none

/-- The contents of all files. -/
def contents (w : Workspace) : List Bytes := w.entries.toList.filterMap fun e => content? e.2

lemma mem_contents_of_at? {place : Place} (h : w.at? place = some (.file x)) :
    x ∈ w.contents := by
  unfold at? at h
  split at h
  · cases h
  · obtain ⟨k, hk, -⟩ := OrderedMap.exists_mem_of_get?_eq_some h
    exact List.mem_filterMap.2 ⟨(k, .file x), hk, rfl⟩

/-- What holds of directories, of all files and of links that are kept holds of what is found at the end
of names, if it does so behind links. -/
lemma of_follow {P : Entry → Prop} {onLink : Place → List String → Except Fault Found}
    (hdirectory : P .directory) (hfile : ∀ place x, w.at? place = some (.file x) → P (.file x))
    (hkeep : last = .keepLink → ∀ target, P (.link target))
    (hlink : ∀ dir names place e, onLink dir names = .ok (.entry place e) → P e)
    {dir place : Place} {names : List String} {e : Entry}
    (h : follow w last onLink dir names = .ok (.entry place e)) : P e := by
  induction names generalizing dir with
  | nil =>
    cases h
    exact hdirectory
  | cons name rest ih =>
    -- the branches of one step: a dot, a step up, a name that is too long, a slash behind the name
    -- of a file to be written, and then nothing, a directory, a file or a link of that name
    unfold follow at h
    simp only at h
    split at h
    · exact ih h
    split at h
    · exact ih h
    split at h
    · cases h
    split at h
    · cases h
    split at h
    · split at h
      · cases h
      · cases h
    · exact ih h
    · next content hat =>
      split at h
      · cases h
        exact hfile _ _ hat
      · cases h
    · split at h
      · next hlast =>
        cases h
        exact hkeep hlast.2 _
      · exact hlink _ _ _ _ h

lemma of_followLinks {P : Entry → Prop} (hdirectory : P .directory)
    (hfile : ∀ place x, w.at? place = some (.file x) → P (.file x))
    (hkeep : last = .keepLink → ∀ target, P (.link target)) {links : Nat} {dir place : Place}
    {names : List String} {e : Entry}
    (h : followLinks w last links dir names = .ok (.entry place e)) : P e := by
  induction links generalizing dir names place e with
  | zero => exact of_follow hdirectory hfile hkeep (fun _ _ _ _ hlink => by cases hlink) h
  | succ links ih => exact of_follow hdirectory hfile hkeep (fun _ _ _ _ => ih) h

/-- What holds of directories and of all files holds of what a path leads to. -/
lemma of_find {P : Entry → Prop} {place : Place} {e : Entry} (hdirectory : P .directory)
    (hfile : ∀ place x, w.at? place = some (.file x) → P (.file x))
    (h : w.find p = .ok (place, e)) : P e := by
  unfold find resolve at h
  obtain ⟨found, hresolve, h⟩ := Except.exists_of_bind h
  obtain ⟨dir, -, hfound⟩ := Except.exists_of_bind hresolve
  cases found with
  | vacancy dir name => cases h
  | entry place e =>
    cases h
    have hkeep : LastStep.follow = .keepLink → ∀ target, P (.link target) := fun h => by cases h
    exact of_followLinks hdirectory hfile hkeep hfound

/-- What is read is the content of an entry. -/
theorem mem_contents_of_read (h : w.read p = .ok x) : x ∈ w.contents := by
  unfold read at h
  obtain ⟨⟨place, entry⟩, hfind, h⟩ := Except.exists_of_bind h
  have hcontents : ∀ x, entry = .file x → x ∈ w.contents :=
    of_find (P := fun e => ∀ x, e = .file x → x ∈ w.contents) nofun
      (fun _ _ hat _ heq => by cases heq; exact mem_contents_of_at? hat) hfind
  cases entry with
  | directory => cases h
  | link target => cases h
  | file content =>
    cases h
    exact hcontents _ rfl

lemma isFile_of_read (h : w.read p = .ok x) : w.isFile p := by
  unfold read at h
  obtain ⟨⟨place, entry⟩, hfind, h⟩ := Except.exists_of_bind h
  rw [isFile, hfind]
  cases entry with
  | file content => rfl
  | directory => cases h
  | link target => cases h

lemma exists_read_of_isFile (h : w.isFile p) : ∃ x, w.read p = .ok x := by
  unfold isFile at h
  unfold read
  cases hfind : w.find p with
  | error e =>
    rw [hfind] at h
    cases h
  | ok found =>
    obtain ⟨place, entry⟩ := found
    rw [hfind] at h
    cases entry with
    | file content => exact ⟨content, rfl⟩
    | directory => cases h
    | link target => cases h

/-- A directory at the root, and in it files of the given names and texts. -/
def ofTexts (dir : String) (texts : List (String × String)) : Workspace :=
  texts.foldl (fun w (name, text) => w.put [dir] name (.file (Bytes.ofText text))) (bare [dir] 1)

end IncludeDeps.Workspace

import IncludeDeps.Proofs.CommandLine.Clean

/-!
# Tasks that share a cache

The states of all tasks that share a cache lie in one folder, each under the key of its task.  While the
keys of two tasks differ, work on one of them leaves the state of the other alone
(`Project.load_of_works`).

* `Config.taskName_eq_iff` tells when two tasks have one key: a key does not show where the name of the
  project ends, so a part of a name may move over to the other one with its colon;
* `StateStore.Spares` is what may happen to the files without touching the state under a key;
* `Project.Works` is work on a task.

The names of tasks and projects may hold colons.  In `Project.exists_adopted` two tasks have one key, and
the first time that one of them is worked on, it takes over the state of the other.
-/

namespace IncludeDeps

open Workspace

/-! ## Keys -/

namespace Config

variable {c c' : Config} {task task' : String} {project project' : String}

/-- The names of the first task can be read as those of the second one: what comes after a colon in the
name of the second project stands at the beginning of the name of the first task. -/
def Shifts (project task project' task' : String) : Prop :=
  ∃ middle, project' = project ++ ":" ++ middle ∧ task = middle ++ ":" ++ task'

lemma Shifts.eq (h : Shifts project task project' task') :
    project ++ ":" ++ task = project' ++ ":" ++ task' := by
  obtain ⟨middle, rfl, rfl⟩ := h
  simp only [String.append_assoc]

/-- Where one name of a project is the beginning of the other, the rest is a part of a key. -/
lemma eq_or_shifts_of_append {rest : List Char} (hproject : project'.toList = project.toList ++ rest)
    (h : project ++ ":" ++ task = project' ++ ":" ++ task') :
    (project = project' ∧ task = task') ∨ Shifts project task project' task' := by
  have hchars := congrArg String.toList h
  simp only [String.toList_append, hproject, List.append_assoc, List.append_cancel_left_eq] at hchars
  cases rest with
  | nil =>
    rw [List.append_nil] at hproject
    exact .inl ⟨(String.toList_inj.1 hproject).symm,
      String.toList_inj.1 (List.append_cancel_left hchars)⟩
  | cons c middle =>
    have hcolon : ":".toList = [':'] := rfl
    rw [hcolon, List.singleton_append, List.cons_append, List.cons_eq_cons] at hchars
    obtain ⟨rfl, htask⟩ := hchars
    refine .inr ⟨String.ofList middle, String.toList_inj.1 ?_, String.toList_inj.1 ?_⟩
    · simp [hproject]
    · simpa using htask

/-- Two tasks have one key if they have the same names, or names that come to the same when a part of one
moves over to the other. -/
theorem taskName_eq_iff : c.taskName task = c'.taskName task' ↔
    (c.project = c'.project ∧ task = task') ∨ Shifts c.project task c'.project task' ∨
      Shifts c'.project task' c.project task := by
  have hkey : c.taskName task = c'.taskName task' ↔
      c.project ++ ":" ++ task = c'.project ++ ":" ++ task' := by
    simp only [taskName, String.append_assoc, ← String.toList_inj, String.toList_append,
      List.append_cancel_left_eq]
  rw [hkey]
  constructor
  · intro h
    have hchars := congrArg String.toList h
    simp only [String.toList_append, List.append_assoc] at hchars
    rcases List.append_eq_append_iff.1 hchars with ⟨rest, hproject, -⟩ | ⟨rest, hproject, -⟩
    · exact (eq_or_shifts_of_append hproject h).imp_right .inl
    · exact (eq_or_shifts_of_append hproject h.symm).imp (fun h => ⟨h.1.symm, h.2.symm⟩) .inr
  · rintro (⟨hproject, htask⟩ | h | h)
    · rw [hproject, htask]
    · exact h.eq
    · exact h.eq.symm

/-- Nothing moves over to the name of a project without a colon. -/
lemma not_shifts_of_colon (h : ':' ∉ project'.toList) : ¬ Shifts project task project' task' := by
  rintro ⟨middle, rfl, -⟩
  exact h (by simp)

end Config

/-! ## Changes elsewhere -/

namespace StateStore

variable {s : StateStore} {key key' name : String} {w w' w'' : Workspace} {state : TaskState}
  {done : Bool} {x : Except StoreError Bool}

/-- No file by the name of the state under a key has changed, and no link is new. -/
structure Spares (key : String) (w w' : Workspace) : Prop where
  alters : w.Alters (fun q => ∀ dir, q ≠ dir ++ [fileName key]) w'
  links : ∀ q target, w'.at? q = some (.link target) → w.at? q = some (.link target)

lemma Spares.trans (h : Spares key w w') (h' : Spares key w' w'') : Spares key w w'' :=
  ⟨h.alters.trans h'.alters, fun q target hat => h.links q target (h'.links q target hat)⟩

lemma Spares.linkFree (h : Spares key w w') (hlink : w.LinkFree name) : w'.LinkFree name :=
  fun dir target hat => hlink dir target (h.links _ target hat)

lemma spares_of_adds (h : w.Adds w') : Spares key w w' :=
  ⟨h.alters _, fun _ _ hat => h.at?_eq hat nofun⟩

lemma Spares.refl (key : String) (w : Workspace) : Spares key w w := spares_of_adds (.refl w)

/-- Then what is loaded is what it was. -/
lemma load_of_spares (h : Spares key w w') (hlink : w.LinkFree (fileName key))
    (hstays : w.Stays s.folder w') : s.load w' key = s.load w key :=
  load_of_alters (hlink.not_has s.folder) h.alters hstays
    fun dir _ hother => hother dir rfl

/-- To store a state under another key spares a key, wherever it stops. -/
lemma spares_of_stops (hfile : w.LinkFree (fileName key)) (hscratch : w.LinkFree (scratchName w key))
    (hkey : Digest.ofText key' ≠ Digest.ofText key) (h : s.Stops key state w done w') :
    Spares key' w w' := by
  have hadds := adds_opened s w
  obtain ⟨halters, hcarries⟩ := alters_of_stops (not_has_scratch_opened hscratch)
    ((hadds.linkFree hfile).not_has s.folder) h
  refine ⟨halters.mono ?_, fun q target hat => hadds.at?_eq (hcarries.link q target hat) nofun⟩
  rintro q (hq | ⟨-, dir', rfl⟩) dir
  · exact fun heq => not_isScratch w key key' dir (heq ▸ hq)
  · exact fun heq => fileName_ne hkey (List.append_singleton_inj.1 heq).2.symm

/-- To remove the state under another key spares a key. -/
lemma spares_of_remove (hfile : w.LinkFree (fileName key))
    (hkey : Digest.ofText key' ≠ Digest.ofText key) (h : (s.remove key).run.run w = (x, w')) :
    Spares key' w w' := by
  cases x with
  | error e =>
    rw [remove_run] at h
    split at h
    · exact absurd h Computation.not_error_of_ok
    · exact absurd h Computation.not_error_of_ok
    · rw [← Computation.state_eq_of_error h]
      exact .refl key' w
  | ok b =>
    have hclears := clears_of_remove (hfile.not_has s.folder) h
    refine ⟨⟨hclears.cwd, hclears.processId, hclears.carries, fun q hq e _ => ?_⟩,
      fun q target hat => hclears.at?_mono hat⟩
    rw [not_forall] at hq
    obtain ⟨dir, hq⟩ := hq
    rw [not_not] at hq
    -- only the file under the other key is gone
    rcases hclears.at?_eq q with heq | ⟨-, other, hother, dir', -, hgone⟩
    · rw [heq]
    · rw [List.mem_singleton] at hother
      rw [hq, hother] at hgone
      exact absurd (List.append_singleton_inj.1 hgone).2 (fileName_ne hkey)

end StateStore

/-! ## Work on a task -/

namespace Task

variable {t : Task} {hasher : Hasher} {s : StateStore} {key : String} {r r' : Run} {w w' : Workspace}

/-- The header dependencies file does not get the name of the file of a state, and it takes the place of no
link. -/
structure IsAside (t : Task) (key : String) (w : Workspace) : Prop where
  clear : ∀ path ∈ t.headerFile, HeaderMap.IsClear path w
  header : ∀ path ∈ t.headerFile, ∀ place name, (HeaderMap.opened path w).Ends path place name →
    name ≠ StateStore.fileName key ∧ ∀ target, w.at? (place ++ [name]) ≠ some (.link target)

lemma isAside_of_unwanted (h : t.headerFile = none) (key : String) (w : Workspace) :
    t.IsAside key w := by
  constructor
  all_goals
    intro path hpath
    rw [h] at hpath
    cases hpath

lemma spares_of_publishes (haside : t.IsAside key w) (h : t.Publishes w w') :
    StateStore.Spares key w w' := by
  cases h with
  | unwanted => exact .refl key w
  | @written path m digest _ hpath hwrite =>
    have hmakes := HeaderMap.makes_opened path w
    obtain ⟨dir, name, x, halters, hends, -, hcarries⟩ := alters_of_write (haside.clear path hpath)
      (fun place name hends => (haside.header path hpath place name hends).2) hwrite
    have hends' := hends.mono hcarries (hmakes.cwd.trans halters.cwd.symm)
    refine ⟨halters.mono ?_, fun q target hat => hmakes.at?_eq (hcarries.link q target hat) nofun⟩
    rintro q rfl dir' heq
    exact (haside.header path hpath dir name hends').1 (List.append_singleton_inj.1 heq).2

/-- A task spares the keys of other tasks, whether it succeeds or not, and whatever its header
dependencies file is, if this is not in the way of the other state. -/
theorem spares_of_detect {x : Except TaskError (Outcome × StateCache)}
    (haside : t.IsAside key r.files)
    (hfile : r.files.LinkFree (StateStore.fileName t.name))
    (hscratch : r.files.LinkFree (StateStore.scratchName r.files t.name))
    (hkey : Digest.ofText key ≠ Digest.ofText t.name)
    (h : (t.detect hasher (.stored s t.name)).run.run r = (x, r')) :
    StateStore.Spares key r.files r'.files := by
  -- the header dependencies file is written first, and does not get in the way of storing the
  -- state
  have hkept : ∀ {state : TaskState} {w₁ w₂ : Workspace} {y : Except StoreError StateCache},
      t.Publishes r.files w₁ → ((StateCache.stored s t.name).set state).run.run w₁ = (y, w₂) →
      StateStore.Spares key r.files w₂ := by
    intro state w₁ w₂ y hpublish hset
    have hfirst := spares_of_publishes haside hpublish
    refine hfirst.trans (StateStore.spares_of_stops (hfirst.linkFree hfile) ?_ hkey
      (StateStore.stops_of_set hset))
    rw [StateStore.scratchName_congr hfirst.alters.processId]
    exact hfirst.linkFree hscratch
  have hdetects := detects_of_detect h
  generalize r'.files = w' at hdetects ⊢
  cases hdetects with
  | unread => exact .refl key _
  | unlisted => exact .refl key _
  | unwritten _ _ hpath hwrite =>
    exact StateStore.spares_of_adds
      (HeaderMap.makes_of_write_error (haside.clear _ hpath) hwrite).toAdds
  | unkept _ _ hpublish hset => exact hkept hpublish hset
  | kept _ _ hpublish hset => exact hkept hpublish hset

end Task

namespace Project

variable {p p' : Project} {name name' key : String} {w w' : Workspace}

/-- What may come of work on a task: commands are run on it, and its state is stored or removed, all of this
with or without success; storing may stop on the way.  No header dependencies file gets the name of the
file under a key. -/
inductive Works (p : Project) (name key : String) : Workspace → Workspace → Prop
  /-- Nothing has happened. -/
  | nothing {w : Workspace} : Works p name key w w
  /-- The task has been worked on. -/
  | depended {w : Workspace} {r r' : Run} {isDetailed : Bool} {x : Except CommandError Remark}
    (h : Works p name key w r.files) (hrun : (p.depend isDetailed name).run.run r = (x, r'))
    (haside : ∀ t, p.task r.files name = .ok t → t.IsAside key r.files) :
    Works p name key w r'.files
  /-- It has been asked what there is to do. -/
  | asked {w : Workspace} {r r' : Run} {isDetailed : Bool} {x : Except CommandError Remark}
    (h : Works p name key w r.files) (hrun : (p.status isDetailed name).run.run r = (x, r')) :
    Works p name key w r'.files
  /-- The task has been cleaned. -/
  | cleaned {w : Workspace} {r r' : Run} {x : Except CommandError Remark}
    (h : Works p name key w r.files) (hrun : (p.clean name).run.run r = (x, r')) :
    Works p name key w r'.files
  /-- A state has been stored, as far as this came. -/
  | stored {w w₁ w₂ : Workspace} {state : TaskState} {done : Bool} (h : Works p name key w w₁)
    (hstop : p.store.Stops (p.key name) state w₁ done w₂) : Works p name key w w₂
  /-- The state has been removed. -/
  | removed {w w₁ w₂ : Workspace} {x : Except StoreError Bool} (h : Works p name key w w₁)
    (hrun : (p.store.remove (p.key name)).run.run w₁ = (x, w₂)) : Works p name key w w₂

lemma exists_remove_of_clean_run {x : Except CommandError Remark} {r r' : Run}
    (h : (p.clean name).run.run r = (x, r')) : r'.files = r.files ∨
      ∃ y, (p.store.remove (p.key name)).run.run r.files = (y, r'.files) := by
  rw [clean_run] at h
  split at h
  · rcases hrun : (p.store.remove (p.key name)).run.run r.files with ⟨y, w⟩
    rw [hrun] at h
    cases y with
    | error e =>
      cases h
      exact .inr ⟨_, rfl⟩
    | ok b =>
      cases h
      exact .inr ⟨_, rfl⟩
  · cases h
    exact .inl rfl

/-- Work on a task spares the keys of other tasks. -/
theorem Works.spares (hfile : w.LinkFree (StateStore.fileName (p.key name)))
    (hscratch : w.LinkFree (StateStore.scratchName w (p.key name)))
    (hkey : Digest.ofText key ≠ Digest.ofText (p.key name)) (h : p.Works name key w w') :
    StateStore.Spares key w w' := by
  induction h with
  | nothing => exact .refl key _
  | @depended r r' isDetailed x _ hrun haside ih =>
    refine ih.trans ?_
    rcases detects_of_depend hrun with ⟨-, rfl⟩ | ⟨t, y, htask, hdetect, -⟩
    · exact .refl key _
    · -- what was assumed of the files before all work is still true before this part of it
      obtain ⟨ht, -⟩ := name_of_task htask
      refine Task.spares_of_detect (haside t htask) ?_ ?_ ?_ hdetect
      · rw [ht]
        exact ih.linkFree hfile
      · rw [ht, StateStore.scratchName_congr ih.alters.processId]
        exact ih.linkFree hscratch
      · rw [ht]
        exact hkey
  | @asked r r' isDetailed x _ hrun ih =>
    have hfiles := p.isReadOnly_status isDetailed name r
    rw [hrun] at hfiles
    rw [hfiles]
    exact ih
  | cleaned _ hrun ih =>
    rcases exists_remove_of_clean_run hrun with heq | ⟨y, hremove⟩
    · rw [heq]
      exact ih
    · exact ih.trans (StateStore.spares_of_remove (ih.linkFree hfile) hkey hremove)
  | stored _ hstop ih =>
    refine ih.trans (StateStore.spares_of_stops (ih.linkFree hfile) ?_ hkey hstop)
    rw [StateStore.scratchName_congr ih.alters.processId]
    exact ih.linkFree hscratch
  | removed _ hrun ih =>
    exact ih.trans (StateStore.spares_of_remove (ih.linkFree hfile) hkey hrun)

/-- Tasks with different names have different keys, unless a part of one name moves over to the other, which
takes a colon in the name of a project; and while the keys and their digests differ, work on one task does
not change the state that is loaded for the other.  No link has the name of one of their files, and the
folder of the other state comes to lead to no directory that was there before. -/
theorem load_of_works (p p' : Project) (name name' : String) :
    (p.key name = p'.key name' ↔ (p.config.project = p'.config.project ∧ name = name') ∨
      Config.Shifts p.config.project name p'.config.project name' ∨
        Config.Shifts p'.config.project name' p.config.project name) ∧
    (':' ∉ p.config.project.toList → ':' ∉ p'.config.project.toList →
      p.key name = p'.key name' → p.config.project = p'.config.project ∧ name = name') ∧
    ∀ w w', p.key name ≠ p'.key name' →
      (Digest.ofText (p'.key name') = Digest.ofText (p.key name) → p'.key name' = p.key name) →
      p.Works name (p'.key name') w w' →
      w.LinkFree (StateStore.fileName (p.key name)) →
      w.LinkFree (StateStore.scratchName w (p.key name)) →
      w.LinkFree (StateStore.fileName (p'.key name')) → w.Stays p'.store.folder w' →
      p'.store.load w' (p'.key name') = p'.store.load w (p'.key name') := by
  refine ⟨Config.taskName_eq_iff, fun hplain hplain' hsame => ?_,
    fun w w' hkey hdigest hworks hfile hscratch hother hstays => ?_⟩
  · rcases Config.taskName_eq_iff.1 hsame with hnames | hshift | hshift
    · exact hnames
    · exact absurd hshift (Config.not_shifts_of_colon hplain')
    · exact absurd hshift (Config.not_shifts_of_colon hplain)
  · have hspares := hworks.spares hfile hscratch fun heq => hkey (hdigest heq).symm
    exact StateStore.load_of_spares hspares hother hstays

lemma Works.depended_of_unwanted {r : Run} {isDetailed : Bool} (h : p.Works name key w r.files)
    (hheader : (p.task r.files name).toOption.all fun t => t.headerFile = none) :
    p.Works name key w ((p.depend isDetailed name).run.run r).2.files := by
  rcases hrun : (p.depend isDetailed name).run.run r with ⟨x, r'⟩
  refine .depended h hrun fun t ht => ?_
  rw [ht] at hheader
  exact Task.isAside_of_unwanted (of_decide_eq_true hheader) _ _

/-- The text of a configuration with one task. -/
def configText (project task : String) : String :=
  "[project]\nname = \"" ++ project ++ "\"\n[tasks.\"" ++ task ++ "\"]\nsources = [\"a.c\"]\n"

/-- What it stands for, in a directory. -/
def alone (project task : String) : Project :=
  ⟨⟨"/p"⟩, project, ".cdep", .ofList [(task, ⟨["a.c"], [], false, none, ∅⟩)]⟩

/-- A run that begins with one source. -/
def single : Run := { files := Workspace.ofTexts "p" [("a.c", "")] }

/-- A run in which a task of another project has succeeded. -/
def settled : Run := (((alone "a:b" "d").depend false "d").run.run single).2

/-- Where the first task leads then. -/
def joined : Run := (((alone "a" "b:c").depend false "b:c").run.run settled).2

/-- Two tasks of different projects keep their states beside each other, although all their names begin
alike. -/
theorem load_of_works_joined :
    (alone "a" "b:c").key "b:c" ≠ (alone "a:b" "d").key "d" ∧
      (alone "a" "b:c").store.load settled.files ((alone "a" "b:c").key "b:c") = ∅ ∧
      (alone "a" "b:c").store.load joined.files ((alone "a" "b:c").key "b:c") ≠ ∅ ∧
      (alone "a" "b:c").Works "b:c" ((alone "a:b" "d").key "d") settled.files joined.files ∧
      (alone "a:b" "d").store.load joined.files ((alone "a:b" "d").key "d") =
        (alone "a:b" "d").store.load settled.files ((alone "a:b" "d").key "d") ∧
      (alone "a:b" "d").store.load settled.files ((alone "a:b" "d").key "d") ≠ ∅ := by
  have hfacts : (alone "a" "b:c").key "b:c" ≠ (alone "a:b" "d").key "d" ∧
      Digest.ofText ((alone "a:b" "d").key "d") ≠ Digest.ofText ((alone "a" "b:c").key "b:c") ∧
      ((∀ e ∈ settled.files.entries.toList, e.2.isLink = false) ∧
        settled.files.find (alone "a:b" "d").store.folder = .ok (["p", ".cdep", "state"], .directory) ∧
        joined.files.find (alone "a:b" "d").store.folder = .ok (["p", ".cdep", "state"], .directory)) ∧
      ((alone "a" "b:c").task settled.files "b:c").toOption.all (fun t => t.headerFile = none) ∧
      (alone "a" "b:c").store.load settled.files ((alone "a" "b:c").key "b:c") = ∅ ∧
      (alone "a" "b:c").store.load joined.files ((alone "a" "b:c").key "b:c") ≠ ∅ ∧
      (alone "a:b" "d").store.load settled.files ((alone "a:b" "d").key "d") ≠ ∅ := by
    decide +kernel
  obtain ⟨hkey, hdigest, ⟨hlinks, hbefore, hafter⟩, hheader, hempty, hstored, hheld⟩ := hfacts
  have hfree := linkFree_of_isLink hlinks
  have hworks : (alone "a" "b:c").Works "b:c" ((alone "a:b" "d").key "d") settled.files joined.files := by
    rw [joined]
    exact .depended_of_unwanted .nothing hheader
  have hstays : settled.files.Stays (alone "a:b" "d").store.folder joined.files :=
    fun place hfind => .inl (hbefore.trans (hafter.symm.trans hfind))
  have hload := (load_of_works (alone "a" "b:c") (alone "a:b" "d") "b:c" "d").2.2 _ _ hkey
    (fun heq => absurd heq hdigest) hworks (hfree _) (hfree _) (hfree _) hstays
  exact ⟨hkey, hempty, hstored, hworks, hload, hheld⟩

/-- Two tasks of different projects that share a cache have one key.  As soon as one has been worked on, its
state is loaded for the other, and the source of that one need not be compiled. -/
theorem exists_adopted :
    Config.parse (configText "a" "b:c") = .ok (alone "a" "b:c").config ∧
      Config.parse (configText "a:b" "c") = .ok (alone "a:b" "c").config ∧
      (alone "a" "b:c").store = (alone "a:b" "c").store ∧
      (alone "a" "b:c").key "b:c" = (alone "a:b" "c").key "c" ∧
      (((alone "a:b" "c").depend false "c").run.run single).1 = .ok
        { lines := [":a:b:c: 1 of 1 sources to recompile, 0 removed, 0 header dependencies"] } ∧
      ∃ r, ((alone "a" "b:c").depend false "b:c").run.run single = (.ok
          { lines := [":a:b:c: 1 of 1 sources to recompile, 0 removed, 0 header dependencies"] }, r) ∧
        (alone "a:b" "c").store.load single.files ((alone "a:b" "c").key "c") = ∅ ∧
        (alone "a:b" "c").store.load r.files ((alone "a:b" "c").key "c") ≠ ∅ ∧
        (((alone "a:b" "c").depend false "c").run.run r).1 = .ok
          { lines := [":a:b:c: 0 of 1 sources to recompile, 0 removed, 0 header dependencies"] } :=
  ⟨by decide +kernel, by decide +kernel, by decide +kernel, by decide +kernel, by decide +kernel,
    Computation.exists_of_fst_eq (by decide +kernel)⟩

end Project

end IncludeDeps

import IncludeDeps.Proofs.TaskState.Encoding
import IncludeDeps.Proofs.TaskState.Location
import IncludeDeps.Proofs.Workspace.Changes

/-!
# Stored states are found again

A state that is stored is loaded afterwards, and one that cannot be stored leaves what was loaded
before: `StateCache.get_of_set`, `StateCache.get_of_set_error`.

The file of a state is replaced at once when its scratch file is complete, so a failure can leave no
more than new directories and a scratch file.  This is about trees in which no link has the name of
either file, and in which the path of the state leads somewhere unless nothing has its name
(`StateStore.IsSafe`).

* `StateStore.load_congr` and `StateStore.load_of_alters` tell on which places a loaded state depends;
* `StateStore.exists_rename_of_save` and `StateStore.eq_opened_or_exists_unlink_of_save` take a run of
  `StateStore.save` apart, once for success and once for failure;
* `StateStore.IsSafe.has_iff` is where the condition on the path is used: directories that are made
  must not lead the path to a state that was out of its reach before.
-/

namespace IncludeDeps

namespace StateStore

open Workspace

variable {s : StateStore} {w w' w₂ : Workspace} {key key' : String} {state : TaskState}
  {place : Place} {x : Bytes} {P : Place → Prop}

/-- The same directory, as another version of the tool sees it. -/
def withTool (s : StateStore) (tool : String) : StateStore := { s with tool := tool }

/-! ## Loading -/

/-- What is loaded depends on the file of the state. -/
lemma load_congr (hlink : ∀ target, ¬ w.Has s.folder (fileName key) (.link target))
    (h : ∀ e, e ≠ .directory →
      (w'.Has s.folder (fileName key) e ↔ w.Has s.folder (fileName key) e)) :
    s.load w' key = s.load w key := by
  have hlink' : ∀ target, ¬ w'.Has s.folder (fileName key) (.link target) :=
    fun target hhas => hlink target ((h (.link target) nofun).1 hhas)
  -- a directory in the place of the file is of no account: neither with it nor without anything
  -- there is a state loaded
  have hread : ∀ x, w'.read (s.path key) = .ok x ↔ w.read (s.path key) = .ok x := by
    intro x
    rw [path_eq, read_inside_iff (folder_text_ne s) (isFileName_fileName key) hlink',
      read_inside_iff (folder_text_ne s) (isFileName_fileName key) hlink, h (.file x) nofun]
  unfold load
  cases hold : w.read (s.path key) with
  | ok x => rw [(hread x).2 hold]
  | error e =>
    cases hnew : w'.read (s.path key) with
    | ok x =>
      rw [(hread x).1 hnew] at hold
      cases hold
    | error e' => rfl

/-- What is loaded is what the file of the state stands for. -/
lemma load_of_ends (hends : w.Ends (s.path key) place (fileName key))
    (hat : w.at? (place ++ [fileName key]) = some (.file x)) :
    s.load w key = (TaskState.decode s.tool x).toOption.getD ∅ := by
  have hsegments : segments (inside s.folder (fileName key)).text = _ :=
    segments_inside (isFileName_fileName key)
  rw [← path_eq] at hsegments
  have hread : w.read (s.path key) = .ok x := by
    refine (read_iff hends.isName hsegments fun place' hends' target => ?_).2 ⟨place, hends, hat⟩
    rw [← (hends.unique hends').1, hat]
    nofun
  unfold load
  rw [hread]

/-- Without a file of the state the empty state is loaded. -/
lemma load_of_not_has (hlink : ∀ target, ¬ w.Has s.folder (fileName key) (.link target))
    (h : ∀ x, ¬ w.Has s.folder (fileName key) (.file x)) : s.load w key = ∅ := by
  unfold load
  split
  · next x hread =>
    rw [path_eq, read_inside_iff (folder_text_ne s) (isFileName_fileName key) hlink] at hread
    exact absurd hread.2.2 (h x)
  · rfl

/-- Changes elsewhere do not change what is loaded.  Elsewhere is wherever the file of the state
does not lie, and the folder still has to lead to the same directory. -/
theorem load_of_alters (hlink : ∀ target, ¬ w.Has s.folder (fileName key) (.link target))
    (h : w.Alters P w') (hstays : w.Stays s.folder w')
    (hP : ∀ dir, w'.find s.folder = .ok (dir, .directory) → ¬ P (dir ++ [fileName key])) :
    s.load w' key = s.load w key :=
  load_congr hlink fun _ he => h.has_iff hstays hP he

/-! ## Storing -/

/-- The places with the name of a scratch file, in whichever directory. -/
def IsScratch (w : Workspace) (key : String) (q : Place) : Prop :=
  ∃ dir, q = dir ++ [scratchName w key]

/-- A scratch file is not the file of any state. -/
lemma not_isScratch (w : Workspace) (key key' : String) (dir : Place) :
    ¬ IsScratch w key (dir ++ [fileName key']) := by
  rintro ⟨dir', heq⟩
  exact fileName_ne_scratchName w key key' (List.append_singleton_inj.1 heq).2

/-- The tree in which the directories of a store have been made, as far as this is possible. -/
def opened (s : StateStore) (w : Workspace) : Workspace :=
  ((createDirectories s.folder).run.run w).2

lemma adds_opened (s : StateStore) (w : Workspace) : w.Adds (s.opened w) := adds_createEach _ w

/-- What has happened when a state was stored. -/
lemma exists_rename_of_save (h : (s.save key state).run.run w = (.ok (), w')) :
    (createDirectories s.folder).run.run w = (.ok (), s.opened w) ∧
      ∃ w₂, (s.opened w).write (s.scratch w key) (state.encode s.tool) = .ok w₂ ∧
        w₂.rename (s.scratch w key) (s.path key) = .ok w' := by
  rw [save_run] at h
  split at h
  · cases h
  next w₁ hcreate =>
  have hopened : s.opened w = w₁ := congrArg Prod.snd hcreate
  rw [hopened]
  split at h
  · cases h
  next content hcontent =>
  obtain ⟨-, rfl⟩ := TaskState.fileContent_eq_ok_iff.1 hcontent
  split at h
  · cases h
  next w₂ hwrite =>
  split at h
  · cases h
  · next w₃ hrename =>
    cases h
    exact ⟨hcreate, w₂, hwrite, hrename⟩

/-- What may have happened when a state was not stored. -/
lemma eq_opened_or_exists_unlink_of_save {e : StoreError}
    (h : (s.save key state).run.run w = (.error e, w')) :
    w' = s.opened w ∨ (createDirectories s.folder).run.run w = (.ok (), s.opened w) ∧
      ∃ w₂, (s.opened w).write (s.scratch w key) (state.encode s.tool) = .ok w₂ ∧
        w' = (w₂.unlink (s.scratch w key)).toOption.getD w₂ := by
  rw [save_run] at h
  split at h
  · next w₁ hcreate =>
    have hopened : s.opened w = w₁ := congrArg Prod.snd hcreate
    exact .inl (hopened ▸ (Computation.state_eq_of_error h).symm)
  next w₁ hcreate =>
  have hopened : s.opened w = w₁ := congrArg Prod.snd hcreate
  rw [hopened]
  split at h
  · -- there is no content, and nothing was written
    exact .inl (Computation.state_eq_of_error h).symm
  next content hcontent =>
  obtain ⟨-, rfl⟩ := TaskState.fileContent_eq_ok_iff.1 hcontent
  split at h
  · exact .inl (Computation.state_eq_of_error h).symm
  next w₂ hwrite =>
  split at h
  · exact .inr ⟨hcreate, w₂, hwrite, (Computation.state_eq_of_error h).symm⟩
  · exact absurd h Computation.not_error_of_ok

lemma sets_of_write_scratch
    (hlink : ∀ target, ¬ w.Has s.folder (scratchName w key) (.link target))
    (h : w.write (s.scratch w key) x = .ok w₂) :
    ∃ place, w.Ends (s.scratch w key) place (scratchName w key) ∧
      w.find s.folder = .ok (place, .directory) ∧
      IsPlain (w.at? (place ++ [scratchName w key])) ∧
      w.Sets (place ++ [scratchName w key]) (some (.file x)) w₂ := by
  have hname := isFileName_scratchName w key
  rw [scratch_eq] at h ⊢
  obtain ⟨place, hends, hset⟩ := sets_of_write hname.isName (segments_inside hname)
    (fun _ hends => at?_ne_link_of_ends (folder_text_ne s) hname hlink hends) h
  exact ⟨place, hends, ((ends_inside_iff (folder_text_ne s) hname).1 hends).2.2, hset⟩

/-- The scratch file takes the place of the file of the state. -/
lemma replaces_of_rename
    (hlink : ∀ target, ¬ w.Has s.folder (scratchName w key) (.link target))
    (hwrite : w.write (s.scratch w key) x = .ok w₂)
    (hrename : w₂.rename (s.scratch w key) (s.path key) = .ok w') :
    ∃ place, w.Ends (s.path key) place (fileName key) ∧
      w.find s.folder = .ok (place, .directory) ∧
      w.Replaces (place ++ [scratchName w key]) (place ++ [fileName key]) x w' := by
  have hname := isFileName_scratchName w key
  have hname' := isFileName_fileName key
  rw [scratch_eq] at hwrite hrename
  obtain ⟨place, dir, name', hends, hends', hreplaces⟩ := exists_replaces hname.isName
    (segments_inside hname)
    (fun _ hends => at?_ne_link_of_ends (folder_text_ne s) hname hlink hends) hwrite hrename
  rw [path_eq] at hends' ⊢
  obtain rfl := hends'.name_eq hname'
  have hfind := ((ends_inside_iff (folder_text_ne s) hname).1 hends).2.2
  have hfind' := ((ends_inside_iff (folder_text_ne s) hname').1 hends').2.2
  rw [hfind] at hfind'
  cases hfind'
  exact ⟨place, hends', hfind, hreplaces⟩

lemma sets_of_unlink_scratch
    (hlink : ∀ target, ¬ w.Has s.folder (scratchName w key) (.link target))
    (hwrite : w.write (s.scratch w key) x = .ok w₂) :
    ∃ place w₃, w₂.unlink (s.scratch w key) = .ok w₃ ∧
      w.find s.folder = .ok (place, .directory) ∧
      IsPlain (w.at? (place ++ [scratchName w key])) ∧
      w.Sets (place ++ [scratchName w key]) none w₃ := by
  obtain ⟨place, hends, hfind, hplain, hset⟩ := sets_of_write_scratch hlink hwrite
  have hends' := hends.mono (hset.carries hplain) hset.cwd
  exact ⟨place, _, hends'.unlink hset.at?_self nofun, hfind, hplain,
    hset.trans (sets_remove hset.at?_self nofun)⟩

lemma not_has_scratch_opened (h : w.LinkFree (scratchName w key)) (target : String) :
    ¬ (s.opened w).Has s.folder (scratchName (s.opened w) key) (.link target) := by
  rw [scratchName_congr (adds_opened s w).processId]
  exact ((adds_opened s w).linkFree h).not_has s.folder target

/-- A failure leaves no more than directories, and no scratch file that was written. -/
lemma alters_of_save_error {e : StoreError} (hscratch : w.LinkFree (scratchName w key))
    (h : (s.save key state).run.run w = (.error e, w')) : w.Alters (IsScratch w key) w' := by
  have hadds := adds_opened s w
  have halters := hadds.alters (IsScratch w key)
  rcases eq_opened_or_exists_unlink_of_save h with hw | ⟨-, w₂, hwrite, hw⟩
  · exact hw ▸ halters
  · -- the scratch file was complete, so it is removed
    rw [scratch_congr hadds.processId] at hwrite hw
    obtain ⟨place, w₃, hunlink, -, hplain, hset⟩ :=
      sets_of_unlink_scratch (not_has_scratch_opened hscratch) hwrite
    rw [hunlink] at hw
    rw [hw]
    rw [scratchName_congr hadds.processId] at hplain hset
    exact halters.trans ((hset.alters hplain).mono fun q hq => ⟨place, hq⟩)

/-! ## What is loaded after a state was stored -/

/-- No link has the name of one of the files of a state, and the path of the state leads to an entry
or to a place for one, unless nothing has its name. -/
structure IsSafe (s : StateStore) (key : String) (w : Workspace) : Prop where
  file : w.LinkFree (fileName key)
  scratch : w.LinkFree (scratchName w key)
  folder : (∃ found, w.resolve .follow (s.path key) = .ok found) ∨ w.NameFree (fileName key)

instance : Decidable (s.IsSafe key w) :=
  decidable_of_iff (w.LinkFree (fileName key) ∧ w.LinkFree (scratchName w key) ∧
      ((w.resolve .follow (s.path key)).toOption.isSome ∨ w.NameFree (fileName key)))
    ⟨fun h => ⟨h.1, h.2.1, h.2.2.imp_left Except.isSome_toOption_iff.1⟩,
      fun h => ⟨h.file, h.scratch, h.folder.imp_left Except.isSome_toOption_iff.2⟩⟩

/-- Changes elsewhere do not change the file of a state. -/
lemma IsSafe.has_iff (hsafe : s.IsSafe key w) (h : w.Alters P w')
    (hP : ∀ dir, ¬ P (dir ++ [fileName key])) {e : Entry} (he : e ≠ .directory) :
    w'.Has s.folder (fileName key) e ↔ w.Has s.folder (fileName key) e := by
  rcases hsafe.folder with ⟨found, hfound⟩ | hfree
  · have hname := isFileName_fileName key
    rw [path_eq] at hfound
    obtain ⟨place, hends⟩ := exists_ends hname.isName (segments_inside hname) hfound
    have hfind := ((ends_inside_iff (folder_text_ne s) hname).1 hends).2.2
    exact h.has_iff (stays_of_find hfind h.carries h.cwd) (fun dir _ => hP dir) he
  · -- nothing has the name of the state before, and only a directory may have it afterwards
    constructor
    · rintro ⟨place, -, hat⟩
      have hold := (h.at? _ (hP place) e he).1 hat
      rw [hfree place] at hold
      cases hold
    · rintro ⟨place, -, hat⟩
      rw [hfree place] at hat
      cases hat

/-- A state that was stored is loaded, by a store of the same version, until its file changes. -/
theorem load_of_save (hsafe : s.IsSafe key w) (hfits : state.Fits s.tool)
    (h : (s.save key state).run.run w = (.ok (), w')) : s.load w' key = state := by
  have hadds := adds_opened s w
  obtain ⟨-, w₂, hwrite, hrename⟩ := exists_rename_of_save h
  rw [scratch_congr hadds.processId] at hwrite hrename
  obtain ⟨place, hends, -, hreplaces⟩ :=
    replaces_of_rename (not_has_scratch_opened hsafe.scratch) hwrite hrename
  have hcarries := hreplaces.carries (hadds.linkFree hsafe.file place)
  rw [load_of_ends (hends.mono hcarries hreplaces.cwd) hreplaces.at?_goal,
    TaskState.decode_of_fits hfits]
  rfl

/-- A state that could not be stored leaves the one that was there.  Up to the renaming only
directories and the scratch file have changed, and the renaming is the last step that can fail. -/
theorem load_of_save_error {e : StoreError} (hsafe : s.IsSafe key w)
    (h : (s.save key state).run.run w = (.error e, w')) : s.load w' key = s.load w key := by
  have halters := alters_of_save_error hsafe.scratch h
  refine load_congr (hsafe.file.not_has s.folder) fun _ he => ?_
  exact hsafe.has_iff halters (not_isScratch w key key) he

end StateStore

namespace StateCache

variable {c c' : StateCache} {w w' : Workspace} {state : TaskState}

/-! ## Caches -/

/-- Nothing is in the way of a cache. -/
def IsSafe (c : StateCache) (w : Workspace) : Prop :=
  match c with
  | memory _ => True
  | stored store key => store.IsSafe key w

instance : Decidable (c.IsSafe w) :=
  match c with
  | memory _ => .isTrue trivial
  | stored store key => inferInstanceAs (Decidable (store.IsSafe key w))

/-- The state is not too long for the cache: in memory there is room for all states, in a store for
those that fit into a file. -/
def Holds (c : StateCache) (state : TaskState) : Prop :=
  match c with
  | memory _ => True
  | stored store _ => state.Fits store.tool

instance : Decidable (c.Holds state) :=
  match c with
  | memory _ => .isTrue trivial
  | stored store _ => inferInstanceAs (Decidable (state.Fits store.tool))

/-- A state that was kept is there, be it kept in memory or in a store. -/
theorem get_of_set (hsafe : c.IsSafe w) (hholds : c.Holds state)
    (h : (c.set state).run.run w = (.ok c', w')) : c'.get w' = state := by
  cases c with
  | memory held =>
    cases h
    rfl
  | stored store key =>
    unfold set at h
    rw [Computation.run_bind] at h
    split at h
    · next u w₁ hsave =>
      obtain ⟨hcache, hw⟩ := Computation.eq_of_ok h
      rw [← hcache, ← hw]
      show store.load w₁ key = state
      exact StateStore.load_of_save hsafe hholds hsave
    · exact absurd h Computation.not_ok_of_error

/-- A state that could not be kept leaves the one that was there; in memory a state can always be
kept. -/
theorem get_of_set_error {e : StoreError} (hsafe : c.IsSafe w)
    (h : (c.set state).run.run w = (.error e, w')) : c.get w' = c.get w := by
  cases c with
  | memory held => cases h
  | stored store key =>
    unfold set at h
    rw [Computation.run_bind] at h
    split at h
    · exact absurd h Computation.not_error_of_ok
    · next w₁ hsave =>
      rw [← Computation.state_eq_of_error h]
      show store.load w₁ key = store.load w key
      exact StateStore.load_of_save_error hsafe hsave

end StateCache

end IncludeDeps

import IncludeDeps.Proofs.Workspace.Changes

/-!
# Writing a header dependencies file

The file is written under a scratch name, and takes its place when it is complete.  So it is replaced as
a whole (`HeaderMap.exists_replaces_of_write`), and a failure leaves nothing but directories for it
(`HeaderMap.makes_of_write_error`), if nothing stood in the place of the scratch file before.

* `HeaderMap.opened` is the tree with the directories, and `HeaderMap.publish` what comes after them;
* `HeaderMap.IsClear` is what is asked of the place of the scratch file.  A file there would be
  overwritten, and a link followed, so that another file than the scratch file is renamed and removed;
* `HeaderMap.replaces_of_publish` opens the steps after the directories, and is all that is said of
  them where there may be a file but no link in this place.
-/

namespace IncludeDeps.HeaderMap

open Workspace

variable {m : HeaderMap} {path : Path} {hasher : Workspace → Path → Except Fault Digest}
  {w w' v : Workspace} {place : Place} {name : String} {x : Bytes}

/-! ## The steps -/

/-- The directories that the path names before the file. -/
def parents (path : Path) : List Path := (path.parent?.map Path.around).getD []

/-- The tree in which the directories of the file have been made, as far as this is possible. -/
def opened (path : Path) (w : Workspace) : Workspace := ((createEach (parents path)).run.run w).2

/-- What is left when the scratch file has been removed. -/
def cleaned (p : Path) (w : Workspace) : Workspace := (w.unlink p).toOption.getD w

/-- What comes of the file when its directories are there: the steps of `HeaderMap.write` one by
one, with the workspace that each of them leaves. -/
def publish (m : HeaderMap) (path : Path) (hasher : Workspace → Path → Except Fault Digest)
    (w : Workspace) : Except Fault Unit × Workspace :=
  match w.write (scratch w path) [] with
  | .error e => (.error e, cleaned (scratch w path) w)
  | .ok w₁ =>
    match m.records (hasher w₁) with
    | .error e => (.error e, cleaned (scratch w path) w₁)
    | .ok records =>
      match w₁.write (scratch w path) (content records) with
      | .error e => (.error e, cleaned (scratch w path) w₁)
      | .ok w₂ =>
        match w₂.rename (scratch w path) path with
        | .error e => (.error e, cleaned (scratch w path) w₂)
        | .ok w₃ => (.ok (), w₃)

/-- The steps by which the file is written. -/
lemma write_run (m : HeaderMap) (path : Path) (hasher : Workspace → Path → Except Fault Digest)
    (w : Workspace) : (m.write path hasher).run.run w =
      match (createEach (parents path)).run.run w with
      | (.error e, w₁) => (.error ⟨path, e⟩, w₁)
      | (.ok (), w₁) => ((m.publish path hasher w₁).1.mapError (⟨path, ·⟩),
          (m.publish path hasher w₁).2) := by
  -- what comes after the directories is `publish`, step by step
  have hpublish : ∀ w₁ : Workspace, (WorkspaceM.onFailure
      (do
        WorkspaceM.change (·.write (scratch w₁ path) [])
        let records ← WorkspaceM.ask fun w => m.records (hasher w)
        WorkspaceM.change (·.write (scratch w₁ path) (content records))
        WorkspaceM.change (·.rename (scratch w₁ path) path))
      fun w => (w.unlink (scratch w₁ path)).toOption.getD w).run.run w₁ =
        m.publish path hasher w₁ := by
    intro w₁
    simp only [WorkspaceM.run_onFailure, Computation.run_bind, WorkspaceM.run_change,
      WorkspaceM.run_ask, publish]
    cases w₁.write (scratch w₁ path) [] with
    | error e => rfl
    | ok w₂ =>
      simp only
      cases m.records (hasher w₂) with
      | error e => rfl
      | ok records =>
        simp only
        cases w₂.write (scratch w₁ path) (content records) with
        | error e => rfl
        | ok w₃ =>
          simp only
          cases w₃.rename (scratch w₁ path) path with
          | error e => rfl
          | ok w₄ => rfl
  unfold write parents
  rw [WorkspaceM.run_mapError]
  cases path.parent? with
  | none =>
    rw [Computation.run_get_bind, hpublish]
    rfl
  | some dir =>
    rw [Computation.run_bind]
    rcases hmade : (createEach dir.around).run.run w with ⟨r, w₁⟩
    have hmade' : (createDirectories dir).run.run w = (r, w₁) := hmade
    simp only [Option.map_some, Option.getD_some, hmade, hmade']
    cases r with
    | error e => rfl
    | ok u =>
      simp only
      rw [Computation.run_get_bind, hpublish]

/-! ## What becomes of the files -/

lemma exists_segments_scratch (w : Workspace) (path : Path) :
    ∃ names name, IsName name ∧ segments (scratch w path).text = names ++ [name] := by
  obtain ⟨names, name, hnames⟩ := exists_segments_append (slash_scratch w.processId) path.text
  rw [← String.append_assoc] at hnames
  exact ⟨names, _, isName_scratch name w.processId, hnames⟩

/-- Only a directory may stand in the place of the scratch file. -/
def IsFree (p : Path) (w : Workspace) : Prop :=
  ∀ place name, w.Ends p place name →
    w.at? (place ++ [name]) = none ∨ w.at? (place ++ [name]) = some .directory

lemma IsFree.not_link {p : Path} (hfree : IsFree p w) (hends : w.Ends p place name)
    (target : String) : w.at? (place ++ [name]) ≠ some (.link target) := by
  intro hat
  rcases hfree place name hends with h | h
  · rw [hat] at h
    cases h
  · rw [hat] at h
    cases h

lemma IsFree.at?_eq {p : Path} (hfree : IsFree p w) (hends : w.Ends p place name)
    (hplain : IsPlain (w.at? (place ++ [name]))) : w.at? (place ++ [name]) = none :=
  (hfree place name hends).resolve_right hplain.1

/-- A scratch file that was not written need not be removed. -/
lemma IsFree.cleaned_eq {p : Path} (hfree : IsFree p w) : cleaned p w = w := by
  unfold cleaned
  cases hunlink : w.unlink p with
  | error e => rfl
  | ok v =>
    obtain ⟨place, name, e, hends, hat, he, -⟩ := exists_ends_of_unlink hunlink
    rcases hfree place name hends with h | h
    · rw [hat] at h
      cases h
    · rw [hat] at h
      exact absurd (Option.some.inj h) he

/-- When the scratch file has been removed, the files are what they were before it was written. -/
lemma makes_cleaned {p : Path} (hends : w.Ends p place name)
    (hset : w.Sets (place ++ [name]) (some (.file x)) v)
    (hnone : w.at? (place ++ [name]) = none) (l : List Path) : w.Makes l (cleaned p v) := by
  have hends' := hends.mono (hset.carries (by rw [hnone]; exact isPlain_none)) hset.cwd
  have hremoved := hset.trans (sets_remove hset.at?_self nofun)
  unfold cleaned
  rw [hends'.unlink hset.at?_self nofun]
  refine makes_of_at?_eq hremoved.cwd hremoved.processId (fun q => ?_) l
  by_cases hq : q = place ++ [name]
  · rw [hq, hnone]
    exact hremoved.at?_self
  · exact hremoved.at?_of_ne hq

/-- A file that cannot be published leaves nothing.  The scratch file is removed again wherever the
failure is, and its place was free before: this is what is asked of its name. -/
lemma makes_of_publish {e : Fault} (hfree : IsFree (scratch w path) w)
    (h : m.publish path hasher w = (.error e, w')) (l : List Path) : w.Makes l w' := by
  obtain ⟨names, last, hlast, hsegments⟩ := exists_segments_scratch w path
  unfold publish at h
  split at h
  · cases h
    rw [hfree.cleaned_eq]
    exact .refl l w
  next w₁ hwrite =>
  obtain ⟨place, hends, hplain, hset⟩ :=
    sets_of_write hlast hsegments (fun _ hends => hfree.not_link hends) hwrite
  have hnone := hfree.at?_eq hends hplain
  split at h
  · cases h
    exact makes_cleaned hends hset hnone l
  next records hrecords =>
  split at h
  · cases h
    exact makes_cleaned hends hset hnone l
  next w₂ hwrite' =>
  -- the second write is to the file that the first one has made
  have hends₁ := hends.mono (hset.carries hplain) hset.cwd
  obtain ⟨place', hends', -, hset'⟩ := sets_of_write hlast hsegments (fun _ hends₂ target => by
    rw [(hends₂.unique hends₁).1, hset.at?_self]
    nofun) hwrite'
  obtain ⟨rfl, -⟩ := hends₁.unique hends'
  split at h
  · cases h
    exact makes_cleaned hends (hset.trans hset') hnone l
  · cases h

/-- The steps by which a file was published: the headers are digested when the scratch file is there, and
this takes the place of the file when the records are in it. -/
lemma exists_steps_of_publish (h : m.publish path hasher w = (.ok (), w')) :
    ∃ w₁ records w₂, w.write (scratch w path) [] = .ok w₁ ∧ m.records (hasher w₁) = .ok records ∧
      w₁.write (scratch w path) (content records) = .ok w₂ ∧ w₂.rename (scratch w path) path = .ok w' := by
  unfold publish at h
  split at h
  · cases h
  next w₁ hbegin =>
  split at h
  · cases h
  next records hrecords =>
  split at h
  · cases h
  next w₂ hwrite =>
  split at h
  · cases h
  next w₃ hrename =>
  cases h
  exact ⟨w₁, records, w₂, hbegin, hrecords, hwrite, hrename⟩

/-- What is published is replaced as a whole by the records of the headers.  The scratch file may be one
that is left over, but it must not be written through a link. -/
lemma replaces_of_publish
    (hlink : ∀ place name, w.Ends (scratch w path) place name → ∀ target,
      w.at? (place ++ [name]) ≠ some (.link target))
    (h : m.publish path hasher w = (.ok (), w')) :
    ∃ w₁ records place name dir name', w.write (scratch w path) [] = .ok w₁ ∧
      m.records (hasher w₁) = .ok records ∧ w.Ends (scratch w path) place name ∧ w.Ends path dir name' ∧
      w.Replaces (place ++ [name]) (dir ++ [name']) (content records) w' := by
  obtain ⟨names, last, hlast, hsegments⟩ := exists_segments_scratch w path
  obtain ⟨w₁, records, w₂, hwrite, hrecords, hwrite', hrename⟩ := exists_steps_of_publish h
  obtain ⟨place, hends, hplain, hset⟩ :=
    sets_of_write hlast hsegments (fun place hends => hlink place last hends) hwrite
  -- the scratch file is written twice, first empty and then with the records, so only the second
  -- content matters
  have hends₁ := hends.mono (hset.carries hplain) hset.cwd
  obtain ⟨place', dir, name', hends', htarget, hreplaces⟩ := exists_replaces hlast hsegments
    (fun _ hends₂ target => by
      rw [(hends₂.unique hends₁).1, hset.at?_self]
      nofun) hwrite' hrename
  obtain ⟨rfl, -⟩ := hends₁.unique hends'
  have htarget' := htarget.mono (hset.carries_symm (isPlain_file _)) hset.cwd.symm
  exact ⟨w₁, records, place, last, dir, name', hwrite, hrecords, hends, htarget',
    hset.replaces hplain hreplaces⟩

/-- A file that is published is replaced as a whole. -/
lemma exists_replaces_of_publish (hfree : IsFree (scratch w path) w)
    (h : m.publish path hasher w = (.ok (), w')) :
    ∃ x place name dir name', w.Ends (scratch w path) place name ∧ w.Ends path dir name' ∧
      w.Replaces (place ++ [name]) (dir ++ [name']) x w' := by
  obtain ⟨-, records, place, name, dir, name', -, -, hends, htarget, hreplaces⟩ :=
    replaces_of_publish (fun _ _ hends => hfree.not_link hends) h
  exact ⟨_, place, name, dir, name', hends, htarget, hreplaces⟩

/-- Nothing has stood in the place of the scratch file, wherever this is when the directories are
there. -/
def IsClear (path : Path) (w : Workspace) : Prop :=
  ∀ place name, (opened path w).Ends (scratch w path) place name → w.at? (place ++ [name]) = none

lemma isClear_of_nameFree (hname : (segments (scratch w path).text).getLast? = some name)
    (hfree : w.NameFree name) : IsClear path w := by
  intro place name' hends
  obtain ⟨names, hp, -⟩ := hends.leads
  rw [hp, List.getLast?_concat] at hname
  cases hname
  exact hfree place

lemma makes_opened (path : Path) (w : Workspace) : w.Makes (parents path) (opened path w) :=
  makes_createEach _ w

lemma IsClear.isFree (h : IsClear path w) :
    IsFree (scratch (opened path w) path) (opened path w) := by
  have hmakes := makes_opened path w
  intro place name hends
  rw [scratch, hmakes.processId, ← scratch] at hends
  exact hmakes.added _ (h place name hends)

/-- What a failure leaves is directories for the file.  A scratch file that was made is removed
again, and the old file is as it was. -/
theorem makes_of_write_error {e : HeaderFileError} (hclear : IsClear path w)
    (h : (m.write path hasher).run.run w = (.error e, w')) : w.Makes (parents path) w' := by
  have hmakes := makes_opened path w
  rw [write_run] at h
  split at h
  · next hmade =>
    obtain rfl : opened path w = _ := congrArg Prod.snd hmade
    cases h
    exact hmakes
  · next hmade =>
    obtain rfl : opened path w = _ := congrArg Prod.snd hmade
    rcases hpublish : m.publish path hasher (opened path w) with ⟨r, v⟩
    rw [hpublish] at h
    cases r with
    | ok u => cases h
    | error e =>
      cases h
      exact hmakes.trans (makes_of_publish hclear.isFree hpublish _)

/-- A file that was written was replaced as a whole, after directories were made for it.  There is
no point in between at which half of it could be read. -/
theorem exists_replaces_of_write (hclear : IsClear path w)
    (h : (m.write path hasher).run.run w = (.ok (), w')) :
    ∃ x place name dir name', (opened path w).Ends (scratch w path) place name ∧
      (opened path w).Ends path dir name' ∧
      (opened path w).Replaces (place ++ [name]) (dir ++ [name']) x w' := by
  have hprocess := (makes_opened path w).processId
  rw [write_run] at h
  split at h
  · cases h
  · next hmade =>
    obtain rfl : opened path w = _ := congrArg Prod.snd hmade
    rcases hpublish : m.publish path hasher (opened path w) with ⟨r, v⟩
    rw [hpublish] at h
    cases r with
    | error e => cases h
    | ok u =>
      cases h
      have hreplaces := exists_replaces_of_publish hclear.isFree hpublish
      rw [scratch, hprocess, ← scratch] at hreplaces
      exact hreplaces

end IncludeDeps.HeaderMap

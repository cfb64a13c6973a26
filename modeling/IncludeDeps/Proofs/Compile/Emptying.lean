import IncludeDeps.Proofs.Compile
import IncludeDeps.Proofs.Config.Scanning

/-!
# Emptying the directory of the object files

A full compilation step removes what is in the directory of the object files, and then calls the
compiler.

* `Workspace.Thins` is a workspace that has lost something below a directory, and nothing else;
* `Workspace.removeEntry_or` is about one entry, and `Workspace.clears_of_removeEntries` about all of
  them: an entry goes, with what is below it, unless its path does not lead to it;
* `Workspace.empties_of_emptyDirectory` tells what becomes of the directory;
* `compile_of_full` is the whole step;
* `StateStore.IsApart.load_of_empties` is about a cache that lies apart from the directory
  (`StateStore.IsApart`), and `CompileStep.spares_of_isApart` about a step of a build with such a cache.

A link is removed like a file.  That it is not followed is part of `Workspace.Thins`: nothing changes
outside the directory, wherever the links in it lead.

The path of a cache may lead through the directory of the object files and out of it again, by a link in
it or by two dots.  Then the cache is not lost but no longer found, so it does not lie apart.  For a path
without links and dots it is enough that the cache is not in the directory
(`StateStore.isApart_of_plain`).
-/

namespace IncludeDeps

namespace Workspace

variable {w w' w'' : Workspace} {place q : Place} {name : String} {names : List String} {entry : Entry}
  {dir p : Path}

/-! ## Less below a directory -/

/-- A workspace that lacks some of what was below a directory.  All else, and the directory itself, is
as it was. -/
structure Thins (w : Workspace) (place : Place) (w' : Workspace) : Prop where
  cwd : w'.cwd = w.cwd
  processId : w'.processId = w.processId
  at? : ∀ q, w'.at? q = w.at? q ∨ w'.at? q = none ∧ place <+: q ∧ q ≠ place

lemma Thins.refl (w : Workspace) (place : Place) : w.Thins place w := ⟨rfl, rfl, fun _ => .inl rfl⟩

lemma Thins.trans (h : w.Thins place w') (h' : w'.Thins place w'') : w.Thins place w'' where
  cwd := h'.cwd.trans h.cwd
  processId := h'.processId.trans h.processId
  at? q := by
    rcases h'.at? q with heq | hgone
    · rw [heq]
      exact h.at? q
    · exact .inr hgone

lemma Thins.at?_eq (h : w.Thins place w') (hat : w'.at? q = some entry) : w.at? q = some entry := by
  rcases h.at? q with heq | ⟨hnone, -⟩
  · rw [← heq, hat]
  · rw [hnone] at hat
    cases hat

lemma Thins.at?_eq_none (h : w.Thins place w') (hnone : w.at? q = none) : w'.at? q = none := by
  rcases h.at? q with heq | ⟨hgone, -⟩
  · rw [heq, hnone]
  · exact hgone

lemma Thins.at?_outside (h : w.Thins place w') (hq : ¬ place <+: q) : w'.at? q = w.at? q :=
  (h.at? q).resolve_right fun hgone => hq hgone.2.1

lemma Thins.carries (h : w.Thins place w') : w'.Carries w := ⟨fun _ => h.at?_eq, fun _ _ => h.at?_eq⟩

lemma thins_remove (w : Workspace) (place : Place) (name : String) :
    w.Thins place (w.remove (place ++ [name])) where
  cwd := rfl
  processId := rfl
  at? q := by
    rw [at?_remove_below (append_singleton_ne_nil place name)]
    split
    · next hbelow =>
      refine .inr ⟨rfl, (List.prefix_append place [name]).trans hbelow, ?_⟩
      rintro rfl
      exact absurd hbelow.length_le (by simp)
    · exact .inl rfl

/-- There is nothing below a directory without entries. -/
lemma at?_eq_none_of_names (h : ∀ name, w.at? (place ++ [name]) = none) (hq : place <+: q)
    (hne : q ≠ place) : w.at? q = none := by
  obtain ⟨names, rfl⟩ := hq
  cases names with
  | nil => simp at hne
  | cons name rest =>
    rw [List.append_cons]
    by_contra hsome
    obtain ⟨entry, hat⟩ := Option.ne_none_iff_exists'.1 hsome
    -- the first name on the way is one of the directory
    rcases List.eq_nil_or_concat rest with rfl | ⟨init, last, rfl⟩
    · rw [List.append_nil, h] at hat
      cases hat
    · rw [List.concat_eq_append, ← List.append_assoc] at hat
      have hfirst := at?_of_append_directory (at?_of_append hat)
      rw [h] at hfirst
      cases hfirst

/-! ## One entry -/

/-- The entry at the end of a path is removed, with all that is below it.  A link is not followed. -/
lemma Ends.removeEntry (h : w.Ends p place name) (hat : w.at? (place ++ [name]) = some entry) :
    (IncludeDeps.removeEntry p).run.run w = (.ok (), w.remove (place ++ [name])) := by
  have hresolve : w.resolve .keepLink p = .ok (.entry (place ++ [name]) entry) := by
    rw [h.resolve fun hlast => absurd rfl hlast, hat]
    rfl
  rw [IncludeDeps.removeEntry, WorkspaceM.run_mapError, WorkspaceM.run_change]
  cases entry with
  | directory =>
    simp only [hresolve, removeTree]
    rfl
  | file x =>
    simp only [hresolve, h.unlink hat nofun]
    rfl
  | link target =>
    simp only [hresolve, h.unlink hat nofun]
    rfl

/-- What cannot be removed is left alone, and the failure names its path. -/
lemma removeEntry_of_not_ends (hname : IsName name) (hp : segments p.text = names ++ [name])
    (h : ∀ place name, ¬ w.Ends p place name) :
    ∃ fault, (removeEntry p).run.run w = (.error (.clean p fault), w) := by
  rw [removeEntry, WorkspaceM.run_mapError, WorkspaceM.run_change]
  split
  · next w' hremove =>
    split at hremove
    · next hresolve =>
      obtain ⟨place, hends⟩ := exists_ends hname hp hresolve
      exact absurd hends (h place name)
    · obtain ⟨place, name, entry, hends, -⟩ := exists_ends_of_unlink hremove
      exact absurd hends (h place name)
  · next fault hremove => exact ⟨fault, rfl⟩

/-- The path of an entry does not lead to it: it is too long, or the directory is no longer where the
path of the directory leads. -/
def IsLost (w : Workspace) (dir : Path) (place : Place) (name : String) : Prop :=
  pathLimit ≤ (dir.join ⟨name⟩).byteSize ∨ w.find dir ≠ .ok (place, .directory)

/-- An entry of the directory is removed, unless its path does not lead to it. -/
lemma removeEntry_or (hw : w.IsOrdinary) (hfind : w.find dir = .ok (place, .directory))
    (hthins : w.Thins place w') (hat : w'.at? (place ++ [name]) = some entry) :
    (removeEntry (dir.join ⟨name⟩)).run.run w' = (.ok (), w'.remove (place ++ [name])) ∨
      w'.IsLost dir place name ∧ ∃ fault,
        (removeEntry (dir.join ⟨name⟩)).run.run w' = (.error (.clean (dir.join ⟨name⟩) fault), w') := by
  obtain ⟨hname, hsize⟩ := hw.of_at? (hthins.at?_eq hat) name (by simp)
  by_cases hends : ∃ place' name', w'.Ends (dir.join ⟨name⟩) place' name'
  · obtain ⟨place', name', hends⟩ := hends
    -- where the path leads now it has led before, and there it led to the entry
    have hthere := ends_join hname hsize hfind (checkText_eq_ok_iff.1 hends.check).2
    obtain ⟨rfl, rfl⟩ := (hends.mono hthins.carries hthins.cwd.symm).unique hthere
    exact .inl (hends.removeEntry hat)
  · refine .inr ⟨?_, ?_⟩
    · by_contra hfound
      rw [IsLost, not_or, not_le, not_not] at hfound
      exact hends ⟨place, name, ends_join hname hsize hfound.2 hfound.1⟩
    · obtain ⟨t, ht, -⟩ := join_cases (find_eq_iff.1 hfind).text_ne hname.slash
      have hp : segments (dir.join ⟨name⟩).text = segments t ++ [name] := by
        rw [ht, segments_inside hname.toIsFileName]
      exact removeEntry_of_not_ends hname.isName hp fun place' name' h => hends ⟨place', name', h⟩

/-! ## All entries -/

/-- What comes of removing entries of a directory: they are gone, or one of them cannot be removed. -/
inductive Clears (w : Workspace) (dir : Path) (place : Place) (names : List String) :
    Except CompileError Unit × Workspace → Prop
  | done {w' : Workspace} (hthins : w.Thins place w')
    (hgone : ∀ name ∈ names, w'.at? (place ++ [name]) = none) :
    Clears w dir place names (.ok (), w')
  | stuck {w' : Workspace} {name : String} {entry : Entry} {fault : Fault}
    (hthins : w.Thins place w') (hat : w'.at? (place ++ [name]) = some entry)
    (hlost : w'.IsLost dir place name) :
    Clears w dir place names (.error (.clean (dir.join ⟨name⟩) fault), w')

lemma Clears.cons {run : Except CompileError Unit × Workspace} (hthins : w.Thins place w')
    (hnone : w'.at? (place ++ [name]) = none) (h : w'.Clears dir place names run) :
    w.Clears dir place (name :: names) run := by
  cases h with
  | done hthins' hgone =>
    refine .done (hthins.trans hthins') fun other hother => ?_
    rcases List.mem_cons.1 hother with rfl | hother
    · exact hthins'.at?_eq_none hnone
    · exact hgone other hother
  | stuck hthins' hat hlost => exact .stuck (hthins.trans hthins') hat hlost

/-- Entries are removed one after another.  Either all of them are gone in the end, or the first
one whose path does not lead to it stops the removal, and what was removed before stays away. -/
theorem clears_of_removeEntries (hw : w.IsOrdinary) (hfind : w.find dir = .ok (place, .directory))
    (hthins : w.Thins place w') (hnodup : names.Nodup)
    (hnames : ∀ name ∈ names, ∃ entry, w'.at? (place ++ [name]) = some entry) :
    w'.Clears dir place names
      ((removeEntries (names.map fun name => dir.join ⟨name⟩)).run.run w') := by
  -- `w` is the workspace in which the path of the directory was looked up
  induction names generalizing w' with
  | nil => exact .done (.refl w' place) nofun
  | cons name rest ih =>
    obtain ⟨hnew, hrest⟩ := List.nodup_cons.1 hnodup
    obtain ⟨entry, hat⟩ := hnames name List.mem_cons_self
    rw [List.map_cons, removeEntries, Computation.run_bind]
    rcases removeEntry_or hw hfind hthins hat with hrun | ⟨hlost, fault, hrun⟩
    · have hremove := fun q => w'.at?_remove_below (append_singleton_ne_nil place name) q
      have hnone := hremove (place ++ [name])
      rw [if_pos (List.prefix_refl _)] at hnone
      have hothers : ∀ other ∈ rest, ∃ entry,
          (w'.remove (place ++ [name])).at? (place ++ [other]) = some entry := by
        intro other hother
        obtain ⟨entry, hat⟩ := hnames other (List.mem_cons_of_mem _ hother)
        refine ⟨entry, ?_⟩
        rw [hremove, if_neg, hat]
        rw [List.prefix_append_right_inj, List.singleton_prefix_cons_iff]
        rintro rfl
        exact hnew hother
      have hthins' := thins_remove w' place name
      rw [hrun]
      exact .cons hthins' hnone (ih (hthins.trans hthins') hrest hothers)
    · rw [hrun]
      exact .stuck (.refl w' place) hat hlost

/-! ## The directory -/

/-- What comes of emptying a directory.  All that is in it is gone, or something that is in it cannot be
removed; in both cases the directory is still there, and nothing has changed but below it. -/
inductive Empties (w : Workspace) (dir : Path) : Except CompileError Nat × Workspace → Prop
  /-- There is no directory. -/
  | missing (hfind : w.find dir = .error .notFound) : Empties w dir (.ok 0, w)
  /-- There is nothing left below the directory. -/
  | emptied {place : Place} {w' : Workspace} (hfind : w.find dir = .ok (place, .directory))
    (hthins : w.Thins place w') (hgone : ∀ q, place <+: q → q ≠ place → w'.at? q = none) :
    Empties w dir (.ok (w.names place).length, w')
  /-- The path leads nowhere for another reason. -/
  | unread {fault : Fault} (hfind : w.find dir = .error fault) (hfault : fault ≠ .notFound) :
    Empties w dir (.error (.clean dir fault), w)
  /-- The path leads to something else. -/
  | blocked {place : Place} {entry : Entry} (hfind : w.find dir = .ok (place, entry))
    (hentry : entry ≠ .directory) :
    Empties w dir (.error (.clean dir .notADirectory), w)
  /-- An entry is left, because its path does not lead to it. -/
  | stuck {place : Place} {w' : Workspace} {name : String} {entry : Entry} {fault : Fault}
    (hfind : w.find dir = .ok (place, .directory)) (hthins : w.Thins place w')
    (hat : w'.at? (place ++ [name]) = some entry) (hlost : w'.IsLost dir place name) :
    Empties w dir (.error (.clean (dir.join ⟨name⟩) fault), w')

/-- A directory is emptied entry by entry.  `Workspace.Empties` lists what may come of it: the
directory is missing, or cannot be looked up, or is none, or it is empty in the end, or something
in it could not be removed. -/
theorem empties_of_emptyDirectory (hw : w.IsOrdinary) (dir : Path) :
    w.Empties dir ((emptyDirectory dir).run.run w) := by
  rw [emptyDirectory, Computation.run_get_bind]
  split
  · next hfind => exact .missing hfind
  · next fault hfault hfind => exact .unread hfind hfault
  · next place hfind =>
    -- the names are listed once, at the start, and none of them comes twice
    have hclears := clears_of_removeEntries hw hfind (.refl w place) (nodup_names w place)
      fun name hname => mem_names_iff.1 hname
    simp only
    rw [Computation.run_bind]
    generalize (removeEntries ((w.names place).map fun name => dir.join ⟨name⟩)).run.run w = run
      at hclears
    cases hclears with
    | @done w' hthins hgone =>
      have hnone : ∀ name, w'.at? (place ++ [name]) = none := by
        intro name
        cases hat : w'.at? (place ++ [name]) with
        | none => rfl
        | some entry =>
          have hname := mem_names_iff.2 ⟨entry, hthins.at?_eq hat⟩
          rw [hgone name hname] at hat
          cases hat
      simp only [List.length_map]
      exact .emptied hfind hthins fun q => at?_eq_none_of_names hnone
    | stuck hthins hat hlost => exact .stuck hfind hthins hat hlost
  · next found hdirectory hfind =>
    obtain ⟨place, entry⟩ := found
    exact .blocked hfind fun hentry => hdirectory place (by rw [hentry])

/-! ## Beside the directory -/

/-- What is left when nothing is left below a directory.  The directory itself stays, and so does
all that lies beside it. -/
def cleared (w : Workspace) (place : Place) : Workspace :=
  { w with
    entries := w.entries.filter fun q _ => !(place.isPrefixOf q && place.length < q.length)
    grounded := by
      intro e he
      obtain ⟨he, hkept⟩ := List.mem_filter.1 he
      obtain ⟨d, name, hname, hd⟩ := w.grounded e he
      refine ⟨d, name, hname, hd.imp_right fun hd => List.mem_filter.2 ⟨hd, ?_⟩⟩
      rw [hname] at hkept
      simp only [Bool.not_eq_true', Bool.and_eq_false_imp, List.isPrefixOf_iff_prefix,
        decide_eq_false_iff_not, not_lt, List.length_append, List.length_singleton] at hkept ⊢
      intro hbelow
      have hlength := hkept (hbelow.trans (List.prefix_append d [name]))
      omega }

lemma at?_cleared_eq_some_iff :
    (w.cleared place).at? q = some entry ↔ w.at? q = some entry ∧ (place <+: q → q = place) := by
  by_cases hq : q = []
  · rw [hq]
    exact ⟨fun h => ⟨h, fun hbelow => (List.prefix_nil.1 hbelow).symm⟩, And.left⟩
  · rw [at?_eq_get? hq, at?_eq_get? hq]
    refine OrderedMap.get?_filter.trans (and_congr_right fun _ => ?_)
    simp only [Bool.not_eq_true', Bool.and_eq_false_imp, List.isPrefixOf_iff_prefix,
      decide_eq_false_iff_not, not_lt]
    refine forall_congr' fun hbelow => ⟨fun hlength => ?_, fun heq => heq ▸ le_rfl⟩
    exact (hbelow.eq_of_length_le hlength).symm

/-- What there is beside the directory is still there when something below it is gone. -/
lemma Thins.carries_cleared (h : w.Thins place w') : (w.cleared place).Carries w' := by
  have hkept : ∀ q entry, (w.cleared place).at? q = some entry → w'.at? q = some entry := by
    intro q entry hat
    obtain ⟨hold, hbeside⟩ := at?_cleared_eq_some_iff.1 hat
    rcases h.at? q with heq | ⟨-, hbelow, hne⟩
    · rw [heq, hold]
    · exact absurd (hbeside hbelow) hne
  exact ⟨fun q => hkept q _, fun q _ => hkept q _⟩

/-- A folder whose path has no links and no dots is found without what is below a directory, unless it
lies there itself. -/
theorem find_cleared_of_plain {folder : Path} {inner : Place} (hw : w.IsOrdinary) (hne : inner ≠ [])
    (hfolder : folder = Path.ofComponents (.root :: inner.map .name))
    (hfind : w.find folder = .ok (inner, .directory)) (hout : ¬ place <+: inner) :
    (w.cleared place).find folder = .ok (inner, .directory) := by
  obtain ⟨htext, hcheck, hstart, hleads⟩ := find_eq_iff.1 hfind
  have hdir : w.at? inner = some .directory := hleads.at?_eq hstart
  have hentries := hw.of_at? hdir
  have hnames : ∀ s ∈ inner, IsFileName s := fun s hs => (hentries s hs).1.toIsFileName
  have hsegments := segments_ofComponents hnames hne
  have hcomponents := Path.components_ofComponents (areCanonical_names hnames)
  rw [← hfolder] at hsegments hcomponents
  -- the path is absolute and has no dots, so each step of its lookup is at one of its own prefixes
  have horigin : origin folder.text w.cwd = [] := by
    rw [origin, if_pos (isAbsolute_iff.1 (isAbsolute_of_components hcomponents).1)]
  have hkept : (w.cleared place).at? inner = some .directory :=
    at?_cleared_eq_some_iff.2 ⟨hdir, fun hbelow => absurd hbelow hout⟩
  refine find_eq_iff.2 ⟨htext, hcheck, ?_, ?_⟩
  · show (w.cleared place).at? (origin folder.text w.cwd) = _
    rw [horigin]
    rfl
  · show (w.cleared place).Leads linkLimit (origin folder.text w.cwd) _ _
    rw [horigin, hsegments]
    exact .stay (.inl rfl) ((leads_place hentries hkept).weaken (Nat.zero_le _))

end Workspace

/-! ## A cache beside the directory -/

namespace StateStore

open Workspace

/-- A state lies apart from a directory: its folder is not in the directory, the path of the folder does
not depend on what is below the directory, and the file of the state is no link, which might lead there. -/
structure IsApart (s : StateStore) (key : String) (w : Workspace) (dir : Path) : Prop where
  file : ∀ target, ¬ w.Has s.folder (fileName key) (.link target)
  folder : ∀ place inner, w.find dir = .ok (place, .directory) →
    w.find s.folder = .ok (inner, .directory) →
      ¬ place <+: inner ∧ (w.cleared place).find s.folder = .ok (inner, .directory)

variable {s : StateStore} {key : String} {w w' : Workspace} {dir : Path} {place inner : Place}

/-- A folder whose path has no links and no dots lies apart from all directories that it is not in. -/
theorem isApart_of_plain (hw : w.IsOrdinary) (hne : inner ≠ [])
    (hfolder : s.folder = Path.ofComponents (.root :: inner.map .name))
    (hfind : w.find s.folder = .ok (inner, .directory))
    (hfile : ∀ target, ¬ w.Has s.folder (fileName key) (.link target))
    (hout : ∀ place, w.find dir = .ok (place, .directory) → ¬ place <+: inner) :
    s.IsApart key w dir where
  file := hfile
  folder place inner' hplace hinner := by
    rw [hfind] at hinner
    cases hinner
    exact ⟨hout place hplace, find_cleared_of_plain hw hne hfolder hfind (hout place hplace)⟩

lemma IsApart.load_of_thins (hapart : s.IsApart key w dir) (hfind : w.find dir = .ok (place, .directory))
    (h : w.Thins place w') : s.load w' key = s.load w key := by
  refine load_congr hapart.file fun e _ => ⟨?_, ?_⟩
  · rintro ⟨inner, hinner, hat⟩
    exact ⟨inner, find_mono hinner h.carries h.cwd.symm, h.at?_eq hat⟩
  · rintro ⟨inner, hinner, hat⟩
    obtain ⟨hout, hcleared⟩ := hapart.folder place inner hfind hinner
    refine ⟨inner, find_mono hcleared h.carries_cleared h.cwd, ?_⟩
    rcases h.at? (inner ++ [fileName key]) with heq | ⟨-, hbelow, hne⟩
    · rw [heq, hat]
    · -- the directory would be the file of the state, or the folder would be in it
      rcases List.prefix_concat_iff.1 hbelow with hself | hin
      · exact absurd hself.symm hne
      · exact absurd hin hout

/-- When a directory is emptied, with or without success, what is loaded stays as it was for all states
that lie apart from it. -/
theorem IsApart.load_of_empties {x : Except CompileError Nat} (hapart : s.IsApart key w dir)
    (h : w.Empties dir (x, w')) : s.load w' key = s.load w key := by
  cases h with
  | missing => rfl
  | emptied hfind hthins => exact hapart.load_of_thins hfind hthins
  | unread => rfl
  | blocked => rfl
  | stuck hfind hthins => exact hapart.load_of_thins hfind hthins

end StateStore

/-- A cache lies apart from a directory.  One in memory always does. -/
def StateCache.IsApart (c : StateCache) (w : Workspace) (dir : Path) : Prop :=
  match c with
  | memory _ => True
  | stored store key => store.IsApart key w dir

lemma StateCache.get_of_empties {c : StateCache} {w w' : Workspace} {dir : Path}
    {x : Except CompileError Nat} (hapart : c.IsApart w dir) (h : w.Empties dir (x, w')) :
    c.get w' = c.get w := by
  cases c with
  | memory held => rfl
  | stored store key =>
    have hstore : store.IsApart key w dir := hapart
    show store.load w' key = store.load w key
    exact hstore.load_of_empties h

/-! ## The step -/

/-- A full compilation step empties the directory of the object files and touches nothing else.  The
compiler is called once the directory is empty or if there is none, and it is told the sources that were
given.  Something was done if the compiler has done something, or if there was something in the
directory. -/
theorem compile_of_full (spec : CompileSpec) (a : Analysis) (cache : StateCache) (r : Run)
    (hw : r.files.IsOrdinary) (hfull : spec.isIncremental = false) :
    ∃ x w, r.files.Empties spec.objects (x, w) ∧ ∀ compiler : Compiler,
      (compile compiler a cache spec).run.run r =
        match x with
        | .error e => (.error e, { r with files := w, phases := .compileProcessing :: r.phases })
        | .ok deleted =>
          match (compiler { spec with directives := a.sourceDirectives }).run.run
            { r with files := w } with
          | (.error e, r₁) => (.error e, { r₁ with
              phases := .compileProcessing :: .compileExecution :: r₁.phases })
          | (.ok didWork, r₁) =>
            match (cache.set a.state).run.run r₁.files with
            | (.error e, w₁) => (.error (.state e), { r₁ with
                files := w₁
                phases := .compileProcessing :: .compileExecution :: r₁.phases })
            | (.ok cache', w₁) => (.ok (didWork || deleted != 0, cache'), { r₁ with
                files := w₁
                phases := .compileProcessing :: .compileExecution :: r₁.phases }) := by
  -- the directory is emptied before the compiler is known, so what is left is the same for all of
  -- them
  have hempties := Workspace.empties_of_emptyDirectory hw spec.objects
  rcases hrun : (emptyDirectory spec.objects).run.run r.files with ⟨x, w⟩
  rw [hrun] at hempties
  refine ⟨x, w, hempties, fun compiler => ?_⟩
  rw [compile_run, work, if_neg (by simp [hfull]), CompileSpec.after_of_full hfull, compileAll,
    Computation.run_bind, RunM.run_onFiles, hrun]
  cases x with
  | error e => rfl
  | ok deleted =>
    rw [Except.mapError_ok]
    simp only
    rw [Computation.run_bind, execute, Computation.run_mk_bind]
    rcases (compiler { spec with directives := a.sourceDirectives }).run.run { r with files := w }
      with ⟨y, r₁⟩
    cases y with
    | error e => rfl
    | ok didWork => rfl

/-- A directory of object files with a file and a directory in it, with links to a file and to a directory
outside, also from the directory in it, and with one to nothing. -/
def Workspace.stale : Workspace :=
  (((((((Workspace.bare ["p"] 1).put ["p"] "keep.o" (.file default)).put ["p"] "src" .directory).put
    ["p", "src"] "a.c" (.file default)).put ["p"] "obj" .directory).put ["p", "obj"] "a.o"
    (.file default)).put ["p", "obj"] "nested" .directory).put ["p", "obj", "nested"] "up"
    (.link "../..") |>.put ["p", "obj"] "keep" (.link "../keep.o") |>.put ["p", "obj"] "src"
    (.link "/p/src") |>.put ["p", "obj"] "x.o" (.link "gone")

/-- A full step whose object files lie in this directory. -/
def CompileSpec.full : CompileSpec := ⟨[⟨"/p/src/a.c"⟩], [], ∅, false, ⟨"/p/obj"⟩⟩

/-- What the links lead to is left, and the removal counts as work. -/
theorem compile_of_full_stale :
    ∃ w, Workspace.stale.Empties ⟨"/p/obj"⟩ (.ok 5, w) ∧
      w.at? ["p", "keep.o"] = some (.file default) ∧
      w.at? ["p", "src", "a.c"] = some (.file default) ∧
      ∃ r, (compile (fun _ => pure false) ⟨∅, ∅, ∅, false, ∅⟩ (.memory none) .full).run.run
        { files := .stale } = (.ok (true, .memory (some ∅)), r) := by
  have hfind : Workspace.stale.find ⟨"/p/obj"⟩ = .ok (["p", "obj"], .directory) := by decide +kernel
  have hnames : (Workspace.stale.names ["p", "obj"]).length = 5 := by decide +kernel
  have hdone : ((compile (fun _ => pure false) ⟨∅, ∅, ∅, false, ∅⟩ (.memory none) .full).run.run
      { files := .stale }).1.toBool := by decide +kernel
  obtain ⟨x, w, hempties, hrun⟩ := compile_of_full .full ⟨∅, ∅, ∅, false, ∅⟩ (.memory none)
    { files := .stale } (by decide +kernel) rfl
  rw [hrun] at hdone
  cases hempties with
  | missing hmissing =>
    rw [CompileSpec.full, hfind] at hmissing
    cases hmissing
  | unread => cases hdone
  | blocked => cases hdone
  | stuck => cases hdone
  | emptied hplace hthins hgone =>
    rw [CompileSpec.full, hfind] at hplace
    cases hplace
    have hempties := Workspace.Empties.emptied hfind hthins hgone
    rw [hnames] at hempties
    refine ⟨w, hempties, ?_, ?_, ?_⟩
    · rw [hthins.at?_outside (by decide)]
      decide +kernel
    · rw [hthins.at?_outside (by decide)]
      decide +kernel
    · rw [hrun, hnames]
      exact ⟨_, rfl⟩

/-! ## Steps of a build -/

namespace CompileStep

variable {s : CompileStep} {hasher : Hasher} {cache : StateCache} {r : Run}

/-- If the compiler leaves the cache alone, so does a step, whatever it empties apart from the cache. -/
theorem get_of_worked (a : Analysis) (hw : r.files.IsOrdinary)
    (hapart : s.spec.isIncremental = false → cache.IsApart r.files s.spec.objects)
    (hcompiler : ∀ told r, cache.get ((s.compiler told).run.run r).2.files = cache.get r.files) :
    cache.get (s.worked r a).2.files = cache.get r.files := by
  have hexecute : ∀ told r, cache.get ((execute s.compiler told).run.run r).2.files =
      cache.get r.files := by
    intro told r
    rw [execute, Computation.run_mk_bind]
    exact hcompiler told r
  rw [worked, work, CompileSpec.isIncremental_after]
  split
  · exact hexecute _ r
  · next hfull =>
    have hfull := Bool.eq_false_iff.2 hfull
    have hempties := Workspace.empties_of_emptyDirectory hw s.spec.objects
    rcases hrun : (emptyDirectory s.spec.objects).run.run r.files with ⟨x, w⟩
    rw [hrun] at hempties
    have hget := StateCache.get_of_empties (hapart hfull) hempties
    rw [CompileSpec.after_of_full hfull, compileAll, Computation.run_bind, RunM.run_onFiles, hrun]
    cases x with
    | error e => exact hget
    | ok deleted =>
      rw [Except.mapError_ok]
      simp only
      have hdone := hexecute { s.spec with directives := a.sourceDirectives } { r with files := w }
      rw [Computation.run_bind]
      rcases hcalled : (execute s.compiler { s.spec with directives := a.sourceDirectives }).run.run
        { r with files := w } with ⟨y, r₁⟩
      rw [hcalled] at hdone
      cases y with
      | error e => exact hdone.trans hget
      | ok didWork => exact hdone.trans hget

/-- What a step asks of its surroundings, so that it touches the cache by keeping a state only: the edit
and the compiler leave the cache alone, the object files lie apart from it, nothing is in the way of the
new state, and the state is not too long. -/
theorem spares_of_isApart (hedit : cache.get (s.edit r.files) = cache.get r.files)
    (hw : (s.edit r.files).IsOrdinary)
    (hapart : s.spec.isIncremental = false → cache.IsApart (s.edit r.files) s.spec.objects)
    (hcompiler : ∀ told r, cache.get ((s.compiler told).run.run r).2.files = cache.get r.files)
    (hsafe : ∀ a ∈ (s.analysed hasher cache r).1.toOption,
      cache.IsSafe (s.worked (s.analysed hasher cache r).2 a).2.files)
    (hholds : ∀ a ∈ (s.analysed hasher cache r).1.toOption, cache.Holds a.state) :
    s.Spares hasher cache r := by
  obtain ⟨r₁, hanalysed, hfiles⟩ := analysed_eq s hasher cache r
  refine ⟨hedit, fun a _ => ?_, hsafe, hholds⟩
  rw [hanalysed, ← hfiles]
  rw [← hfiles] at hw hapart
  exact get_of_worked a hw hapart hcompiler

end CompileStep

end IncludeDeps

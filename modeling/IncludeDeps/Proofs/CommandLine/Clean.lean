import IncludeDeps.Proofs.CommandLine
import IncludeDeps.Proofs.Compile.Retry
import IncludeDeps.Proofs.TaskState.Forgetting

/-!
# Clean tasks

To clean tasks is to remove the files of their states, and nothing else.  Until a task that has been
cleaned succeeds again, no state of it is loaded, so then all of its sources have to be compiled:
`Project.clean_forgets`.

* `StateStore.Clears` is what the removal of states does to the files;
* `Project.Meanwhile` is what may happen between the cleaning of a task and its next success.

A cache whose path leads nowhere is clean.  If the path leads to another cache once a missing directory
has been made, the states there are loaded: `Project.exists_recalled`.
-/

namespace IncludeDeps

open Workspace

namespace StateStore

variable {s : StateStore} {key : String} {keys keys' : List String} {w w' w'' : Workspace} {b : Bool}

/-! ## Removing states -/

/-- The states under some keys have been removed, and nothing else has changed. -/
structure Clears (s : StateStore) (keys : List String) (w w' : Workspace) : Prop where
  cwd : w'.cwd = w.cwd
  processId : w'.processId = w.processId
  carries : w.Carries w'
  at?_eq : ∀ q, w'.at? q = w.at? q ∨ w'.at? q = none ∧ ∃ key ∈ keys, ∃ dir,
    w.find s.folder = .ok (dir, .directory) ∧ q = dir ++ [fileName key]
  load : ∀ key ∈ keys, s.load w' key = ∅

lemma Clears.at?_mono (h : s.Clears keys w w') {q : Place} {e : Entry} (hat : w'.at? q = some e) :
    w.at? q = some e := by
  rcases h.at?_eq q with heq | ⟨hnone, -⟩
  · rw [← heq, hat]
  · rw [hnone] at hat
    cases hat

lemma Clears.carries_symm (h : s.Clears keys w w') : w'.Carries w :=
  ⟨fun _ hq => h.at?_mono hq, fun _ _ hq => h.at?_mono hq⟩

lemma Clears.forgets (h : s.Clears keys w w') (key : String) : Forgets key w w' :=
  fun _ _ hat => .inr (h.at?_mono hat)

lemma Clears.find_iff (h : s.Clears keys w w') {place : Place} :
    w'.find s.folder = .ok (place, .directory) ↔ w.find s.folder = .ok (place, .directory) :=
  ⟨fun hfind => find_mono hfind h.carries_symm h.cwd.symm, fun hfind => find_mono hfind h.carries h.cwd⟩

lemma Clears.stays (h : s.Clears keys w w') : w.Stays s.folder w' :=
  fun _ hfind => .inl (h.find_iff.1 hfind)

lemma Clears.not_has_link (h : s.Clears keys w w') {name target : String}
    (hlink : ¬ w.Has s.folder name (.link target)) : ¬ w'.Has s.folder name (.link target) :=
  fun ⟨place, hfind, hat⟩ => hlink ⟨place, h.find_iff.1 hfind, h.at?_mono hat⟩

/-- The state under one key is removed, or there was nothing under it.  In both cases nothing is
loaded for the key afterwards. -/
lemma clears_of_remove (hlink : ∀ target, ¬ w.Has s.folder (fileName key) (.link target))
    (h : (s.remove key).run.run w = (.ok b, w')) : s.Clears [key] w w' := by
  have hname := isFileName_fileName key
  rw [remove_run, path_eq] at h
  split at h
  · next w₁ hunlink =>
    cases h
    obtain ⟨place, name, e, hends, hat, he, rfl⟩ := exists_ends_of_unlink hunlink
    obtain rfl := hends.name_eq hname
    obtain ⟨-, -, hfind⟩ := (ends_inside_iff (folder_text_ne s) hname).1 hends
    have hset := sets_remove hat he
    have hplain : IsPlain (w.at? (place ++ [fileName key])) := by
      rw [hat]
      refine ⟨fun hdir => he (Option.some.inj hdir), fun target heq => ?_⟩
      exact hlink target ⟨place, hfind, heq ▸ hat⟩
    have hcarries := hset.carries_symm isPlain_none
    -- the entry that was there is the only one that is gone, and the folder leads where it led
    refine ⟨hset.cwd, hset.processId, hset.carries hplain, fun q => ?_, fun key' hkey' => ?_⟩
    · by_cases hq : q = place ++ [fileName key]
      · exact .inr ⟨hq ▸ hset.at?_self, key, List.mem_singleton_self key, place, hfind, hq⟩
      · exact .inl (hset.at?_of_ne hq)
    · obtain rfl := List.mem_singleton.1 hkey'
      have hgone : ∀ e', ¬ (w.remove (place ++ [fileName key'])).Has s.folder (fileName key') e' := by
        rintro e' ⟨place', hfind', hat'⟩
        have hback := find_mono hfind' hcarries hset.cwd.symm
        rw [hfind] at hback
        cases hback
        rw [hset.at?_self] at hat'
        cases hat'
      exact load_of_not_has (fun target => hgone _) fun x => hgone _
  · next hunlink =>
    cases h
    refine ⟨rfl, rfl, ⟨fun _ => id, fun _ _ => id⟩, fun _ => .inl rfl, fun key' hkey' => ?_⟩
    obtain rfl := List.mem_singleton.1 hkey'
    -- what can be read can be removed
    cases hread : w.read (s.path key') with
    | error e =>
      unfold load
      rw [hread]
    | ok x =>
      rw [path_eq, read_inside_iff (folder_text_ne s) hname hlink] at hread
      obtain ⟨hsize, hcheck, place, hfind, hat⟩ := hread
      have hends := (ends_inside_iff (folder_text_ne s) hname).2 ⟨hsize, hcheck, hfind⟩
      rw [hends.unlink hat nofun] at hunlink
      cases hunlink
  · cases h

lemma Clears.refl (s : StateStore) (w : Workspace) : s.Clears [] w w :=
  ⟨rfl, rfl, ⟨fun _ => id, fun _ _ => id⟩, fun _ => .inl rfl, nofun⟩

lemma Clears.trans (h : s.Clears keys w w') (h' : s.Clears keys' w' w'')
    (hlink : ∀ name target, ¬ w.Has s.folder name (.link target)) :
    s.Clears (keys ++ keys') w w'' where
  cwd := h'.cwd.trans h.cwd
  processId := h'.processId.trans h.processId
  carries := h.carries.trans h'.carries
  at?_eq q := by
    rcases h'.at?_eq q with heq | ⟨hnone, key, hkey, dir, hfind, hq⟩
    · rw [heq]
      refine (h.at?_eq q).imp_right fun ⟨hnone, key, hkey, hplace⟩ => ?_
      exact ⟨hnone, key, List.mem_append_left _ hkey, hplace⟩
    · exact .inr ⟨hnone, key, List.mem_append_right _ hkey, dir, h.find_iff.1 hfind, hq⟩
  load key hkey := by
    rcases List.mem_append.1 hkey with hkey | hkey
    · exact load_of_forgets (h.load key hkey) (h'.forgets key)
        (fun target => h'.not_has_link (h.not_has_link (hlink _ target))) h'.stays
    · exact h'.load key hkey

/-- The states under other keys are what they were. -/
lemma Clears.load_of_ne (h : s.Clears keys w w')
    (hlink : ∀ target, ¬ w.Has s.folder (fileName key) (.link target))
    (hkey : ∀ key' ∈ keys, Digest.ofText key ≠ Digest.ofText key') :
    s.load w' key = s.load w key := by
  have hat : ∀ dir, w'.at? (dir ++ [fileName key]) = w.at? (dir ++ [fileName key]) := by
    intro dir
    refine (h.at?_eq _).resolve_right fun ⟨_, key', hkey', dir', _, heq⟩ => ?_
    exact fileName_ne (hkey key' hkey') (List.append_singleton_inj.1 heq).2
  refine load_congr hlink fun e _ => ?_
  simp only [Has, h.find_iff, hat]

end StateStore

namespace Project

variable {p : Project} {name : String} {names : List String} {r r' s s' : Run} {remark : Remark}
  {w w' : Workspace} {isDetailed : Bool} {t : Task}

/-! ## The tasks of a project -/

/-- The key of the state of a task. -/
abbrev key (p : Project) (name : String) : String := p.config.taskName name

lemma key_inj {name' : String} (h : p.key name = p.key name') : name = name' := by
  have htexts := congrArg String.toList h
  simp only [key, Config.taskName, String.toList_append] at htexts
  exact String.toList_inj.1 (List.append_cancel_left htexts)

/-- The keys of the tasks have different digests, so their states have files of their own. -/
def HasDistinctKeys (p : Project) : Prop :=
  ∀ m ∈ p.config.tasks.keys, ∀ n ∈ p.config.tasks.keys,
    Digest.ofText (p.key m) = Digest.ofText (p.key n) → p.key m = p.key n

instance (p : Project) : Decidable p.HasDistinctKeys :=
  inferInstanceAs (Decidable (∀ m ∈ p.config.tasks.keys, ∀ n ∈ p.config.tasks.keys, _))

/-- A task of the project is known by its key. -/
lemma name_of_task (h : p.task w name = .ok t) :
    t.name = p.key name ∧ name ∈ p.config.tasks.keys := by
  unfold task at h
  have htask := Except.eq_ok_of_mapError h
  unfold Config.task at htask
  cases hget : p.config.tasks.get? name with
  | none =>
    rw [hget] at htask
    cases htask
  | some c =>
    rw [hget] at htask
    obtain ⟨sources, -, htask⟩ := Except.exists_of_bind htask
    cases htask
    exact ⟨rfl, List.mem_map.2 ⟨_, OrderedMap.mem_of_get?_eq_some hget, rfl⟩⟩

/-! ## Cleaning -/

lemma clean_run (p : Project) (name : String) (r : Run) :
    (p.clean name).run.run r =
      if p.config.tasks.contains name then
        match (p.store.remove (p.key name)).run.run r.files with
        | (.ok wasThere, w) =>
          (.ok { lines := [p.key name ++ if wasThere then ": state removed" else ": no stored state"] },
            { r with files := w })
        | (.error e, w) => (.error (.state e), { r with files := w })
      else (.error (.config (.unknownTask name)), r) := by
  unfold clean
  cases p.config.tasks.contains name with
  | false => rfl
  | true =>
    show (RunM.onFiles CommandError.state (p.store.remove (p.key name)) >>= fun wasThere =>
      (pure { lines := [p.key name ++
        if wasThere then ": state removed" else ": no stored state"] } :
          RunM CommandError Remark)).run.run r = _
    rw [Computation.run_bind, RunM.run_onFiles]
    rcases (p.store.remove (p.key name)).run.run r.files with ⟨x, w⟩
    cases x with
    | error e => rfl
    | ok wasThere => rfl

lemma exists_remove_of_clean (h : (p.clean name).run.run r = (.ok remark, r')) :
    name ∈ p.config.tasks.keys ∧
      ∃ b, (p.store.remove (p.key name)).run.run r.files = (.ok b, r'.files) := by
  rw [clean_run] at h
  split at h
  · next hdeclared =>
    rw [OrderedMap.contains_eq_isSome] at hdeclared
    obtain ⟨c, hc⟩ := Option.isSome_iff_exists.1 hdeclared
    refine ⟨List.mem_map.2 ⟨_, OrderedMap.mem_of_get?_eq_some hc, rfl⟩, ?_⟩
    split at h
    · next wasThere w hremove =>
      cases h
      exact ⟨wasThere, hremove⟩
    · cases h
  · cases h

/-- The parts of work on several tasks that succeeds. -/
lemma exists_of_onEach_cons {work : String → RunM CommandError Remark} {lines : List String}
    {b : Bool} (h : (onEach work (name :: names)).run r = ((lines, .ok b), r')) :
    ∃ m r₁ lines' b', (work name).run.run r = (.ok m, r₁) ∧
      (onEach work names).run r₁ = ((lines', .ok b'), r') := by
  rw [onEach_cons] at h
  rcases hfirst : (work name).run.run r with ⟨x, r₁⟩
  rw [hfirst] at h
  cases x with
  | error e => cases h
  | ok m =>
    rcases hrest : (onEach work names).run r₁ with ⟨⟨lines', result⟩, r₂⟩
    simp only [hrest] at h
    cases result with
    | error e => cases h
    | ok b' =>
      cases h
      exact ⟨m, r₁, lines', b', rfl, hrest⟩

/-- To clean tasks removes their states, and nothing else.  That all of them are tasks of the
project is not assumed: otherwise the command would have failed. -/
theorem clears_of_clean {lines : List String} {b : Bool}
    (hlink : ∀ name target, ¬ r.files.Has p.store.folder name (.link target))
    (h : (onEach p.clean names).run r = ((lines, .ok b), r')) :
    (∀ name ∈ names, name ∈ p.config.tasks.keys) ∧
      p.store.Clears (names.map p.key) r.files r'.files := by
  induction names generalizing r lines b with
  | nil =>
    cases h
    exact ⟨nofun, .refl _ _⟩
  | cons name rest ih =>
    obtain ⟨m, r₁, lines', b', hfirst, hrest⟩ := exists_of_onEach_cons h
    obtain ⟨hdeclared, _, hremove⟩ := exists_remove_of_clean hfirst
    have hclears := StateStore.clears_of_remove (hlink _) hremove
    obtain ⟨hothers, hclears'⟩ :=
      ih (fun name target => hclears.not_has_link (hlink name target)) hrest
    refine ⟨fun n hn => ?_, hclears.trans hclears' hlink⟩
    rcases List.mem_cons.1 hn with rfl | hn
    · exact hdeclared
    · exact hothers n hn

/-! ## Until a task succeeds -/

/-- What may happen to the files before a task succeeds: they are edited, and commands are run, but the
task is not worked on with success.  No edit brings a file by the name of its state, and there are no
links in the folder of the states when another one is stored. -/
inductive Meanwhile (p : Project) (name : String) : Workspace → Workspace → Prop
  /-- Nothing has happened. -/
  | nothing {w : Workspace} : Meanwhile p name w w
  /-- The files have been edited. -/
  | edited {w w₁ w₂ : Workspace} (h : Meanwhile p name w w₁)
    (hedit : StateStore.Forgets (p.key name) w₁ w₂) : Meanwhile p name w w₂
  /-- Another task has been worked on, or the task itself without success. -/
  | depended {w : Workspace} {r r' : Run} {isDetailed : Bool} {other : String}
    {x : Except CommandError Remark} (h : Meanwhile p name w r.files)
    (hrun : (p.depend isDetailed other).run.run r = (x, r')) (hother : x.toBool → other ≠ name)
    (hlink : ∀ t, p.task r.files other = .ok t → t.IsLinkFree p.store r.files) :
    Meanwhile p name w r'.files
  /-- It has been asked what there is to do for a task. -/
  | asked {w : Workspace} {r r' : Run} {isDetailed : Bool} {other : String}
    {x : Except CommandError Remark} (h : Meanwhile p name w r.files)
    (hrun : (p.status isDetailed other).run.run r = (x, r')) : Meanwhile p name w r'.files
  /-- A task has been cleaned. -/
  | cleaned {w : Workspace} {r r' : Run} {other : String} {x : Except CommandError Remark}
    (h : Meanwhile p name w r.files) (hrun : (p.clean other).run.run r = (x, r')) :
    Meanwhile p name w r'.files

lemma forgets_of_depend {other : String} {x : Except CommandError Remark} {key : String}
    (hlink : ∀ t, p.task r.files other = .ok t → t.IsLinkFree p.store r.files)
    (hkey : x.toBool → other ∈ p.config.tasks.keys →
      Digest.ofText key ≠ Digest.ofText (p.key other))
    (h : (p.depend isDetailed other).run.run r = (x, r')) :
    StateStore.Forgets key r.files r'.files := by
  rcases detects_of_depend h with ⟨-, rfl⟩ | ⟨t, y, htask, hrun, hy⟩
  · exact .refl key _
  · obtain ⟨hname, hdeclared⟩ := name_of_task htask
    refine Task.forgets_of_detect (hlink t htask) (fun hdone => ?_) hrun
    rw [hname]
    exact hkey (hy ▸ hdone) hdeclared

lemma forgets_of_clean {other : String} {x : Except CommandError Remark} (key : String)
    (h : (p.clean other).run.run r = (x, r')) : StateStore.Forgets key r.files r'.files := by
  have hremove : ∀ {y : Except StoreError Bool} {w : Workspace},
      (p.store.remove (p.key other)).run.run r.files = (y, w) →
      StateStore.Forgets key r.files w := by
    intro y w hremove
    rw [StateStore.remove_run] at hremove
    split at hremove
    · next hunlink =>
      cases hremove
      exact StateStore.forgets_of_gains (gains_of_unlink hunlink _) key
    · cases hremove
      exact .refl key _
    · cases hremove
      exact .refl key _
  rw [clean_run] at h
  split at h
  · split at h
    · next hrun =>
      cases h
      exact hremove hrun
    · next hrun =>
      cases h
      exact hremove hrun
  · cases h
    exact .refl key _

/-- A task is forgotten until it succeeds.  Meanwhile it may fail, other tasks may be worked on or
cleaned, and files may be edited, as long as no edit brings a state of the task back. -/
theorem Meanwhile.forgets (hkeys : p.HasDistinctKeys) (hname : name ∈ p.config.tasks.keys)
    (h : p.Meanwhile name w w') : StateStore.Forgets (p.key name) w w' := by
  induction h with
  | nothing => exact .refl _ _
  | edited _ hedit ih => exact ih.trans hedit
  | depended _ hrun hother hlink ih =>
    refine ih.trans (forgets_of_depend hlink (fun hdone hdeclared heq => ?_) hrun)
    exact hother hdone (key_inj (hkeys name hname _ hdeclared heq)).symm
  | @asked r r' isDetailed other x _ hrun ih =>
    have hfiles := p.isReadOnly_status isDetailed other r
    rw [hrun] at hfiles
    rw [hfiles]
    exact ih
  | cleaned _ hrun ih => exact ih.trans (forgets_of_clean _ hrun)

/-- Where nothing is loaded for a task, all of its sources have to be compiled. -/
lemma recompile_of_depend (hempty : p.store.load r.files (p.key name) = ∅)
    (h : (p.depend isDetailed name).run.run r = (.ok remark, r')) :
    ∃ t o cache, p.task r.files name = .ok t ∧
      (t.detect contentHasher (.stored p.store t.name)).run.run r = (.ok (o, cache), r') ∧
      remark.lines = p.remark t o isDetailed ∧ o.recompile = t.canonicalSources r.files ∧
      o.removed = ∅ := by
  obtain ⟨t, o, cache, htask, hdetect, rfl⟩ := exists_detect_of_depend h
  obtain ⟨a, r₁, m, hanalyse, -, rfl⟩ := Task.collect_of_detect hdetect
  obtain ⟨r₂, hrun, -⟩ : ∃ r₂, (t.analyse contentHasher (.stored p.store t.name)).run.run r =
      (t.analyseIn contentHasher r.files (p.store.load r.files t.name), r₂) ∧
        r₂.files = r.files := Task.analyse_run
  have hin := (Prod.mk.inj (hanalyse.symm.trans hrun)).1.symm
  rw [(name_of_task htask).1, hempty] at hin
  refine ⟨t, _, cache, htask, hdetect, rfl, Task.recompile_of_analyseIn_empty hin, ?_⟩
  exact OrderedSet.ext (Task.removed_of_analyseIn hin)

/-- To clean tasks forgets their states and nothing else.  The next time that one of them succeeds, all
of its sources have to be compiled, and none is gone; the states of the other tasks are what they were,
and so are all files but those of the states.  There are no links in the folder of the states, and it
comes to lead to no directory that was there before. -/
theorem clean_forgets {given : Given} {lines : List String} {b : Bool}
    (hclean : (p.perform .clean given).run r = ((lines, .ok b), r'))
    (hlink : ∀ name target, ¬ r.files.Has p.store.folder name (.link target))
    (hkeys : p.HasDistinctKeys) :
    (∀ name ∈ p.taskNames (given.values .task), ∀ s isDetailed remark s',
      p.Meanwhile name r'.files s.files → r'.files.Stays p.store.folder s.files →
      (∀ name target, ¬ s.files.Has p.store.folder name (.link target)) →
      (p.depend isDetailed name).run.run s = (.ok remark, s') →
      ∃ t o cache, p.task s.files name = .ok t ∧
        (t.detect contentHasher (.stored p.store t.name)).run.run s = (.ok (o, cache), s') ∧
        remark.lines = p.remark t o isDetailed ∧ o.recompile = t.canonicalSources s.files ∧
        o.removed = ∅) ∧
    (∀ name ∈ p.config.tasks.keys, name ∉ p.taskNames (given.values .task) →
      p.store.load r'.files (p.key name) = p.store.load r.files (p.key name)) ∧
    ∀ q, r'.files.at? q = r.files.at? q ∨ r'.files.at? q = none ∧
      ∃ name ∈ p.taskNames (given.values .task), ∃ dir,
        r.files.find p.store.folder = .ok (dir, .directory) ∧
          q = dir ++ [StateStore.fileName (p.key name)] := by
  obtain ⟨hdeclared, hclears⟩ := clears_of_clean hlink hclean
  refine ⟨fun name hname s isDetailed remark s' hmeanwhile hstays hlink' hdepend => ?_,
    fun name hname hother => ?_, fun q => ?_⟩
  · -- nothing is loaded right after the cleaning, and this is so until the task succeeds
    have hempty := hclears.load _ (List.mem_map_of_mem hname)
    have hforgets := hmeanwhile.forgets hkeys (hdeclared name hname)
    exact recompile_of_depend
      (StateStore.load_of_forgets hempty hforgets (hlink' _) hstays) hdepend
  · refine hclears.load_of_ne (hlink _) fun key' hkey' heq => ?_
    obtain ⟨cleaned, hcleaned, rfl⟩ := List.mem_map.1 hkey'
    exact hother (key_inj (hkeys name hname _ (hdeclared _ hcleaned) heq) ▸ hcleaned)
  · refine (hclears.at?_eq q).imp_right fun ⟨hnone, key', hkey', dir, hfind, hq⟩ => ?_
    obtain ⟨cleaned, hcleaned, rfl⟩ := List.mem_map.1 hkey'
    exact ⟨hnone, cleaned, hcleaned, dir, hfind, hq⟩

/-! ## Examples -/

lemma exists_of_perform {c : Command} {given : Given} (h : ((p.perform c given).run r).1.2.toBool) :
    ∃ lines b, (p.perform c given).run r = ((lines, .ok b), ((p.perform c given).run r).2) := by
  rcases hrun : (p.perform c given).run r with ⟨⟨lines, result⟩, r'⟩
  rw [hrun] at h
  cases result with
  | error e => cases h
  | ok b => exact ⟨lines, b, rfl⟩

/-- Another task without a header dependencies file has been worked on, in a folder without links. -/
lemma Meanwhile.depended_of_unwanted {other : String} (h : p.Meanwhile name w r.files)
    (hother : other ≠ name)
    (hheader : (p.task r.files other).toOption.all fun t => t.headerFile = none)
    (hlink : ∀ n target, ¬ (p.store.opened r.files).Has p.store.folder n (.link target)) :
    p.Meanwhile name w ((p.depend isDetailed other).run.run r).2.files := by
  rcases hrun : (p.depend isDetailed other).run.run r with ⟨x, r'⟩
  refine .depended h hrun (fun _ => hother) fun t ht w₁ hpublish => ?_
  rw [ht] at hheader
  have hnone : t.headerFile = none := of_decide_eq_true hheader
  cases hpublish with
  | unwanted => exact hlink
  | written hpath =>
    rw [hnone] at hpath
    cases hpath

/-- A project with two tasks that keeps its states in the given directory. -/
def pair (cache : String) : Project :=
  ⟨⟨"/p"⟩, "p", cache,
    .ofList [("a", ⟨["a.c"], [], false, none, ∅⟩), ("b", ⟨["b.c"], [], false, none, ∅⟩)]⟩

/-- A run in which the second task has succeeded. -/
def built : Run :=
  (((pair "c").depend false "b").run.run
    { files := Workspace.ofTexts "p" [("a.c", ""), ("b.c", "")] }).2

/-- What asks for the second task. -/
def second : Given := [(.task, "b")]

/-- Where the cleaning of the second task leads. -/
def scrubbed (cache : String) : Run := (((pair cache).perform .clean second).run built).2

/-- Where the first task leads then. -/
def resumed (cache : String) : Run := (((pair cache).depend false "a").run.run (scrubbed cache)).2

/-- The second task, as it comes from the project. -/
def secondTask : Task := ⟨":p:b", [⟨"/p/b.c"⟩], [], false, ∅, none⟩

/-- The second task is cleaned, then the first one succeeds, then the second. -/
theorem clean_forgets_pair : ∃ t o cache s',
    (pair "c").task (resumed "c").files "b" = .ok t ∧
      (t.detect contentHasher (.stored (pair "c").store t.name)).run.run (resumed "c") =
        (.ok (o, cache), s') ∧
      o.recompile = t.canonicalSources (resumed "c").files ∧ o.removed = ∅ := by
  have hfacts : (∀ e ∈ built.files.entries.toList, e.2.isLink = false) ∧
      (∀ e ∈ ((pair "c").store.opened (scrubbed "c").files).entries.toList, e.2.isLink = false) ∧
      (∀ e ∈ (resumed "c").files.entries.toList, e.2.isLink = false) ∧
      (scrubbed "c").files.find (pair "c").store.folder = .ok (["p", "c", "state"], .directory) ∧
      (resumed "c").files.find (pair "c").store.folder = .ok (["p", "c", "state"], .directory) ∧
      (((pair "c").perform .clean second).run built).1.2.toBool ∧
      (((pair "c").task (scrubbed "c").files "a").toOption.all fun t => t.headerFile = none) ∧
      (((pair "c").depend false "b").run.run (resumed "c")).1.toBool ∧
      (pair "c").HasDistinctKeys ∧ "b" ∈ (pair "c").taskNames (second.values .task) := by
    decide +kernel
  obtain ⟨hbuilt, hopened, hresumed, hbefore, hafter, hcleaned, hheader, hsucceeds, hkeys, hname⟩ :=
    hfacts
  obtain ⟨lines, b, hclean⟩ : ∃ lines b, ((pair "c").perform .clean second).run built =
      ((lines, .ok b), scrubbed "c") := by
    rw [scrubbed]
    exact exists_of_perform hcleaned
  obtain ⟨remark, s', hdepend⟩ := Computation.exists_of_toBool hsucceeds
  have hmeanwhile : (pair "c").Meanwhile "b" (scrubbed "c").files (resumed "c").files := by
    rw [resumed]
    exact .depended_of_unwanted .nothing (by decide) hheader fun _ target =>
      not_has_link hopened target
  have hstays : (scrubbed "c").files.Stays (pair "c").store.folder (resumed "c").files := by
    intro place hfind
    rw [hafter] at hfind
    cases hfind
    exact .inl hbefore
  obtain ⟨hnext, -, -⟩ := clean_forgets hclean (fun _ target => not_has_link hbuilt target) hkeys
  -- the run is named, since nothing else should be compared with it
  obtain ⟨t, o, cache, htask, hdetect, -, hall, hnone⟩ :=
    hnext "b" hname (resumed "c") false remark s' hmeanwhile hstays
      (fun _ target => not_has_link hresumed target) hdepend
  exact ⟨t, o, cache, s', htask, hdetect, hall, hnone⟩

/-- With nothing named `x`, the path of this cache leads nowhere, and there is no state to remove.  When
the first task has made `x`, the old state of the second one is loaded, and its source need not be
compiled. -/
theorem exists_recalled : ∃ t : Task,
    (∀ e ∈ built.files.entries.toList, e.2.isLink = false) ∧ (pair "x/../c").HasDistinctKeys ∧
      (((pair "x/../c").perform .clean second).run built).1.1 = [":p:b: no stored state"] ∧
      (((pair "x/../c").depend false "a").run.run (scrubbed "x/../c")).1.toBool ∧
      (pair "x/../c").task (resumed "x/../c").files "b" = .ok t ∧
      ⟨"/p/b.c"⟩ ∈ (t.canonicalSources (resumed "x/../c").files).toList ∧
      ∃ o cache s', (t.detect contentHasher (.stored (pair "x/../c").store t.name)).run.run
          (resumed "x/../c") = (.ok (o, cache), s') ∧ ⟨"/p/b.c"⟩ ∉ o.recompile.toList := by
  have hfacts : (∀ e ∈ built.files.entries.toList, e.2.isLink = false) ∧
      (pair "x/../c").HasDistinctKeys ∧
      (((pair "x/../c").perform .clean second).run built).1.1 = [":p:b: no stored state"] ∧
      (((pair "x/../c").depend false "a").run.run (scrubbed "x/../c")).1.toBool ∧
      (pair "x/../c").task (resumed "x/../c").files "b" = .ok secondTask ∧
      ⟨"/p/b.c"⟩ ∈ (secondTask.canonicalSources (resumed "x/../c").files).toList ∧
      ((secondTask.detect contentHasher (.stored (pair "x/../c").store secondTask.name)).run.run
        (resumed "x/../c")).1.toOption.any fun x => ⟨"/p/b.c"⟩ ∉ x.1.recompile.toList := by
    decide +kernel
  obtain ⟨hlinks, hkeys, hclean, hother, htask, hsource, hdetect⟩ := hfacts
  obtain ⟨⟨o, cache⟩, s', hrun, hspared⟩ := Except.exists_of_any hdetect
  exact ⟨secondTask, hlinks, hkeys, hclean, hother, htask, hsource, o, cache, s', hrun,
    of_decide_eq_true hspared⟩

end Project

end IncludeDeps

import IncludeDeps.Proofs.Headers.Writing
import IncludeDeps.Proofs.Task.Stages
import IncludeDeps.Proofs.TaskState.Interruption

/-!
# What a task leaves when it fails

A task that fails leaves the state that its cache holds, and unless it is the state that could not be kept,
it leaves all files as they were: only directories for the header dependencies file may be new
(`Task.unchanged_of_detect`).

* `Task.Fails` tells what has happened to the files when a task fails;
* `Task.IsApart` is what it takes that the header dependencies file is not in the way of the state.

Without it a task that fails may lose a state, or come by one (`Task.exists_severed`): the header
dependencies file takes the place of a link on the way to the cache, or a directory that is made for it
gives the path of the cache a meaning.
-/

namespace IncludeDeps.Task

open Workspace
open StateStore (stateOf occupied)

variable {t : Task} {hasher : Hasher} {cache : StateCache} {r r' : Run} {w w' w₁ : Workspace}
  {e : TaskError} {store : StateStore} {key : String}

/-! ## Failures -/

/-- What happens to the files when a task fails, by the stage that fails.  Of what comes before,
nothing is told but how the files were left. -/
inductive Fails (t : Task) (cache : StateCache) (w : Workspace) : TaskError → Workspace → Prop
  /-- The sources cannot be read, or the include roots cannot be listed. -/
  | unread {e : TaskError} (hstate : ∀ task err, e ≠ .state task err) : Fails t cache w e w
  /-- The header dependencies file cannot be written. -/
  | unwritten {path : Path} {m : HeaderMap} {digest : Workspace → Path → Except Fault Digest}
    {err : HeaderFileError} {w' : Workspace} (hpath : t.headerFile = some path)
    (hwrite : (m.write path digest).run.run w = (.error err, w')) :
    Fails t cache w (.headerFile err) w'
  /-- The state cannot be kept. -/
  | unkept {state : TaskState} {err : StoreError} {w₁ w' : Workspace} (hpublish : t.Publishes w w₁)
    (hset : (cache.set state).run.run w₁ = (.error err, w')) :
    Fails t cache w (.state t.name err) w'

lemma eq_source_of_analyseIn {previous : TaskState} (h : t.analyseIn hasher w previous = .error e) :
    ∃ p fault, e = .source t.name p fault := by
  rw [analyseIn_eq] at h
  cases hrun : (RunM.absoluteAll w t.sources).bind fun sources =>
      (Analysis.run (t.context hasher w previous) (OrderedSet.ofList sources)).1 with
  | ok a =>
    rw [hrun] at h
    cases h
  | error x =>
    rw [hrun] at h
    cases h
    exact ⟨x.1, x.2, rfl⟩

theorem fails_of_detect (h : (t.detect hasher cache).run.run r = (.error e, r')) :
    t.Fails cache r.files e r'.files := by
  have hdetects := detects_of_detect h
  generalize r'.files = w' at hdetects ⊢
  cases hdetects with
  | unread hanalyse =>
    obtain ⟨p, fault, rfl⟩ := eq_source_of_analyseIn hanalyse
    exact .unread nofun
  | unlisted _ _ => exact .unread nofun
  | unwritten _ _ hpath hwrite => exact .unwritten hpath hwrite
  | unkept _ _ hpublish hset => exact .unkept hpublish hset

/-! ## What a failure leaves -/

/-- The header dependencies file is not in the way of a state that is stored. -/
structure IsApart (t : Task) (store : StateStore) (key : String) (w w' : Workspace) : Prop where
  /-- The file of the state is no link. -/
  file : ∀ target, ¬ w.Has store.folder (StateStore.fileName key) (.link target)
  /-- No link has the name of its scratch file. -/
  scratch : w.LinkFree (StateStore.scratchName w key)
  /-- The header dependencies file does not take the place of a link. -/
  header : ∀ path ∈ t.headerFile, ∀ place name,
    (HeaderMap.opened path w).Ends path place name → ∀ target,
      w.at? (place ++ [name]) ≠ some (.link target)
  /-- It does not lie in the folder of the store. -/
  outside : ∀ path ∈ t.headerFile, ∀ place x, w'.find path = .ok (place, .file x) →
    ∀ dir, w'.find store.folder = .ok (dir, .directory) → ¬ dir <+: place
  /-- No new directory makes this folder lead to one that was there before. -/
  stays : w.Stays store.folder w'

/-- The header dependencies file is all that is changed when it is written, but for directories. -/
lemma alters_of_write {path : Path} {m : HeaderMap} {digest : Workspace → Path → Except Fault Digest}
    (hclear : HeaderMap.IsClear path w)
    (hlink : ∀ place name, (HeaderMap.opened path w).Ends path place name → ∀ target,
      w.at? (place ++ [name]) ≠ some (.link target))
    (h : (m.write path digest).run.run w = (.ok (), w')) :
    ∃ dir name x, w.Alters (· = dir ++ [name]) w' ∧ w'.Ends path dir name ∧
      w'.at? (dir ++ [name]) = some (.file x) ∧ w'.Carries (HeaderMap.opened path w) := by
  have hmakes := HeaderMap.makes_opened path w
  obtain ⟨x, place, last, dir, name, hends, htarget, hreplaces⟩ :=
    HeaderMap.exists_replaces_of_write hclear h
  -- the name of the scratch file was free before, and what is renamed is not a directory that was
  -- made
  have hnone : (HeaderMap.opened path w).at? (place ++ [last]) = none :=
    (hmakes.added _ (hclear place last hends)).resolve_right hreplaces.isPlain_source.1
  have hgoal : ∀ target, (HeaderMap.opened path w).at? (dir ++ [name]) ≠ some (.link target) :=
    fun target hat => hlink dir name htarget target (hmakes.at?_eq hat nofun)
  exact ⟨dir, name, x, (hmakes.alters _).trans (hreplaces.alters_of_none hnone hgoal),
    htarget.mono (hreplaces.carries hgoal) hreplaces.cwd, hreplaces.at?_goal,
    hreplaces.carries_symm⟩

lemma load_of_fails (hclear : ∀ path ∈ t.headerFile, HeaderMap.IsClear path w)
    (hapart : t.IsApart store key w w') (h : t.Fails (.stored store key) w e w') :
    store.load w' key = store.load w key := by
  cases h with
  | unread hstate => rfl
  | @unwritten path m digest err _ hpath hwrite =>
    have hmakes := HeaderMap.makes_of_write_error (hclear path hpath) hwrite
    exact StateStore.load_of_alters hapart.file (hmakes.alters fun _ => False) hapart.stays
      fun _ _ => id
  | @unkept state err w₁ _ hpublish hset =>
    have hsave : (store.save key state).run.run w₁ = (.error err, w') := by
      rcases Computation.cases_of_run_bind hset with h | ⟨u, w₂, -, h⟩
      · exact h
      · cases h
    cases hpublish with
    | unwanted hpath =>
      have halters := StateStore.alters_of_save_error hapart.scratch hsave
      exact StateStore.load_of_alters hapart.file halters hapart.stays fun dir _ =>
        StateStore.not_isScratch w key key dir
    | @written path m digest _ hpath hwrite =>
      obtain ⟨goal, name, x, halters, hends, hat, hcarries⟩ :=
        alters_of_write (hclear path hpath) (hapart.header path hpath) hwrite
      -- a link with the name of the scratch file would have been there at the start
      have hscratch : w₁.LinkFree (StateStore.scratchName w₁ key) := by
        intro dir target hlink
        rw [StateStore.scratchName_congr halters.processId] at hlink
        have hopened := hcarries.link _ _ hlink
        exact hapart.scratch dir target
          ((HeaderMap.makes_opened path w).at?_eq hopened nofun)
      have halters' := StateStore.alters_of_save_error hscratch hsave
      have hboth := (halters.mono fun q hq => .inl hq).trans
        (halters'.mono (Q := fun q => q = goal ++ [name] ∨ StateStore.IsScratch w₁ key q)
          fun q hq => .inr hq)
      refine StateStore.load_of_alters hapart.file hboth hapart.stays fun dir hfind hplace => ?_
      have hother := StateStore.not_isScratch w₁ key key dir
      -- the file of the state would be the header dependencies file, which is not in the folder
      have hgoal := hplace.resolve_right hother
      rw [hgoal] at hother
      have hat' := (halters'.at? _ hother (.file x) nofun).2 hat
      have hends' := hends.mono halters'.carries halters'.cwd
      exact hapart.outside path hpath _ x (hends'.find_file hat') dir hfind
        ⟨[StateStore.fileName key], hgoal⟩

/-- A task that fails leaves the state that its cache holds, if the header dependencies file is not in
its way.  Unless it is the state that could not be kept, all files are what they were, and only
directories for the header dependencies file may be new. -/
theorem unchanged_of_detect (h : (t.detect hasher cache).run.run r = (.error e, r'))
    (hclear : ∀ path ∈ t.headerFile, HeaderMap.IsClear path r.files) :
    ((∀ store key, cache = .stored store key → t.IsApart store key r.files r'.files) →
      cache.get r'.files = cache.get r.files) ∧
    ((∀ task err, e ≠ .state task err) →
      r.files.Makes ((t.headerFile.map HeaderMap.parents).getD []) r'.files) := by
  have hfails := fails_of_detect h
  constructor
  · intro hapart
    cases cache with
    | memory held => rfl
    | stored store key =>
      simp only [StateCache.get]
      exact load_of_fails hclear (hapart store key rfl) hfails
  · intro hstate
    generalize hw : r.files = w at hfails hclear ⊢
    generalize hw' : r'.files = w' at hfails ⊢
    cases hfails with
    | unread => exact .refl _ _
    | @unwritten path m digest err _ hpath hwrite =>
      rw [hpath]
      exact HeaderMap.makes_of_write_error (hclear path hpath) hwrite
    | unkept => exact absurd rfl (hstate _ _)

/-- A task without sources that has to put its header dependencies file in the place of a directory, which
is made for it. -/
def blocked : Task := ⟨"b", [], [], false, ∅, some ⟨"/p/x/y/../../x"⟩⟩

/-- A run that begins where a state is stored. -/
def keeping : Run := { files := occupied }

/-- The task fails, and the state is still loaded. -/
theorem unchanged_of_detect_blocked : ∃ r',
    (blocked.detect contentHasher (.stored ⟨⟨"/p/c"⟩, "1"⟩ "b")).run.run keeping =
        (.error (.headerFile ⟨⟨"/p/x/y/../../x"⟩, .isADirectory⟩), r') ∧
      HeaderMap.IsClear ⟨"/p/x/y/../../x"⟩ keeping.files ∧
      blocked.IsApart ⟨⟨"/p/c"⟩, "1"⟩ "b" keeping.files r'.files ∧
      (StateCache.stored ⟨⟨"/p/c"⟩, "1"⟩ "b").get r'.files = stateOf "/p/b.c" ∧
      keeping.files.Makes (HeaderMap.parents ⟨"/p/x/y/../../x"⟩) r'.files ∧
      r'.files.at? ["p", "x", "y"] = some .directory := by
  have hbefore : (∀ e ∈ keeping.files.entries.toList, e.2.isLink = false) ∧
      keeping.files.NameFree "x.tmp.1" ∧
      (segments (HeaderMap.scratch keeping.files ⟨"/p/x/y/../../x"⟩).text).getLast? =
        some "x.tmp.1" ∧
      keeping.files.find ⟨"/p/c/state"⟩ = .ok (["p", "c", "state"], .directory) ∧
      (StateCache.stored ⟨⟨"/p/c"⟩, "1"⟩ "b").get keeping.files = stateOf "/p/b.c" := by
    decide +kernel
  have hafter : ∃ r',
      (blocked.detect contentHasher (.stored ⟨⟨"/p/c"⟩, "1"⟩ "b")).run.run keeping =
        (.error (.headerFile ⟨⟨"/p/x/y/../../x"⟩, .isADirectory⟩), r') ∧
      r'.files.find ⟨"/p/x/y/../../x"⟩ = .ok (["p", "x"], .directory) ∧
      r'.files.at? ["p", "x", "y"] = some .directory :=
    Computation.exists_of_fst_eq (by decide +kernel)
  obtain ⟨hlinks, hfree, hname, hfolder, hheld⟩ := hbefore
  obtain ⟨r', hrun, hblocked, hmade⟩ := hafter
  have hnolink := linkFree_of_isLink hlinks
  have hclear := HeaderMap.isClear_of_nameFree hname hfree
  obtain ⟨hcache, hfiles⟩ := unchanged_of_detect hrun fun p hpath => by
    obtain rfl : ⟨"/p/x/y/../../x"⟩ = p := Option.some.inj hpath
    exact hclear
  have hmakes := hfiles nofun
  have hapart : blocked.IsApart ⟨⟨"/p/c"⟩, "1"⟩ "b" keeping.files r'.files := by
    constructor
    case file => exact fun target => not_has_link hlinks target
    case scratch => exact hnolink _
    case header => exact fun _ _ place name _ => hnolink name place
    case outside =>
      intro p hpath place x hfind
      obtain rfl : ⟨"/p/x/y/../../x"⟩ = p := Option.some.inj hpath
      rw [hblocked] at hfind
      cases hfind
    case stays => exact stays_of_find hfolder hmakes.carries hmakes.cwd
  refine ⟨r', hrun, hclear, hapart, ?_, hmakes, hmade⟩
  rw [← hheld]
  exact hcache fun _ _ heq => by cases heq; exact hapart

/-- A run in which a state is stored where a link leads. -/
def linked : Run where
  files := ((StateStore.save ⟨⟨"/p/l/c"⟩, "1"⟩ "b" (stateOf "/p/b.c")).run.run
    (((Workspace.bare ["p"] 1).put ["p"] "real" .directory).put ["p"] "l" (.link "real"))).2

/-- Two tasks that fail and change what their caches hold, for one reason each.  The header dependencies
file of the first one takes the place of a link: then the old state cannot be found, and the new one
cannot be stored.  The second cache is empty as long as nothing is named `x`; when that directory has been
made for the header dependencies file, the path of the cache leads to a state. -/
theorem exists_severed :
    ((linked.files.find ⟨"/p/l/c"⟩ = .ok (["p", "real", "c"], .directory) ∧
        linked.files.NameFree "l.tmp.1" ∧
        linked.files.NameFree (StateStore.scratchName linked.files "b") ∧
        (StateCache.stored ⟨⟨"/p/l/c"⟩, "1"⟩ "b").get linked.files = stateOf "/p/b.c") ∧
      ∃ r', (Task.detect ⟨"b", [], [], false, ∅, some ⟨"/p/l"⟩⟩ contentHasher
            (.stored ⟨⟨"/p/l/c"⟩, "1"⟩ "b")).run.run linked =
          (.error (.state "b" (.io ⟨"/p/l/c/state"⟩ .notADirectory)), r') ∧
        (StateCache.stored ⟨⟨"/p/l/c"⟩, "1"⟩ "b").get r'.files = ∅ ∧ stateOf "/p/b.c" ≠ ∅) ∧
    (keeping.files.NameFree "x.tmp.1" ∧
        keeping.files.NameFree (StateStore.scratchName keeping.files "b") ∧
        (StateCache.stored ⟨⟨"/p/x/../c"⟩, "1"⟩ "b").get keeping.files = ∅) ∧
      ∃ r', (blocked.detect contentHasher (.stored ⟨⟨"/p/x/../c"⟩, "1"⟩ "b")).run.run keeping =
          (.error (.headerFile ⟨⟨"/p/x/y/../../x"⟩, .isADirectory⟩), r') ∧
        (StateCache.stored ⟨⟨"/p/x/../c"⟩, "1"⟩ "b").get r'.files = stateOf "/p/b.c" := by
  refine ⟨⟨by decide +kernel, ?_⟩, by decide +kernel, ?_⟩
  · exact Computation.exists_of_fst_eq (by decide +kernel)
  · exact Computation.exists_of_fst_eq (by decide +kernel)

end IncludeDeps.Task

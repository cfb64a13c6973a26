import IncludeDeps.Proofs.TaskState.Interruption

/-!
# Stores behave as maps

A store on a disk is a map from keys to states, as long as nothing fails and nobody else writes to it:
what is loaded under a key is the state that was stored there last, unless it was removed or stored by
another version of the tool.

* `StateStore.Mirrors` says that the files of a store are the entries of a map (`Shelf`);
* `StateStore.Mirrors.save` and `StateStore.Mirrors.remove` are the steps, and
  `StateStore.Mirrors.mapM` is a run of them;
* `StateStore.behaves_as_map` is about all runs on a store that was empty, and about caches: one that is
  in a store tells the same as one in memory.
-/

namespace IncludeDeps

open Workspace

/-- What is stored, by keys: a state, and the version of the tool that has stored it. -/
abbrev Shelf := String → Option (String × TaskState)

/-- The state that a version of the tool makes of what is stored. -/
def Shelf.loaded (tool : String) : Option (String × TaskState) → TaskState
  | some (tool', state) => if tool' = tool then state else ∅
  | none => ∅

/-! ## Operations -/

/-- An operation on a store by a version of the tool.  Versions may take turns on one directory. -/
inductive StoreUse where
  /-- A state is stored. -/
  | save (tool key : String) (state : TaskState)
  /-- A state is loaded. -/
  | load (tool key : String)
  /-- A state is removed. -/
  | remove (tool key : String)

/-- What an operation on a store tells, as far as it does not fail. -/
inductive StoreAnswer where
  /-- The state is stored. -/
  | saved
  /-- This is the state. -/
  | loaded (state : TaskState)
  /-- The state is removed, if there was one. -/
  | removed (existed : Bool)
deriving DecidableEq

namespace StoreUse

/-- The key. -/
def key : StoreUse → String
  | save _ key _ => key
  | load _ key => key
  | remove _ key => key

/-- Whether something is stored or removed. -/
def isChange : StoreUse → Bool
  | load _ _ => false
  | _ => true

/-- What is stored. -/
def stored? : StoreUse → Option (String × TaskState)
  | save tool _ state => some (tool, state)
  | _ => none

/-- The operation, on the directory of a store. -/
def run (s : StateStore) : StoreUse → WorkspaceM StoreError StoreAnswer
  | save tool key state => do
    (s.withTool tool).save key state
    return .saved
  | load tool key => return .loaded ((s.withTool tool).load (← get) key)
  | remove tool key => return .removed (← (s.withTool tool).remove key)

/-- What is stored under a key after the operations: what the last one that has changed it has stored. -/
def kept (uses : List StoreUse) : Shelf := fun key =>
  (uses.filter fun u => u.key = key && u.isChange).getLast?.bind stored?

/-- What an operation has to tell after others, by what they have stored under its key last. -/
def answer (before : List StoreUse) : StoreUse → StoreAnswer
  | save _ _ _ => .saved
  | load tool key => .loaded (Shelf.loaded tool (kept before key))
  | remove _ key => .removed (kept before key).isSome

variable {u : StoreUse} {uses : List StoreUse} {key : String}

/-- What is stored is not too long for a file. -/
def Fits (u : StoreUse) : Prop := ∀ x ∈ u.stored?, x.2.Fits x.1

lemma kept_append_of_ne (h : key ≠ u.key) : kept (uses ++ [u]) key = kept uses key := by
  rw [kept, List.filter_append]
  simp [kept, h.symm]

lemma kept_append_of_isChange (h : u.isChange) : kept (uses ++ [u]) =
    Function.update (kept uses) u.key u.stored? := by
  funext key
  by_cases hkey : key = u.key
  · rw [hkey, Function.update_self, kept, List.filter_append]
    simp [h]
  · rw [Function.update_of_ne hkey, kept_append_of_ne hkey]

lemma kept_append_of_not_isChange (h : u.isChange = false) : kept (uses ++ [u]) = kept uses := by
  funext key
  rw [kept, List.filter_append]
  simp [kept, h]

lemma fits_kept (h : ∀ u ∈ uses, u.Fits) : ∀ x ∈ kept uses key, x.2.Fits x.1 := by
  intro x hx
  obtain ⟨u, hu, hstored⟩ := Option.bind_eq_some_iff.1 hx
  exact h u (List.mem_of_mem_filter (List.mem_of_getLast? hu)) x hstored

end StoreUse

namespace StateStore

variable {s : StateStore} {w w' w₀ : Workspace} {place : Place} {P : Place → Prop}
  {tool key key' : String} {state : TaskState} {keys : List String} {shelf : Shelf}
  {kept : Option (String × TaskState)}

/-! ## The file of a key -/

/-- What is stored under the key is what its file holds; without it there is no file. -/
def Stands (s : StateStore) (w : Workspace) (key : String) : Option (String × TaskState) → Prop
  | some (tool, state) => ∃ place, w.Ends (s.path key) place (fileName key) ∧
    w.at? (place ++ [fileName key]) = some (.file (state.encode tool))
  | none => ∀ e, e ≠ .directory → ¬ w.Has s.folder (fileName key) e

lemma find_of_ends (h : w.Ends (s.path key) place (fileName key)) :
    w.find s.folder = .ok (place, .directory) := by
  rw [path_eq] at h
  exact ((ends_inside_iff (folder_text_ne s) (isFileName_fileName key)).1 h).2.2

lemma Stands.not_has_link (h : s.Stands w key kept) (target : String) :
    ¬ w.Has s.folder (fileName key) (.link target) := by
  cases kept with
  | none => exact h _ nofun
  | some stored =>
    obtain ⟨place, hends, hat⟩ := h
    rw [has_iff (find_of_ends hends), hat]
    nofun

/-- What is loaded is what is stored, if it is by the same version. -/
lemma Stands.load (h : s.Stands w key kept) (hfits : ∀ x ∈ kept, x.2.Fits x.1) :
    s.load w key = Shelf.loaded s.tool kept := by
  cases kept with
  | none =>
    exact load_of_not_has (h.not_has_link ·) fun x => h (.file x) nofun
  | some stored =>
    obtain ⟨place, hends, hat⟩ := h
    have hstate := hfits stored rfl
    rw [load_of_ends hends hat, Shelf.loaded]
    split
    · next htool => rw [← htool, TaskState.decode_of_fits hstate]; rfl
    · next htool => rw [TaskState.decode_of_ne hstate.header htool]; rfl

lemma Stands.alters (h : s.Stands w key kept) (halters : w.Alters P w')
    (hstays : w.Stays s.folder w') (hP : ∀ dir, ¬ P (dir ++ [fileName key])) :
    s.Stands w' key kept := by
  cases kept with
  | none => exact fun e he hhas => h e he ((halters.has_iff hstays (fun dir _ => hP dir) he).1 hhas)
  | some stored =>
    obtain ⟨place, hends, hfile⟩ := h
    exact ⟨place, hends.mono halters.carries halters.cwd,
      (halters.at? _ (hP place) _ (by nofun)).2 hfile⟩

/-! ## The files of all keys -/

/-- The files of the store are the entries of the map, also when its folder is made. -/
structure Mirrors (s : StateStore) (keys : List String) (w : Workspace) (shelf : Shelf) : Prop where
  stands : ∀ key ∈ keys, s.Stands w key (shelf key)
  opened : ∀ key ∈ keys, s.Stands (s.opened w) key (shelf key)
  scratch : ∀ key ∈ keys, ∀ target,
    ¬ (s.opened w).Has s.folder (scratchName w key) (.link target)

/-- A folder that is there need not be made. -/
lemma mirrors_of_find (hfind : w.find s.folder = .ok (place, .directory))
    (hstands : ∀ key ∈ keys, s.Stands w key (shelf key))
    (hscratch : ∀ key ∈ keys, ∀ target, ¬ w.Has s.folder (scratchName w key) (.link target)) :
    s.Mirrors keys w shelf := by
  have hadds := adds_opened s w
  have halters := hadds.alters fun _ => False
  have hstays := stays_of_find hfind hadds.carries hadds.cwd
  refine ⟨hstands, fun key hkey => (hstands key hkey).alters halters hstays fun _ => id, ?_⟩
  intro key hkey target hhas
  exact hscratch key hkey target ((halters.has_iff hstays (fun _ _ => id) (by nofun)).1 hhas)

/-- Changes of the file of one key, and of scratch files, leave the files of the others alone. -/
lemma Stands.alters_ne (h : s.Stands w key' kept) (halters : w.Alters (IsTouched w₀ key true) w')
    (hstays : w.Stays s.folder w') (hkey : Digest.ofText key' ≠ Digest.ofText key) :
    s.Stands w' key' kept := by
  refine h.alters halters hstays fun dir hdir => ?_
  rcases hdir with hscratch | ⟨-, dir', heq⟩
  · exact not_isScratch w₀ key key' dir hscratch
  · exact fileName_ne hkey (List.append_singleton_inj.1 heq).2

lemma mirrors_empty
    (hvacant : ∀ key ∈ keys, ∀ e, e ≠ .directory → ¬ (s.opened w).Has s.folder (fileName key) e)
    (hscratch : ∀ key ∈ keys, ∀ target,
      ¬ (s.opened w).Has s.folder (scratchName w key) (.link target)) :
    s.Mirrors keys w fun _ => none := by
  refine ⟨fun key hkey e he hhas => hvacant key hkey e he ?_, hvacant, hscratch⟩
  obtain ⟨place, hfind, hat⟩ := hhas
  have hadds := adds_opened s w
  exact ⟨place, find_mono hfind hadds.carries hadds.cwd, hadds.kept _ _ hat⟩

variable (hdigest : ∀ key ∈ keys, ∀ key' ∈ keys, Digest.ofText key' = Digest.ofText key → key' = key)

include hdigest in
/-- To store a state is to put it into the map.  This holds of every version of the tool, as the name
of the file does not tell the version; the state of another version under the same key is replaced
too. -/
lemma Mirrors.save (h : s.Mirrors keys w shelf) (hkey : key ∈ keys)
    (hrun : ((s.withTool tool).save key state).run.run w = (.ok (), w')) :
    s.Mirrors keys w' (Function.update shelf key (some (tool, state))) := by
  obtain ⟨-, w₂, hwrite, hrename⟩ := exists_rename_of_save hrun
  have hprocess := (adds_opened s w).processId
  -- the scratch name depends on the process only, and making directories does not change that
  have hlink : ∀ key ∈ keys, ∀ target,
      ¬ (s.opened w).Has s.folder (scratchName (s.opened w) key) (.link target) := by
    intro key hkey target
    rw [scratchName_congr hprocess]
    exact h.scratch key hkey target
  rw [scratch_congr hprocess] at hwrite hrename
  obtain ⟨place, hends, hfind, hreplaces⟩ :=
    replaces_of_rename (s := s.withTool tool) (hlink key hkey) hwrite hrename
  have hgoal : ∀ target, (s.opened w).at? (place ++ [fileName key]) ≠ some (.link target) :=
    fun target hat => (h.opened key hkey).not_has_link target ⟨place, hfind, hat⟩
  have hcarries := hreplaces.carries hgoal
  have halters : (s.opened w).Alters (IsTouched (s.opened w) key true) w' :=
    (hreplaces.alters hgoal).mono fun q hq =>
      hq.imp (fun hq => ⟨place, hq⟩) fun hq => ⟨rfl, place, hq⟩
  have hstays := stays_of_find hfind hcarries hreplaces.cwd
  -- the file of this key has the new state, those of the other keys have other names
  refine mirrors_of_find (find_mono hfind hcarries hreplaces.cwd) (fun key' hkey' => ?_)
    fun key' hkey' target hhas => ?_
  · by_cases heq : key' = key
    · rw [heq, Function.update_self]
      exact ⟨place, hends.mono hcarries hreplaces.cwd, hreplaces.at?_goal⟩
    · rw [Function.update_of_ne heq]
      exact (h.opened key' hkey').alters_ne halters hstays fun hdig =>
        heq (hdigest key hkey key' hkey' hdig)
  · rw [scratchName_congr hreplaces.processId] at hhas
    exact hlink key' hkey' target (has_link_mono hreplaces.carries_symm hreplaces.cwd.symm hhas)

include hdigest in
/-- To remove a state is to take it out of the map, and the answer is whether it was there.  If it
was not, nothing changes, and there is nothing by that name which could be removed instead. -/
lemma Mirrors.remove {existed : Bool} (h : s.Mirrors keys w shelf) (hkey : key ∈ keys)
    (hrun : ((s.withTool tool).remove key).run.run w = (.ok existed, w')) :
    existed = (shelf key).isSome ∧ s.Mirrors keys w' (Function.update shelf key none) := by
  have hpath : (s.withTool tool).path key = s.path key := rfl
  have hstands := h.stands key hkey
  rw [remove_run, hpath] at hrun
  cases hkept : shelf key with
  | some stored =>
    -- the file is removed
    rw [hkept] at hstands
    obtain ⟨place, hends, hat⟩ := hstands
    rw [hends.unlink hat nofun] at hrun
    cases hrun
    have hfind := find_of_ends hends
    have hset := sets_remove hat nofun
    have hplain : IsPlain (w.at? (place ++ [fileName key])) := by
      rw [hat]
      exact isPlain_file _
    refine ⟨rfl, mirrors_of_find (find_mono hfind (hset.carries hplain) hset.cwd)
      (fun key' hkey' => ?_) fun key' hkey' target hhas => ?_⟩
    · by_cases heq : key' = key
      · rw [heq, Function.update_self]
        intro e he hhas
        rw [has_iff (find_mono hfind (hset.carries hplain) hset.cwd), hset.at?_self] at hhas
        cases hhas
      · rw [Function.update_of_ne heq]
        have halters : w.Alters (IsTouched w key true) _ :=
          (hset.alters hplain).mono fun q hq => .inr ⟨rfl, place, hq⟩
        have hstays := stays_of_find hfind halters.carries halters.cwd
        exact (h.stands key' hkey').alters_ne halters hstays fun hdig =>
          heq (hdigest key hkey key' hkey' hdig)
    · have hadds := adds_opened s w
      have hhas' := has_link_mono (hset.carries_symm isPlain_none) hset.cwd.symm hhas
      exact h.scratch key' hkey' target (has_link_mono hadds.carries hadds.cwd hhas')
  | none =>
    -- there is nothing that could be removed
    rw [hkept] at hstands
    rw [Function.update_eq_self_iff.2 hkept.symm]
    split at hrun
    · next w₁ hunlink =>
      obtain ⟨place, name, e, hends, hat, he, -⟩ := exists_ends_of_unlink hunlink
      have hname : name = fileName key := by
        rw [path_eq] at hends
        exact hends.name_eq (isFileName_fileName key)
      rw [hname] at hends hat
      exact absurd ⟨place, find_of_ends hends, hat⟩ (hstands e he)
    · cases hrun
      exact ⟨rfl, h⟩
    · cases hrun

/-! ## Runs -/

section

open StoreUse

variable {u : StoreUse} {before uses : List StoreUse} {a : StoreAnswer} {answers : List StoreAnswer}

include hdigest in
/-- An operation tells what the map tells, and changes the files as it changes the map. -/
lemma Mirrors.step (h : s.Mirrors keys w (StoreUse.kept before)) (hkey : u.key ∈ keys)
    (hfits : ∀ u ∈ before, u.Fits) (hrun : (u.run s).run.run w = (.ok a, w')) :
    a = u.answer before ∧ s.Mirrors keys w' (StoreUse.kept (before ++ [u])) := by
  cases u with
  | save tool key state =>
    obtain ⟨_, w₁, hsave, hend⟩ := Computation.exists_of_run_bind hrun
    cases hend
    rw [kept_append_of_isChange rfl]
    exact ⟨rfl, h.save hdigest hkey hsave⟩
  | load tool key =>
    obtain ⟨w₁, w₂, hget, hend⟩ := Computation.exists_of_run_bind hrun
    cases hget
    cases hend
    rw [kept_append_of_not_isChange rfl]
    refine ⟨congrArg StoreAnswer.loaded ?_, h⟩
    exact Stands.load (s := s.withTool tool) (h.stands key hkey) (fits_kept hfits)
  | remove tool key =>
    obtain ⟨existed, w₁, hremove, hend⟩ := Computation.exists_of_run_bind hrun
    cases hend
    obtain ⟨hexisted, hmirrors⟩ := h.remove hdigest hkey hremove
    rw [kept_append_of_isChange rfl]
    exact ⟨congrArg StoreAnswer.removed hexisted, hmirrors⟩

include hdigest in
/-- All operations of a run tell what the map tells. -/
lemma Mirrors.mapM (h : s.Mirrors keys w (StoreUse.kept before)) (hkeys : ∀ u ∈ uses, u.key ∈ keys)
    (hfits : ∀ u ∈ before ++ uses, u.Fits)
    (hrun : (uses.mapM (StoreUse.run s)).run.run w = (.ok answers, w')) :
    s.Mirrors keys w' (StoreUse.kept (before ++ uses)) ∧
      ∀ done u after, uses = done ++ u :: after →
        answers[done.length]? = some (u.answer (before ++ done)) := by
  -- `before` takes in one operation after the other, so the map of the next step is that of the
  -- operations so far
  induction uses generalizing before w answers with
  | nil =>
    cases hrun
    rw [List.append_nil]
    exact ⟨h, fun done u after heq => absurd heq.symm (by simp)⟩
  | cons first rest ih =>
    rw [List.mapM_cons] at hrun
    obtain ⟨a, w₁, hfirst, hrun⟩ := Computation.exists_of_run_bind hrun
    obtain ⟨others, w₂, hrest, hend⟩ := Computation.exists_of_run_bind hrun
    cases hend
    obtain ⟨ha, hstep⟩ := h.step hdigest (hkeys first List.mem_cons_self)
      (fun u hu => hfits u (List.mem_append_left _ hu)) hfirst
    rw [← List.singleton_append, ← List.append_assoc] at hfits
    obtain ⟨hlast, hothers⟩ := ih hstep (fun u hu => hkeys u (List.mem_cons_of_mem _ hu)) hfits hrest
    rw [List.append_assoc] at hlast
    refine ⟨hlast, fun done u after heq => ?_⟩
    cases done with
    | nil =>
      cases heq
      rw [List.append_nil]
      exact congrArg some ha
    | cons d done =>
      obtain ⟨rfl, hrest⟩ := List.cons_eq_cons.1 heq
      have hanswer := hothers done u after hrest
      rw [List.append_assoc] at hanswer
      exact hanswer

lemma Mirrors.load (h : s.Mirrors keys w (StoreUse.kept uses)) (hkey : key ∈ keys)
    (hfits : ∀ u ∈ uses, u.Fits) (tool : String) :
    (s.withTool tool).load w key = Shelf.loaded tool (StoreUse.kept uses key) :=
  Stands.load (s := s.withTool tool) (h.stands key hkey) (fits_kept hfits)

end

end StateStore

/-! ## Caches -/

/-- An operation on a cache: a state is kept, or asked for. -/
inductive CacheUse where
  /-- The state is asked for. -/
  | get
  /-- A state is kept. -/
  | set (state : TaskState)

namespace CacheUse

/-- What a cache tells, each time it is asked for the state. -/
def runAll : List CacheUse → StateCache → WorkspaceM StoreError (List TaskState)
  | [], _ => return []
  | .get :: rest, c => do
    let state := c.get (← MonadState.get)
    return state :: (← runAll rest c)
  | .set state :: rest, c => do
    let c ← c.set state
    runAll rest c

variable {s : StateStore} {w w' : Workspace} {tool key : String} {keys : List String}
  {shelf : Shelf} {held : Option TaskState} {uses : List CacheUse} {states : List TaskState}

/-- A cache in a store tells the same as one in memory that holds the same. -/
lemma runAll_memory
    (hdigest : ∀ key ∈ keys, ∀ key' ∈ keys, Digest.ofText key' = Digest.ofText key → key' = key)
    (h : s.Mirrors keys w shelf) (hkey : key ∈ keys) (hheld : shelf key = held.map (tool, ·))
    (hfits : ∀ state, held = some state ∨ .set state ∈ uses → state.Fits tool)
    (hrun : (runAll uses (.stored (s.withTool tool) key)).run.run w = (.ok states, w'))
    (v : Workspace) : ((runAll uses (.memory held)).run.run v).1 = .ok states := by
  induction uses generalizing w shelf held states with
  | nil =>
    cases hrun
    rfl
  | cons u rest ih =>
    cases u with
    | get =>
      obtain ⟨w₁, w₂, hget, hrun⟩ := Computation.exists_of_run_bind hrun
      cases hget
      obtain ⟨others, w₂, hrest, hend⟩ := Computation.exists_of_run_bind hrun
      cases hend
      have hothers := ih h hheld (fun state hstate => hfits state (hstate.imp_right
        (List.mem_cons_of_mem _))) hrest
      -- what the store loads is what the other cache holds; from there on both go on alike
      have hstate : (s.withTool tool).load w key = held.getD ∅ := by
        have hstands := h.stands key hkey
        rw [hheld] at hstands
        have hload := StateStore.Stands.load (s := s.withTool tool) hstands fun x hx => by
          obtain ⟨state, hstate, rfl⟩ := Option.map_eq_some_iff.1 hx
          exact hfits state (.inl hstate)
        rw [hload]
        cases held with
        | none => rfl
        | some state => exact if_pos rfl
      have hrest' : (runAll rest (.memory held)).run.run v = (.ok others, _) :=
        Prod.ext hothers rfl
      show ((runAll rest (.memory held) >>= fun states => return held.getD ∅ :: states :
        WorkspaceM StoreError (List TaskState)).run.run v).1 = _
      rw [Computation.run_bind_of_ok hrest', ← hstate]
      rfl
    | set state =>
      obtain ⟨c, w₁, hset, hrun⟩ := Computation.exists_of_run_bind hrun
      obtain ⟨_, w₂, hsave, hend⟩ := Computation.exists_of_run_bind hset
      cases hend
      have hnext := h.save hdigest hkey hsave
      refine ih hnext (Function.update_self _ _ _) (fun state' hstate' => ?_) hrun
      rcases hstate' with hstate' | hstate'
      · cases hstate'
        exact hfits state (.inr List.mem_cons_self)
      · exact hfits state' (.inr (List.mem_cons_of_mem _ hstate'))

end CacheUse

namespace StateStore

variable {s : StateStore} {w w' : Workspace} {keys : List String}

/-- After a run of operations with these answers the store is a map. -/
structure ActsAsMap (s : StateStore) (keys : List String) (uses : List StoreUse)
    (answers : List StoreAnswer) (w : Workspace) : Prop where
  /-- Every answer is what the operations before have made of the map. -/
  answer : ∀ before u after, uses = before ++ u :: after →
    answers[before.length]? = some (u.answer before)
  /-- What is loaded is what the map holds. -/
  load : ∀ tool, ∀ key ∈ keys,
    (s.withTool tool).load w key = Shelf.loaded tool (StoreUse.kept uses key)
  /-- One more operation does not change what is loaded under another key. -/
  load_of_ne : ∀ (u : StoreUse) a w', u.key ∈ keys → (u.run s).run.run w = (.ok a, w') →
    ∀ tool, ∀ key ∈ keys, key ≠ u.key → (s.withTool tool).load w' key = (s.withTool tool).load w key

lemma actsAsMap_of_mapM {uses : List StoreUse} {answers : List StoreAnswer}
    (hdigest : ∀ key ∈ keys, ∀ key' ∈ keys, Digest.ofText key' = Digest.ofText key → key' = key)
    (h : s.Mirrors keys w (StoreUse.kept [])) (hkeys : ∀ u ∈ uses, u.key ∈ keys)
    (hfits : ∀ u ∈ uses, u.Fits) (hrun : (uses.mapM (StoreUse.run s)).run.run w = (.ok answers, w')) :
    s.ActsAsMap keys uses answers w' := by
  obtain ⟨hlast, hanswers⟩ := h.mapM hdigest hkeys hfits hrun
  refine ⟨hanswers, fun tool key hkey => hlast.load hkey hfits tool, ?_⟩
  intro u a w'' hkey hstep tool key' hkey' hne
  obtain ⟨-, hnext⟩ := hlast.step hdigest hkey hfits hstep
  have hstands := hnext.stands key' hkey'
  rw [List.nil_append, StoreUse.kept_append_of_ne hne] at hstands
  rw [hlast.load hkey' hfits]
  exact Stands.load (s := s.withTool tool) hstands (StoreUse.fits_kept hfits)

/-- A store in whose folder there are no files, and no links in the place of scratch files, behaves as a
map in all runs in which nothing fails, if digests tell the keys apart; and a cache in the store tells
the same as one in memory. -/
theorem behaves_as_map
    (hdigest : ∀ key ∈ keys, ∀ key' ∈ keys, Digest.ofText key' = Digest.ofText key → key' = key)
    (hvacant : ∀ key ∈ keys, ∀ e, e ≠ .directory → ¬ (s.opened w).Has s.folder (fileName key) e)
    (hscratch : ∀ key ∈ keys, ∀ target,
      ¬ (s.opened w).Has s.folder (scratchName w key) (.link target)) :
    (∀ uses answers w', (∀ u ∈ uses, u.key ∈ keys ∧ u.Fits) →
      (uses.mapM (StoreUse.run s)).run.run w = (.ok answers, w') →
      s.ActsAsMap keys uses answers w') ∧
    ∀ tool, ∀ key ∈ keys, ∀ (uses : List CacheUse) states w',
      (∀ state, .set state ∈ uses → state.Fits tool) →
      (CacheUse.runAll uses (.stored (s.withTool tool) key)).run.run w = (.ok states, w') →
      ∀ v, ((CacheUse.runAll uses (.memory none)).run.run v).1 = .ok states := by
  have hempty : s.Mirrors keys w (StoreUse.kept []) := mirrors_empty hvacant hscratch
  constructor
  · intro uses answers w' huses hrun
    exact actsAsMap_of_mapM hdigest hempty (fun u hu => (huses u hu).1)
      (fun u hu => (huses u hu).2) hrun
  · intro tool key hkey uses states w' hfits hrun v
    refine CacheUse.runAll_memory hdigest hempty hkey rfl (fun state hstate => ?_) hrun v
    rcases hstate with hstate | hstate
    · cases hstate
    · exact hfits state hstate

/-- Two versions of the tool store states, one looks at that of the other, and takes back its own. -/
def exchange : List StoreUse :=
  [.save "1" "a" (stateOf "/p/a.c"), .save "2" "b" (stateOf "/p/b.c"), .load "1" "b",
    .remove "1" "a"]

theorem behaves_as_map_exchange :
    let s : StateStore := ⟨⟨"/p/c"⟩, "1"⟩
    let w : Workspace := .bare ["p"] 1
    let keys := ["a", "b"]
    (∀ key ∈ keys, ∀ key' ∈ keys, Digest.ofText key' = Digest.ofText key → key' = key) ∧
      (∀ key ∈ keys, ∀ e, e ≠ .directory → ¬ (s.opened w).Has s.folder (fileName key) e) ∧
      (∀ key ∈ keys, ∀ target,
        ¬ (s.opened w).Has s.folder (scratchName w key) (.link target)) ∧
      (∃ answers w', (exchange.mapM (StoreUse.run s)).run.run w = (.ok answers, w') ∧
        answers[2]? = some (.loaded ∅) ∧ answers[3]? = some (.removed true) ∧
        (s.withTool "2").load w' "b" = stateOf "/p/b.c") ∧
      ∃ states w', (CacheUse.runAll [.get, .set (stateOf "/p/a.c"), .get]
          (.stored (s.withTool "1") "a")).run.run w = (.ok states, w') ∧
        ∀ v, ((CacheUse.runAll [.get, .set (stateOf "/p/a.c"), .get]
          (.memory none)).run.run v).1 = .ok states := by
  intro s w keys
  have hdigest : ∀ key ∈ keys, ∀ key' ∈ keys,
      Digest.ofText key' = Digest.ofText key → key' = key := by
    decide +kernel
  have hfree : ∀ key ∈ keys, (s.opened w).NameFree (fileName key) := by decide +kernel
  have hlinks : ∀ e ∈ (s.opened w).entries.toList, e.2.isLink = false := by decide +kernel
  have hvacant : ∀ key ∈ keys, ∀ e, e ≠ .directory →
      ¬ (s.opened w).Has s.folder (fileName key) e := by
    rintro key hkey e - ⟨place, -, hat⟩
    rw [hfree key hkey place] at hat
    cases hat
  have hscratch : ∀ key ∈ keys, ∀ target,
      ¬ (s.opened w).Has s.folder (scratchName w key) (.link target) :=
    fun key _ target => not_has_link hlinks target
  have hfits : ∀ u ∈ exchange, u.key ∈ keys ∧ u.Fits := by
    have ha : (stateOf "/p/a.c").Fits "1" := by decide +kernel
    have hb : (stateOf "/p/b.c").Fits "2" := by decide +kernel
    simp [exchange, StoreUse.key, StoreUse.Fits, StoreUse.stored?, keys, ha, hb]
  have hrun : ((exchange.mapM (StoreUse.run s)).run.run w).1.toBool := by decide +kernel
  have hcache : ((CacheUse.runAll [.get, .set (stateOf "/p/a.c"), .get]
      (.stored (s.withTool "1") "a")).run.run w).1.toBool := by
    decide +kernel
  obtain ⟨hruns, hcaches⟩ := behaves_as_map hdigest hvacant hscratch
  refine ⟨hdigest, hvacant, hscratch, ?_, ?_⟩
  · obtain ⟨answers, w', hrun⟩ := Computation.exists_of_toBool hrun
    have hmap := hruns exchange answers w' hfits hrun
    exact ⟨answers, w', hrun, (hmap.answer [_, _] _ _ rfl).trans (by decide),
      (hmap.answer [_, _, _] _ _ rfl).trans (by decide),
      (hmap.load "2" "b" (by decide)).trans (by decide)⟩
  · obtain ⟨states, w', hrun⟩ := Computation.exists_of_toBool hcache
    refine ⟨states, w', hrun, hcaches "1" "a" (by decide) _ states w' ?_ hrun⟩
    intro state hstate
    obtain rfl : state = stateOf "/p/a.c" := by simpa using hstate
    decide +kernel

end StateStore

end IncludeDeps

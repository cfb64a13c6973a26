import IncludeDeps.Proofs.TaskState.Store

/-!
# Storing is atomic

To store a state is to make directories, to write the scratch file, and to rename it.  Wherever this
stops, the old state is loaded until the scratch file has its new name, and the new state from then on;
the states under other keys stay what they were: `StateStore.load_of_stops`.

* `Made` are the trees between the directories that are made;
* `StateStore.Stops` are the trees at which storing a state may stop;
* `StateStore.stops_of_save` says that a run ends at one of them.

A new directory can give a path a meaning: with `x` missing, `x/../c` leads nowhere, and then to what is
in `c`.  `StateStore.exists_unearthed` is a tree in which a state comes to light in this way.
-/

namespace IncludeDeps

open Workspace

variable {w w' w₁ w₂ w₃ : Workspace}

/-! ## Making directories -/

/-- What there may be when the making of directories stops, each of which lies in the next one. -/
inductive Made : List Path → Workspace → Workspace → Prop
  | none {l : List Path} {w : Workspace} : Made l w w
  | first {p : Path} {outer : List Path} {w w' : Workspace} :
    w.makeDirectory p = .ok w' → Made (p :: outer) w w'
  | outer {p : Path} {outer : List Path} {w w' : Workspace} :
    w.makeDirectory p = .error .notFound → Made outer w w' → Made (p :: outer) w w'
  | last {p : Path} {outer : List Path} {w w₁ w' : Workspace} :
    w.makeDirectory p = .error .notFound → (createEach outer).run.run w = (.ok (), w₁) →
    w₁.makeDirectory p = .ok w' → Made (p :: outer) w w'

variable {l : List Path}

lemma Made.adds (h : Made l w w') : w.Adds w' := by
  induction h with
  | none => exact .refl _
  | first hmake => exact adds_makeDirectory hmake
  | outer _ _ ih => exact ih
  | @last p outer w w₁ w' _ houter hmake =>
    have hadds := adds_createEach outer w
    rw [houter] at hadds
    exact hadds.trans (adds_makeDirectory hmake)

/-- The directories that are made when nothing stops them include those that were. -/
lemma Made.adds_createEach (h : Made l w w') : w'.Adds ((createEach l).run.run w).2 := by
  induction h with
  | none => exact Workspace.adds_createEach _ _
  | first hmake =>
    rw [createEach_run, hmake]
    exact .refl _
  | @outer p outer w w' hmissing _ ih =>
    rw [createEach_run, hmissing]
    rcases houter : (createEach outer).run.run w with ⟨r, w₁⟩
    rw [houter] at ih
    cases r with
    | error e => exact ih
    | ok u =>
      simp only
      split
      · next hmake => exact ih.trans (adds_makeDirectory hmake)
      · exact ih
  | last hmissing houter hmake =>
    rw [createEach_run, hmissing, houter]
    simp only [hmake]
    exact .refl _

lemma made_createEach (l : List Path) (w : Workspace) : Made l w ((createEach l).run.run w).2 := by
  induction l generalizing w with
  | nil => exact .none
  | cons p outer ih =>
    rw [createEach_run]
    split
    · next hmake => exact .first hmake
    · next hmissing =>
      have houter := ih w
      split
      · next hrun =>
        rw [hrun] at houter
        exact .outer hmissing houter
      · next hrun =>
        split
        · next hmake => exact .last hmissing hrun hmake
        · rw [hrun] at houter
          exact .outer hmissing houter
    · exact .none

namespace StateStore

variable {s : StateStore} {key key' tool' : String} {state : TaskState} {done : Bool}

/-! ## Stopping -/

/-- What there may be when the storing of a state stops, because of a failure or otherwise, and whether
the scratch file had got the name of the state by then. -/
inductive Stops (s : StateStore) (key : String) (state : TaskState) (w : Workspace) :
    Bool → Workspace → Prop
  /-- Some of the directories are there. -/
  | making {w₁ : Workspace} (hmade : Made s.folder.around w w₁) : Stops s key state w false w₁
  /-- The scratch file has a part of its content, or all of it. -/
  | writing {w₁ w₂ : Workspace} {part : Bytes}
    (hmade : (createDirectories s.folder).run.run w = (.ok (), w₁))
    (hpart : part <+: state.encode s.tool) (hwrite : w₁.write (s.scratch w key) part = .ok w₂) :
    Stops s key state w false w₂
  /-- The scratch file has its new name. -/
  | renamed {w₁ w₂ w₃ : Workspace}
    (hmade : (createDirectories s.folder).run.run w = (.ok (), w₁))
    (hwrite : w₁.write (s.scratch w key) (state.encode s.tool) = .ok w₂)
    (hrename : w₂.rename (s.scratch w key) (s.path key) = .ok w₃) : Stops s key state w true w₃
  /-- The scratch file could not be renamed, and it is removed. -/
  | cleaned {w₁ w₂ w₃ : Workspace}
    (hmade : (createDirectories s.folder).run.run w = (.ok (), w₁))
    (hwrite : w₁.write (s.scratch w key) (state.encode s.tool) = .ok w₂)
    (hunlink : w₂.unlink (s.scratch w key) = .ok w₃) : Stops s key state w false w₃

/-- A run of the program ends where it may stop, after the renaming if it succeeds.  So what holds
of all points at which storing may stop holds of the runs that go on to their end, or fail. -/
theorem stops_of_save {r : Except StoreError Unit} (h : (s.save key state).run.run w = (r, w')) :
    s.Stops key state w r.toBool w' := by
  rw [save_run] at h
  split at h
  · next w₁ hmade =>
    obtain rfl : s.opened w = w₁ := congrArg Prod.snd hmade
    cases h
    exact .making (made_createEach _ w)
  next w₁ hmade =>
  split at h
  · obtain rfl : s.opened w = w₁ := congrArg Prod.snd hmade
    cases h
    exact .making (made_createEach _ w)
  next content hcontent =>
  obtain ⟨-, rfl⟩ := TaskState.fileContent_eq_ok_iff.1 hcontent
  split at h
  · obtain rfl : s.opened w = w₁ := congrArg Prod.snd hmade
    cases h
    exact .making (made_createEach _ w)
  next w₂ hwrite =>
  split at h
  · obtain ⟨rfl, hw⟩ := Prod.mk.inj h
    cases hunlink : w₂.unlink (s.scratch w key) with
    | ok w₃ =>
      rw [hunlink] at hw
      exact hw ▸ .cleaned hmade hwrite hunlink
    | error e =>
      rw [hunlink] at hw
      exact hw ▸ .writing hmade (List.prefix_refl _) hwrite
  · next w₃ hrename =>
    cases h
    exact .renamed hmade hwrite hrename

/-- To keep a state in a cache that is in a store is to store it there. -/
lemma stops_of_set {x : Except StoreError StateCache}
    (h : ((StateCache.stored s key).set state).run.run w = (x, w')) :
    s.Stops key state w x.toBool w' := by
  unfold StateCache.set at h
  simp only at h
  rw [Computation.run_bind] at h
  rcases hsave : (s.save key state).run.run w with ⟨r, w₁⟩
  rw [hsave] at h
  cases r with
  | error e =>
    cases h
    exact stops_of_save hsave
  | ok u =>
    cases h
    exact stops_of_save hsave

/-! ## What has changed -/

/-- The places that may change until storing stops: those of scratch files, and of files of the state
once it is stored. -/
def IsTouched (w : Workspace) (key : String) (done : Bool) (q : Place) : Prop :=
  IsScratch w key q ∨ done ∧ ∃ dir, q = dir ++ [fileName key]

section

variable
  (hscratch : ∀ target, ¬ (s.opened w).Has s.folder (scratchName (s.opened w) key) (.link target))
  (hfile : ∀ target, ¬ (s.opened w).Has s.folder (fileName key) (.link target))

include hscratch hfile

/-- The scratch file has taken the place of the file of the state. -/
lemma replaces_of_stops (h : s.Stops key state w true w') :
    ∃ place, (s.opened w).Ends (s.path key) place (fileName key) ∧
      (s.opened w).find s.folder = .ok (place, .directory) ∧
      (s.opened w).Carries w' ∧
      (s.opened w).Replaces (place ++ [scratchName w key]) (place ++ [fileName key])
        (state.encode s.tool) w' := by
  cases h with
  | renamed hmade hwrite hrename =>
    obtain rfl : s.opened w = _ := congrArg Prod.snd hmade
    rw [scratch_congr (adds_opened s w).processId] at hwrite hrename
    obtain ⟨place, hends, hfind, hreplaces⟩ := replaces_of_rename hscratch hwrite hrename
    rw [scratchName_congr (adds_opened s w).processId] at hreplaces
    refine ⟨place, hends, hfind, hreplaces.carries fun target hat => ?_, hreplaces⟩
    exact hfile target ⟨place, hfind, hat⟩

/-- Wherever storing stops, nothing has changed but directories, scratch files, and the file of the state
if it is stored; and all directories are among those for the state. -/
lemma alters_of_stops (h : s.Stops key state w done w') :
    w.Alters (IsTouched w key done) w' ∧ w'.Carries (s.opened w) := by
  have hadds := adds_opened s w
  have halters := hadds.alters (IsTouched w key done)
  -- one case for each point at which storing may stop
  cases h with
  | making hmade => exact ⟨hmade.adds.alters _, hmade.adds_createEach.carries⟩
  | writing hmade hpart hwrite =>
    obtain rfl : s.opened w = _ := congrArg Prod.snd hmade
    rw [scratch_congr hadds.processId] at hwrite
    obtain ⟨place, -, -, hplain, hset⟩ := sets_of_write_scratch hscratch hwrite
    rw [scratchName_congr hadds.processId] at hplain hset
    exact ⟨halters.trans ((hset.alters hplain).mono fun q hq => .inl ⟨place, hq⟩),
      hset.carries_symm (isPlain_file _)⟩
  | renamed hmade hwrite hrename =>
    obtain ⟨place, -, hfind, -, hreplaces⟩ :=
      replaces_of_stops hscratch hfile (.renamed hmade hwrite hrename)
    have hreplaced := hreplaces.alters fun target hat => hfile target ⟨place, hfind, hat⟩
    refine ⟨halters.trans (hreplaced.mono ?_), hreplaces.carries_symm⟩
    rintro q (hq | hq)
    · exact .inl ⟨place, hq⟩
    · exact .inr ⟨rfl, place, hq⟩
  | cleaned hmade hwrite hunlink =>
    obtain rfl : s.opened w = _ := congrArg Prod.snd hmade
    rw [scratch_congr hadds.processId] at hwrite hunlink
    obtain ⟨place, v, hunlink', -, hplain, hset⟩ := sets_of_unlink_scratch hscratch hwrite
    rw [hunlink] at hunlink'
    cases hunlink'
    rw [scratchName_congr hadds.processId] at hplain hset
    exact ⟨halters.trans ((hset.alters hplain).mono fun q hq => .inl ⟨place, hq⟩),
      hset.carries_symm isPlain_none⟩

end

/-! ## What is loaded -/

variable (hlink : ∀ name target, ¬ (s.opened w).Has s.folder name (.link target))
  (hstays : w.Stays s.folder (s.opened w))

include hlink in
lemma not_has_link_of_opened (name target : String) : ¬ w.Has s.folder name (.link target) := by
  have hadds := adds_opened s w
  exact fun hhas => hlink name target (has_link_mono hadds.carries hadds.cwd hhas)

include hlink hstays in
/-- Nothing else is loaded under another key, and under the key itself until the state is stored. -/
lemma load_of_stops_ne (h : s.Stops key state w done w')
    (hkey : done → Digest.ofText key' ≠ Digest.ofText key) (tool' : String) :
    (s.withTool tool').load w' key' = (s.withTool tool').load w key' := by
  obtain ⟨halters, hcarries⟩ := alters_of_stops (hlink _) (hlink _) h
  have hadds := adds_opened s w
  refine load_of_alters (s := s.withTool tool') (not_has_link_of_opened hlink _) halters (fun place hfind => ?_) ?_
  · exact hstays place (find_mono hfind hcarries (hadds.cwd.trans halters.cwd.symm))
  · rintro dir - (hscratch | ⟨hdone, dir', heq⟩)
    · exact not_isScratch w key key' dir hscratch
    · exact fileName_ne (hkey hdone) (List.append_singleton_inj.1 heq).2

include hlink in
/-- Once the scratch file has its new name, the new state is loaded. -/
lemma load_of_stops_self (hfits : state.Fits s.tool) (h : s.Stops key state w true w') :
    s.load w' key = state := by
  obtain ⟨place, hends, -, hcarries, hreplaces⟩ := replaces_of_stops (hlink _) (hlink _) h
  rw [load_of_ends (hends.mono hcarries hreplaces.cwd) hreplaces.at?_goal,
    TaskState.decode_of_fits hfits]
  rfl

/-- Storing is atomic.  Wherever it stops, what is loaded under the key is the old state, or the new one
if the scratch file has its new name, and nothing else is loaded under any other key; a run of the
program ends at such a point, and if it succeeds there is no scratch file.  This is about folders without
links, and the folder comes to lead to no directory that was there before. -/
theorem load_of_stops (hlink : ∀ name target, ¬ (s.opened w).Has s.folder name (.link target))
    (hstays : w.Stays s.folder (s.opened w)) (hfits : state.Fits s.tool) :
    (∀ done w', s.Stops key state w done w' →
      s.load w' key = (if done then state else s.load w key) ∧
      ∀ tool' key', Digest.ofText key' ≠ Digest.ofText key →
        (s.withTool tool').load w' key' = (s.withTool tool').load w key') ∧
    ∃ r w', (s.save key state).run.run w = (r, w') ∧ s.Stops key state w r.toBool w' ∧
      (r.toBool → s.load w' key = state ∧ ∃ place, w'.find s.folder = .ok (place, .directory) ∧
        w'.at? (place ++ [scratchName w key]) = none) := by
  constructor
  · intro done w' h
    refine ⟨?_, fun tool' key' hkey => load_of_stops_ne hlink hstays h (fun _ => hkey) tool'⟩
    cases done with
    | false =>
      rw [if_neg Bool.false_ne_true]
      exact load_of_stops_ne hlink hstays h (fun hdone => nomatch hdone) s.tool
    | true =>
      rw [if_pos rfl]
      exact load_of_stops_self hlink hfits h
  · rcases hrun : (s.save key state).run.run w with ⟨r, w'⟩
    have hstops := stops_of_save hrun
    refine ⟨r, w', rfl, hstops, fun hdone => ?_⟩
    -- the scratch file is gone when it was renamed, and it is not the file of the state
    have hrenamed : s.Stops key state w true w' := hdone ▸ hstops
    obtain ⟨place, -, hfind, hcarries, hreplaces⟩ := replaces_of_stops (hlink _) (hlink _) hrenamed
    refine ⟨load_of_stops_self hlink hfits hrenamed, place,
      find_mono hfind hcarries hreplaces.cwd, hreplaces.at?_source fun heq => ?_⟩
    exact fileName_ne_scratchName w key key (List.append_singleton_inj.1 heq.symm).2

/-- A state with one source. -/
def stateOf (source : String) : TaskState := ⟨.ofList [⟨source⟩], ∅, none⟩

/-- A tree in which the state of `b` is stored. -/
def occupied : Workspace :=
  ((save ⟨⟨"/p/c"⟩, "1"⟩ "b" (stateOf "/p/b.c")).run.run (.bare ["p"] 1)).2

/-- The state of `a` is stored beside it. -/
theorem load_of_stops_occupied :
    let s : StateStore := ⟨⟨"/p/c"⟩, "1"⟩
    (∀ name target, ¬ (s.opened occupied).Has s.folder name (.link target)) ∧
      occupied.Stays s.folder (s.opened occupied) ∧ (stateOf "/p/a.c").Fits s.tool ∧
      (∀ done w', s.Stops "a" (stateOf "/p/a.c") occupied done w' →
        s.load w' "a" = (if done then stateOf "/p/a.c" else ∅) ∧
          s.load w' "b" = stateOf "/p/b.c") ∧
      ∃ w', (s.save "a" (stateOf "/p/a.c")).run.run occupied = (.ok (), w') ∧
        s.Stops "a" (stateOf "/p/a.c") occupied true w' := by
  intro s
  have hfacts : (∀ e ∈ (s.opened occupied).entries.toList, e.2.isLink = false) ∧
      occupied.find s.folder = .ok (["p", "c", "state"], .directory) ∧
      s.load occupied "a" = ∅ ∧ s.load occupied "b" = stateOf "/p/b.c" ∧
      ((s.save "a" (stateOf "/p/a.c")).run.run occupied).1.toBool := by
    decide +kernel
  obtain ⟨hlinks, hfind, hempty, hheld, hdone⟩ := hfacts
  have hfits : (stateOf "/p/a.c").Fits s.tool := by decide +kernel
  have hkey : Digest.ofText "b" ≠ Digest.ofText "a" := by decide +kernel
  have hstays := stays_of_find hfind (adds_opened s occupied).carries (adds_opened s occupied).cwd
  obtain ⟨hloads, r, w', hrun, hstops, -⟩ : _ ∧ ∃ r w', (s.save "a" _).run.run occupied = _ ∧ _ :=
    load_of_stops (fun name target => not_has_link hlinks target) hstays hfits
  refine ⟨fun name target => not_has_link hlinks target, hstays, hfits, fun done w' h => ?_, ?_⟩
  · obtain ⟨hself, hother⟩ := hloads done w' h
    rw [hempty] at hself
    exact ⟨hself, (hother s.tool "b" hkey).trans hheld⟩
  · rw [hrun] at hdone
    cases r with
    | error e => cases hdone
    | ok u => exact ⟨w', hrun, hstops⟩

/-- With nothing named `x`, the path of this store leads nowhere.  As soon as `x` has been made, the state
of `b` is loaded, although it is the one of `a` that is being stored. -/
theorem exists_unearthed :
    let s : StateStore := ⟨⟨"/p/x/../c"⟩, "1"⟩
    (∀ e ∈ occupied.entries.toList, e.2.isLink = false) ∧
      occupied.NameFree (scratchName occupied "a") ∧ Digest.ofText "b" ≠ Digest.ofText "a" ∧
      ∃ w', s.Stops "a" (stateOf "/p/a.c") occupied false w' ∧
        s.load occupied "b" = ∅ ∧ s.load w' "b" = stateOf "/p/b.c" ∧ stateOf "/p/b.c" ≠ ∅ := by
  intro s
  have hfacts : (∀ e ∈ occupied.entries.toList, e.2.isLink = false) ∧
      occupied.NameFree (scratchName occupied "a") ∧ Digest.ofText "b" ≠ Digest.ofText "a" ∧
      s.load occupied "b" = ∅ ∧ s.load (s.opened occupied) "b" = stateOf "/p/b.c" := by
    decide +kernel
  obtain ⟨hlinks, hscratch, hkey, hempty, hheld⟩ := hfacts
  exact ⟨hlinks, hscratch, hkey, _, .making (made_createEach _ _), hempty, hheld, by decide⟩

end StateStore

end IncludeDeps

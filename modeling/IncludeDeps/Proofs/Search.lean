import IncludeDeps.Proofs.MacroTable.Expansion
import IncludeDeps.Proofs.Repetition

/-!
# Resolving the includes of a file

An include of a path is found in the first directory of its search that holds the path as a file
(`Search.IsFirstMatch`).  A file with includes comes to one entry for each path in quotes or brackets,
and to one for each path that an expression stands for, in the order of the expansion, with a mark
behind them if the expansion is not complete (`Search.Becomes`); the entries stand in the order of
the includes.

While the includes are resolved the answers of the file tree are remembered one by one.
`Search.resolveAllAsking` resolves them in this way, asking only where the outcome depends on it, and
`Search.run_resolveAllAsking` tells that it comes to the same as `Search.resolveAll`, and that what is
remembered afterwards are the answers to `Search.probesAll`.
-/

namespace IncludeDeps

lemma exists_of_forall₂ {α β : Type} {R : α → β → Prop} {l : List α} {m : List β}
    (h : List.Forall₂ R l m) {b : β} (hb : b ∈ m) : ∃ a ∈ l, R a b := by
  induction h with
  | nil => cases hb
  | cons hab _ ih =>
    rcases List.mem_cons.1 hb with rfl | hb
    · exact ⟨_, List.mem_cons_self, hab⟩
    · obtain ⟨a, ha, hab⟩ := ih hb
      exact ⟨a, List.mem_cons_of_mem _ ha, hab⟩

/-- A path in quotes or brackets is not empty. -/
lemma Source.ne_empty_of_includeTarget? {text : List Char} {path : IncludeKind × String}
    (h : includeTarget? text = some path) (hkind : path.1 ≠ .computed) : path.2 ≠ "" := by
  have hupTo : ∀ {close : Char} {cs : List Char} {s : String}, upTo? close cs = some s → s ≠ "" := by
    intro close cs s hs
    unfold upTo? at hs
    split at hs
    · split at hs
      · cases hs
      · next hne =>
        cases hs
        simpa using hne
    · cases hs
  unfold includeTarget? at h
  split at h
  · cases h
  · obtain ⟨s, hs, rfl⟩ := Option.map_eq_some_iff.1 h
    exact hupTo hs
  · obtain ⟨s, hs, rfl⟩ := Option.map_eq_some_iff.1 h
    exact hupTo hs
  · cases h
    exact absurd rfl hkind

/-! ## Asking -/

/-- Asks whether a path leads to a file.  The answer is remembered. -/
def Lookup.ask (w : Workspace) (p : Path) : StateM Lookup Bool :=
  fun l => (l.isFile w p, l.remember w p)

namespace Search

variable {w : Workspace} {l : Lookup} {macros : MacroTable} {file : Path} {d : Directives}
  {i : Include} {s : Search} {dirs roots : List Path} {target : String} {loc : Location}

/-- Searches a path in directories, asking in one after the other until it is found. -/
def findAsking (w : Workspace) (target : String) : List Path → StateM Lookup (Option Location)
  | [] => return none
  | dir :: rest => do
    if ← Lookup.ask w (candidate target dir) then return some ⟨candidate target dir, dir⟩
    else findAsking w target rest

/-- Resolves an include: searches what it stands for, one path after the other. -/
def resolveAsking (roots : List Path) (w : Workspace) (macros : MacroTable) (file : Path)
    (i : Include) : StateM Lookup (List ResolvedInclude) := do
  let expansion := targets macros i
  let found ← expansion.paths.mapM fun path => do
    let location ← findAsking w path.2 (directories ⟨roots, w.isFile⟩ file path.1)
    return (⟨i, path.2, location⟩ : ResolvedInclude)
  return found ++ if expansion.isComplete then [] else [⟨i, "", none⟩]

/-- Resolves the includes of a file, one after the other. -/
def resolveAllAsking (roots : List Path) (w : Workspace) (macros : MacroTable) (file : Path)
    (d : Directives) : StateM Lookup Resolution := do
  let parts ← d.includes.mapM (resolveAsking roots w macros file)
  return ⟨parts.flatten, d.includes.all fun i => (targets macros i).isComplete⟩

/-- Where every step answers from what would be answered anyway, a run through a list does. -/
lemma run_mapM_asking {α β : Type} {known : Path → Bool} {f : α → StateM Lookup β} {answer : α → β}
    {asked : α → List Path}
    (h : ∀ x l, l.isFile w = known → (f x).run l = (answer x, l.rememberAll w (asked x)))
    (xs : List α) (hl : l.isFile w = known) :
    (xs.mapM f).run l = (xs.map answer, l.rememberAll w (xs.flatMap asked)) := by
  induction xs generalizing l with
  | nil => rfl
  | cons x rest ih =>
    have hnext : (l.rememberAll w (asked x)).isFile w = known := by
      rw [← hl]
      exact funext fun _ => Lookup.isFile_rememberAll
    rw [List.mapM_cons, StateT.run_bind, h x l hl]
    show StateT.run (List.mapM f rest >>= fun bs => pure (answer x :: bs)) _ = _
    rw [StateT.run_bind, ih hnext, List.flatMap_cons, Lookup.rememberAll, Lookup.rememberAll,
      Lookup.rememberAll, List.foldl_append]
    rfl

lemma run_findAsking (hl : l.isFile w = s.isFile) : (findAsking w target dirs).run l =
    (s.find? dirs target, l.rememberAll w (s.probes dirs target)) := by
  induction dirs generalizing l with
  | nil => rfl
  | cons dir rest ih =>
    have hanswer : l.isFile w (candidate target dir) = s.isFile (candidate target dir) :=
      congrFun hl _
    have hnext : (l.remember w (candidate target dir)).isFile w = s.isFile := by
      rw [← hl]
      exact funext fun _ => Lookup.isFile_remember
    have hask : (Lookup.ask w (candidate target dir)).run l =
        (s.isFile (candidate target dir), l.remember w (candidate target dir)) := by
      rw [← hanswer]
      rfl
    rw [findAsking, StateT.run_bind, hask, find?_cons, probes_cons]
    cases s.isFile (candidate target dir) with
    | true => rfl
    | false => exact ih hnext

lemma run_resolveAsking (hroots : s.roots = roots) (hl : l.isFile w = s.isFile) :
    (resolveAsking roots w macros file i).run l = (s.resolve macros file i,
      l.rememberAll w ((targets macros i).paths.flatMap fun path =>
        s.probes (s.directories file path.1) path.2)) := by
  have hpath : ∀ (path : IncludeKind × String) (l : Lookup), l.isFile w = s.isFile →
      (do
        let location ← findAsking w path.2 (directories ⟨roots, w.isFile⟩ file path.1)
        return (⟨i, path.2, location⟩ : ResolvedInclude)).run l =
      (⟨i, path.2, s.find? (s.directories file path.1) path.2⟩,
        l.rememberAll w (s.probes (s.directories file path.1) path.2)) := by
    intro path l hl
    rw [StateT.run_bind, run_findAsking hl, directories_congr hroots.symm]
    rfl
  rw [resolveAsking, StateT.run_bind, run_mapM_asking hpath _ hl]
  rfl

/-- Resolving the includes one after the other, with answers that are remembered, comes to the same
as looking at what was remembered before, and else at the file tree. -/
theorem run_resolveAllAsking (hroots : s.roots = roots) (hl : l.isFile w = s.isFile) :
    (resolveAllAsking roots w macros file d).run l =
      (s.resolveAll macros file d, l.rememberAll w (s.probesAll macros file d)) := by
  rw [resolveAllAsking, StateT.run_bind,
    run_mapM_asking (fun _ _ hl => run_resolveAsking hroots hl) _ hl]
  rfl

/-! ## The first match -/

/-- The first of the directories in which the path leads to a file, and this file. -/
structure IsFirstMatch (isFile : Path → Bool) (dirs : List Path) (target : String)
    (loc : Location) : Prop where
  file_eq : loc.file = (loc.root.join ⟨target⟩).normalize
  found : isFile loc.file
  first : ∃ before after, dirs = before ++ loc.root :: after ∧
    ∀ dir ∈ before, isFile (dir.join ⟨target⟩).normalize = false

lemma find?_eq_some_iff {isFile : Path → Bool} : find? ⟨roots, isFile⟩ dirs target = some loc ↔
    IsFirstMatch isFile dirs target loc := by
  have hcandidate : ∀ dir, candidate target dir = (dir.join ⟨target⟩).normalize := fun _ => rfl
  rw [find?, Option.map_eq_some_iff]
  constructor
  · rintro ⟨dir, hdir, hloc⟩
    have hfile : loc.file = candidate target dir := by rw [← hloc]
    have hroot : loc.root = dir := by rw [← hloc]
    obtain ⟨hfound, before, after, hdirs, hbefore⟩ := List.find?_eq_some_iff_append.1 hdir
    rw [← hroot] at hdirs hfile
    refine ⟨hfile, hfile ▸ hroot ▸ hfound, before, after, hdirs, fun dir' hdir' => ?_⟩
    simpa [hcandidate] using hbefore dir' hdir'
  · rintro ⟨hfile, hfound, before, after, hdirs, hbefore⟩
    rw [← hcandidate] at hfile
    refine ⟨loc.root, List.find?_eq_some_iff_append.2 ⟨?_, before, after, hdirs, ?_⟩, ?_⟩
    · rw [← hfile]
      exact hfound
    · exact fun dir hdir => by simpa [hcandidate] using hbefore dir hdir
    · rw [← hfile]

lemma find?_eq_none_iff {isFile : Path → Bool} : find? ⟨roots, isFile⟩ dirs target = none ↔
    ∀ dir ∈ dirs, isFile (dir.join ⟨target⟩).normalize = false := by
  rw [find?, Option.map_eq_none_iff, List.find?_eq_none]
  simp [candidate]

/-- The directories in which a path is searched that `file` includes: beside the file, if the path is
in quotes, and then in the include roots. -/
def order (roots : List Path) (file : Path) (kind : IncludeKind) : List Path :=
  (if kind = .quoted then file.parent?.toList else []) ++ roots.map Path.normalize

lemma directories_eq (isFile : Path → Bool) (roots : List Path) (file : Path) (kind : IncludeKind) :
    directories ⟨roots.map Path.normalize, isFile⟩ file kind = order roots file kind := by
  cases kind with
  | quoted => rfl
  | system => rfl
  | computed => rfl

/-! ## Entries -/

/-- What becomes of a path that a directive of `file` stands for. -/
structure IsEntry (w : Workspace) (roots : List Path) (file : Path) (i : Include)
    (path : IncludeKind × String) (r : ResolvedInclude) : Prop where
  directive : r.directive = i
  candidate : r.candidate = path.2
  location : ∀ loc, r.location = some loc ↔
    IsFirstMatch w.isFile (order roots file path.1) path.2 loc
  missing : r.location = none ↔
    ∀ dir ∈ order roots file path.1, w.isFile (dir.join ⟨path.2⟩).normalize = false

/-- What becomes of a directive of `file`, told without the searches that lead there: each path has
the entry that `IsEntry` allows. -/
inductive Becomes (w : Workspace) (roots : List Path) (macros : MacroTable) (file : Path) :
    Include → List ResolvedInclude → Prop
  /-- A path in quotes or brackets becomes one entry. -/
  | literal {i : Include} {r : ResolvedInclude} (hkind : i.kind ≠ .computed)
    (hentry : IsEntry w roots file i (i.kind, i.target) r) : Becomes w roots macros file i [r]
  /-- An expression becomes one entry for each path that it stands for. -/
  | complete {i : Include} {rs : List ResolvedInclude} (hkind : i.kind = .computed)
    (hentries : List.Forall₂ (IsEntry w roots file i) (macros.expand i.target).paths rs)
    (hcomplete : (macros.expand i.target).isComplete) : Becomes w roots macros file i rs
  /-- Behind them there is a mark, if the expansion is not complete. -/
  | incomplete {i : Include} {rs : List ResolvedInclude} (hkind : i.kind = .computed)
    (hentries : List.Forall₂ (IsEntry w roots file i) (macros.expand i.target).paths rs)
    (hincomplete : (macros.expand i.target).isComplete = false) :
    Becomes w roots macros file i (rs ++ [⟨i, "", none⟩])

/-- The mark of an expansion that is not complete.  No other entry looks like it, as an entry that
was searched for has a path. -/
structure IsMark (r : ResolvedInclude) : Prop where
  kind : r.directive.kind = .computed
  candidate : r.candidate = ""
  location : r.location = none

lemma isEntry_find? (w : Workspace) (roots : List Path) (file : Path) (i : Include)
    (path : IncludeKind × String) : IsEntry w roots file i path
      ⟨i, path.2, find? ⟨roots.map Path.normalize, w.isFile⟩
        (directories ⟨roots.map Path.normalize, w.isFile⟩ file path.1) path.2⟩ := by
  rw [directories_eq]
  constructor
  case directive => rfl
  case candidate => rfl
  case location => exact fun loc => find?_eq_some_iff
  case missing => exact find?_eq_none_iff

theorem becomes_resolve (w : Workspace) (roots : List Path) (macros : MacroTable) (file : Path)
    (i : Include) : Becomes w roots macros file i
      (resolve ⟨roots.map Path.normalize, w.isFile⟩ macros file i) := by
  by_cases hi : i.isComputed
  · have hkind : i.kind = .computed := by simpa [Include.isComputed] using hi
    have hentries : List.Forall₂ (IsEntry w roots file i) (macros.expand i.target).paths
        ((macros.expand i.target).paths.map fun path =>
          ⟨i, path.2, find? ⟨roots.map Path.normalize, w.isFile⟩
            (directories ⟨roots.map Path.normalize, w.isFile⟩ file path.1) path.2⟩) :=
      List.forall₂_map_right_iff.2
        (List.forall₂_same.2 fun path _ => isEntry_find? w roots file i path)
    rw [resolve, targets, if_pos hi]
    cases hcomplete : (macros.expand i.target).isComplete with
    | true =>
      rw [if_pos rfl, List.append_nil]
      exact .complete hkind hentries hcomplete
    | false => exact .incomplete hkind hentries hcomplete
  · have hkind : i.kind ≠ .computed := by simpa [Include.isComputed] using hi
    rw [resolve_of_literal (Bool.eq_false_iff.2 hi)]
    exact .literal hkind (isEntry_find? w roots file i (i.kind, i.target))

/-- No expression stands for an empty path, so only an expansion that is not complete leaves a
mark. -/
lemma ne_mark_of_mem_expand {path : IncludeKind × String} (h : path ∈ (macros.expand i.target).paths) :
    path.2 ≠ "" := by
  obtain ⟨names, -, last, -, ⟨value, -, htarget⟩, hkind⟩ := MacroTable.mem_paths_iff.1 h
  exact Source.ne_empty_of_includeTarget? htarget hkind

lemma Becomes.isComplete_iff {rs : List ResolvedInclude} (h : Becomes w roots macros file i rs) :
    (targets macros i).isComplete ↔ ∀ r ∈ rs, ¬ IsMark r := by
  have hexpand : i.kind = .computed → targets macros i = macros.expand i.target := by
    intro hkind
    rw [targets, Include.isComputed, if_pos (decide_eq_true hkind)]
  -- a mark has an empty path, and no expansion comes to one
  have hentries : ∀ {rs}, List.Forall₂ (IsEntry w roots file i) (macros.expand i.target).paths rs →
      ∀ r ∈ rs, ¬ IsMark r := by
    intro rs hentries r hr hmark
    obtain ⟨path, hpath, hentry⟩ := exists_of_forall₂ hentries hr
    exact ne_mark_of_mem_expand hpath (hentry.candidate ▸ hmark.candidate)
  cases h with
  | literal hkind hentry =>
    have hi : i.isComputed = false := decide_eq_false hkind
    rw [targets_of_literal hi]
    refine iff_of_true rfl fun r hr hmark => hkind ?_
    obtain rfl := List.mem_singleton.1 hr
    rw [← hentry.directive]
    exact hmark.kind
  | complete hkind h hcomplete =>
    rw [hexpand hkind]
    exact iff_of_true hcomplete (hentries h)
  | incomplete hkind h hincomplete =>
    rw [hexpand hkind]
    refine iff_of_false (by simp [hincomplete]) fun hmarks => ?_
    exact hmarks ⟨i, "", none⟩ (by simp) ⟨hkind, rfl, rfl⟩

/-- The includes of a file are resolved one after the other, each path in the first directory of
its search in which it leads to a file.  What an expression stands for comes in the order of its
expansion, and one mark follows if this is not all.  Remembering the answers on the way makes no
difference.

The roots may be written in any way; they are normalised before the search, so that is what the
entries show.  Paths that are missing leave entries too, without a file. -/
theorem resolveAll_exact (roots : List Path) (w : Workspace) (macros : MacroTable) (file : Path)
    (d : Directives) :
    let s : Search := ⟨roots.map Path.normalize, w.isFile⟩
    let outcome := s.resolveAll macros file d
    (resolveAllAsking s.roots w macros file d).run {} =
        (outcome, Lookup.rememberAll {} w (s.probesAll macros file d)) ∧
      (∃ parts, outcome.resolved = parts.flatten ∧
        List.Forall₂ (Becomes w roots macros file) d.includes parts) ∧
      (outcome.isComplete ↔ ∀ r ∈ outcome.resolved, ¬ IsMark r) := by
  intro s outcome
  have hbecomes := becomes_resolve w roots macros file
  have hfresh : ({} : Lookup).isFile w = w.isFile := rfl
  -- remembering, the parts, what each part is, and whether a mark is needed
  refine ⟨?_, ⟨d.includes.map (s.resolve macros file), ?_, ?_⟩, ?_⟩
  · exact run_resolveAllAsking rfl hfresh
  · exact List.flatMap_def
  · exact List.forall₂_map_right_iff.2 (List.forall₂_same.2 fun i _ => hbecomes i)
  · show (d.includes.all fun i => (targets macros i).isComplete) ↔
      ∀ r ∈ d.includes.flatMap (s.resolve macros file), ¬ IsMark r
    rw [List.all_eq_true, List.forall_mem_flatMap]
    exact forall₂_congr fun i _ => (hbecomes i).isComplete_iff

end Search

end IncludeDeps

import IncludeDeps.Proofs.Compile.Progress
import IncludeDeps.Proofs.Repetition

/-!
# Steps after one that failed

A step that fails to compile may have removed object files, but what the cache holds it leaves as it
was.  So a step after it that sees the same files comes to the same analysis, and an incremental one
tells the compiler what this analysis has found out, whatever was removed:
`CompileStep.hands_after_failure`.

`Task.Unchanged` is about the files that an analysis looks at, and `Task.analyseIn_of_unchanged`
tells that nothing else matters to it.  Among these files there may be object files only if a task
includes them, so a compiler that writes others does not matter either.

Whether object files are still there is not remembered.  `CompileStep.exists_skipped` is what comes
of this: a full step has removed them all before it failed, and the next incremental one asks for
those only whose sources have changed.
-/

namespace IncludeDeps

/-! ## Files that did not change -/

/-- The files that a pass has tried to read. -/
def Pass.tried (pass : Pass) : List Path := pass.files.keys ++ pass.unreadable.toList

lemma Pass.Coherent.mem_tried {c : PassContext} {pass : Pass} {p : Path} (hc : pass.Coherent c)
    (hp : p.IsCanonical) (h : pass.HasTried p) : p ∈ pass.tried := by
  rcases h with hfile | hun
  · rw [OrderedMap.contains_eq_isSome] at hfile
    obtain ⟨d, hd⟩ := Option.isSome_iff_exists.1 hfile
    obtain ⟨e, he, hcompare⟩ := OrderedMap.exists_mem_of_get?_eq_some hd
    have heq := hp.eq_of_compare (hc.files _ he).canonical hcompare
    exact List.mem_append_left _ (List.mem_map.2 ⟨_, he, heq.symm⟩)
  · obtain ⟨q, hq, hcompare⟩ := OrderedSet.contains_iff.1 hun
    have heq := hp.eq_of_compare (hc.unreadable q hq).1 hcompare
    exact List.mem_append_right _ (heq ▸ hq)

/-- What is read of a file depends on its digest and its content, and on what is known. -/
lemma PassContext.draft_congr {c c' : PassContext} {p : Path} (hsettings : c'.settings = c.settings)
    (hprevious : c'.previous = c.previous) (hdigest : c'.reader.digest p = c.reader.digest p)
    (hcontent : c'.reader.content p = c.reader.content p) : c'.draft p = c.draft p := by
  have hreuses : c'.reusesPrevious = c.reusesPrevious := by
    rw [reusesPrevious, reusesPrevious, hsettings, hprevious]
  have hknown : c'.knownDirectives? = c.knownDirectives? := by
    funext q digest
    rw [knownDirectives?, knownDirectives?, hreuses, hprevious]
  rw [draft, draft, hdigest, hcontent, hknown, hsettings]

/-- What a pass comes to depends on the settings and on the previous state. -/
lemma Analysis.ofPass_congr {c c' : PassContext} {sources : OrderedSet Path} {pass : Pass}
    (hsettings : c'.settings = c.settings) (hprevious : c'.previous = c.previous) :
    ofPass c' sources pass = ofPass c sources pass := by
  rw [ofPass, ofPass, hsettings, hprevious]

namespace Task

variable {t : Task} {hasher : Hasher} {w w' : Workspace} {previous : TaskState} {a : Analysis}

/-- The pass of an analysis, as it is in the end. -/
def lastPass (t : Task) (hasher : Hasher) (w : Workspace) (previous : TaskState) : Pass :=
  (Analysis.run (t.context hasher w previous) (t.canonicalSources w)).2

/-- The sources and all files that an analysis in `w` looks at are the same in `w'`. -/
structure Unchanged (t : Task) (hasher : Hasher) (previous : TaskState) (w w' : Workspace) :
    Prop where
  sources : RunM.absoluteAll w' t.sources = RunM.absoluteAll w t.sources
  isFile : ∀ p ∈ (t.lastPass hasher w previous).probes, w'.isFile p = w.isFile p
  digest : ∀ p ∈ (t.lastPass hasher w previous).tried, hasher w' p = hasher w p
  content : ∀ p ∈ (t.lastPass hasher w previous).tried, w'.read p = w.read p

instance : Decidable (t.Unchanged hasher previous w w') :=
  decidable_of_iff
    (RunM.absoluteAll w' t.sources = RunM.absoluteAll w t.sources ∧
      (∀ p ∈ (t.lastPass hasher w previous).probes, w'.isFile p = w.isFile p) ∧
      ∀ p ∈ (t.lastPass hasher w previous).tried, hasher w' p = hasher w p ∧ w'.read p = w.read p)
    ⟨fun h => ⟨h.1, h.2.1, fun p hp => (h.2.2 p hp).1, fun p hp => (h.2.2 p hp).2⟩,
      fun h => ⟨h.sources, h.isFile, fun p hp => ⟨h.digest p hp, h.content p hp⟩⟩⟩

/-- The run behind an analysis. -/
lemma run_of_analyseIn {l : List Path} (habsolute : RunM.absoluteAll w t.sources = .ok l)
    (h : t.analyseIn hasher w previous = .ok a) :
    Analysis.run (t.context hasher w previous) (OrderedSet.ofList l) =
      (.ok a, t.lastPass hasher w previous) := by
  rw [analyseIn_eq, habsolute] at h
  have hlast : t.lastPass hasher w previous =
      (Analysis.run (t.context hasher w previous) (OrderedSet.ofList l)).2 := by
    rw [lastPass, canonicalSources, habsolute]
    rfl
  rw [hlast]
  simp only [Except.bind] at h
  generalize Analysis.run (t.context hasher w previous) (OrderedSet.ofList l) = run at h ⊢
  obtain ⟨x, last⟩ := run
  cases x with
  | error e => cases h
  | ok a' =>
    cases h
    rfl

/-- An analysis depends on the files that it looks at, and on no others.  These are the files that
it has read or tried to read, and the paths at which it has looked for headers. -/
theorem analyseIn_of_unchanged (hsame : t.Unchanged hasher previous w w')
    (h : t.analyseIn hasher w previous = .ok a) : t.analyseIn hasher w' previous = .ok a := by
  obtain ⟨_, _, _, hpasses⟩ := passes_of_analyseIn h
  obtain ⟨l, habsolute, -⟩ := hpasses.absolute
  have hcanonical : ∀ s ∈ (OrderedSet.ofList l).toList, s.IsCanonical := fun s hs =>
    RunM.isCanonical_of_absoluteAll habsolute s (OrderedSet.mem_ofList hs)
  have hrun := run_of_analyseIn habsolute h
  obtain ⟨pass, -, hpass⟩ := PassContext.passes_of_run hcanonical hrun
  -- no file is looked at but those that the last pass has tried, and there both workspaces agree
  have hagrees : (t.context hasher w previous).AgreesOn (t.context hasher w' previous)
      (t.lastPass hasher w previous) :=
    { settings := rfl
      draft := fun p hp htried =>
        have hmem := hpass.coherent.mem_tried hp htried
        PassContext.draft_congr rfl rfl (hsame.digest p hmem) (hsame.content p hmem)
      isFile := hsame.isFile }
  have hrun' := Analysis.run_eq_of_agreesOn hcanonical hrun hagrees
  have houtcome : Analysis.ofPass (t.context hasher w' previous) (OrderedSet.ofList l)
      (t.lastPass hasher w previous) = a := by
    rw [hpass.outcome]
    exact Analysis.ofPass_congr rfl rfl
  rw [houtcome] at hrun'
  rw [analyseIn_eq, hsame.sources, habsolute]
  simp only [Except.bind]
  rw [hrun', tell, Except.mapError_ok]

/-- Where nothing is remembered, every source has to be compiled. -/
lemma recompile_of_analyseIn_empty (h : t.analyseIn hasher w ∅ = .ok a) :
    a.recompile = t.canonicalSources w := by
  obtain ⟨sources, pass, last, hpasses⟩ := passes_of_analyseIn h
  rw [← hpasses.eq_canonicalSources, hpasses.outcome]
  apply OrderedSet.ext
  exact List.filter_eq_self.2 fun _ _ => rfl

end Task

/-! ## After a failure -/

namespace CompileStep

variable {s s' : CompileStep} {hasher : Hasher} {cache : StateCache} {r r' : Run}
  {e : CompileError}

lemma exists_analyseIn_of_outcome (h : s.outcome hasher cache r = (.error (.compile e), r')) :
    ∃ a, s.task.analyseIn hasher (s.edit r.files) (cache.get (s.edit r.files)) = .ok a := by
  have htakes := s.takes_outcome hasher cache r
  rw [h] at htakes
  cases htakes with
  | unfinished hanalysed => exact ⟨_, (analyseIn_of_analysed hanalysed).1⟩
  | unkept hanalysed => exact ⟨_, (analyseIn_of_analysed hanalysed).1⟩

/-- A step that fails to compile, be it a full one, leaves the state that was in the cache.  An
incremental step after it that sees the same files tells the compiler what the analysis of the first
one has found out: all sources if no state was there. -/
theorem hands_after_failure (hfail : s.outcome hasher cache r = (.error (.compile e), r'))
    (hspares : s.Spares hasher cache r) (hinc : s'.spec.isIncremental) (htask : s'.task = s.task)
    (hedit : cache.get (s'.edit r'.files) = cache.get r'.files)
    (hsame : s.task.Unchanged hasher (cache.get r.files) (s.edit r.files) (s'.edit r'.files)) :
    ∃ a, s.task.analyseIn hasher (s.edit r.files) (cache.get r.files) = .ok a ∧
      cache.get r'.files = cache.get r.files ∧
      s'.Hands hasher cache r' { s'.spec with
        sources := a.recompile.toList
        removed := a.removed.toList
        directives := a.sourceDirectives } ∧
      (cache.get r.files = ∅ → a.recompile = s.task.canonicalSources (s.edit r.files)) := by
  have hget := get_of_outcome_error hspares hfail
  obtain ⟨a, ha⟩ := exists_analyseIn_of_outcome hfail
  rw [hspares.edit] at ha
  have ha' := Task.analyseIn_of_unchanged hsame ha
  -- the step is against what the cache holds now, which is what the failed one was against
  rw [← htask, ← hget, ← hedit] at ha'
  refine ⟨a, ha, hget, hands_of_incremental hinc ha', fun hempty => ?_⟩
  rw [hempty] at ha
  exact Task.recompile_of_analyseIn_empty ha

/-! ## Examples -/

open Progress

/-- Two sources, a header of one of them, and the object file of the other one. -/
def withObject : Run where
  files := (untouched.files.put ["p"] "o" .directory).put ["p", "o"] "b.o" (.file [])

/-- All is compiled, then the header changes. -/
def outdated : Progress :=
  let sources : List Path := [⟨"a.c"⟩, ⟨"b.c"⟩]
  let p := (start storedState withObject).after contentHasher
    [⟨id, sourcesTask sources, ⟨sources, [], ∅, true, ⟨"/p/o"⟩⟩, obeying⟩]
  { p with run := { p.run with files := rewriting ⟨"a.h"⟩ "x" p.run.files } }

/-- A full step that fails. -/
def fullStep : CompileStep :=
  let sources : List Path := [⟨"a.c"⟩, ⟨"b.c"⟩]
  ⟨id, sourcesTask sources, ⟨sources, [], ∅, false, ⟨"/p/o"⟩⟩, refusing⟩

/-- An incremental step with the same sources. -/
def nextStep : CompileStep :=
  { fullStep with spec := { fullStep.spec with isIncremental := true }, compiler := obeying }

/-- Where the full step comes to. -/
def cleaned : Progress := outdated.next contentHasher fullStep

theorem hands_after_failure_outdated :
    ∃ told, nextStep.Hands contentHasher outdated.cache cleaned.run told ∧
      told.sources = [⟨"/p/a.c"⟩] := by
  have hfacts : (fullStep.outcome contentHasher outdated.cache outdated.run).1 =
        .error (.compile (.failed "refused")) ∧
      fullStep.Spares contentHasher outdated.cache outdated.run ∧
      fullStep.task.Unchanged contentHasher (outdated.cache.get outdated.run.files)
        (fullStep.edit outdated.run.files) (nextStep.edit cleaned.run.files) ∧
      ((fullStep.task.analyseIn contentHasher (fullStep.edit outdated.run.files)
        (outdated.cache.get outdated.run.files)).toOption.map fun a => a.recompile.toList) =
          some [⟨"/p/a.c"⟩] := by
    decide +kernel
  obtain ⟨hfail, hspares, hsame, hanalysis⟩ := hfacts
  have hrun : cleaned.run = (fullStep.outcome contentHasher outdated.cache outdated.run).2 := by
    rw [cleaned, run_next]
  have houtcome : fullStep.outcome contentHasher outdated.cache outdated.run =
      (.error (.compile (.failed "refused")), cleaned.run) := by
    rw [hrun, ← hfail]
  have hedit : ∀ w, nextStep.edit w = w := fun _ => rfl
  have hget : outdated.cache.get (nextStep.edit cleaned.run.files) =
      outdated.cache.get cleaned.run.files :=
    congrArg outdated.cache.get (hedit _)
  have hinc : nextStep.spec.isIncremental := rfl
  obtain ⟨a, ha, -, hhands, -⟩ :=
    hands_after_failure houtcome hspares hinc rfl hget hsame
  obtain ⟨a', ha', hrecompile⟩ := Except.exists_of_map_toOption hanalysis
  rw [ha] at ha'
  cases ha'
  refine ⟨_, hhands, ?_⟩
  dsimp only
  exact hrecompile

/-- After a full step that has removed an object file and failed, an incremental step skips the
source of that file. -/
theorem exists_skipped :
    (fullStep.outcome contentHasher outdated.cache outdated.run).1 =
        .error (.compile (.failed "refused")) ∧
      outdated.run.files.isFile ⟨"/p/o/b.o"⟩ ∧ cleaned.run.files.isFile ⟨"/p/o/b.o"⟩ = false ∧
      ∃ told, nextStep.Hands contentHasher cleaned.cache cleaned.run told ∧
        ⟨"/p/b.c"⟩ ∈ (nextStep.task.canonicalSources cleaned.run.files).toList ∧
        ⟨"/p/b.c"⟩ ∉ told.sources := by
  have hfacts : (fullStep.outcome contentHasher outdated.cache outdated.run).1 =
        .error (.compile (.failed "refused")) ∧
      outdated.run.files.isFile ⟨"/p/o/b.o"⟩ ∧ cleaned.run.files.isFile ⟨"/p/o/b.o"⟩ = false ∧
      ⟨"/p/b.c"⟩ ∈ (nextStep.task.canonicalSources cleaned.run.files).toList ∧
      ((nextStep.task.analyseIn contentHasher (nextStep.edit cleaned.run.files)
        (cleaned.cache.get (nextStep.edit cleaned.run.files))).toOption.map fun a =>
          a.recompile.toList) = some [⟨"/p/a.c"⟩] := by
    decide +kernel
  obtain ⟨hfail, hbefore, hafter, hsource, hanalysis⟩ := hfacts
  obtain ⟨a, ha, hrecompile⟩ := Except.exists_of_map_toOption hanalysis
  refine ⟨hfail, hbefore, hafter, _, hands_of_incremental rfl ha, hsource, ?_⟩
  dsimp only
  rw [hrecompile]
  decide

end CompileStep

end IncludeDeps

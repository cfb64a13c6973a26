import IncludeDeps.Proofs.Compile

/-!
# Builds that go on after failures

A build is a sequence of steps with one cache, some of which may fail.

* `Progress` is where a build has come to, with the state and the sources of the last step that
  succeeded; `Progress.after` is the build;
* `Progress.isCurrent_next` is about one step, and `Progress.isCurrent_after` about a build: the
  cache holds the state of the last step that succeeded;
* `Progress.Spared` asks of all steps that they leave a stored cache alone, and
  `Progress.spared_memory` says that this asks nothing of one in memory;
* `Progress.keeps_last` tells what the compiler is told next.
-/

namespace IncludeDeps

namespace Task

variable {t : Task} {hasher : Hasher} {w : Workspace} {previous : TaskState} {a : Analysis}

/-- The canonical forms of the sources, if they all have one. -/
def canonicalSources (t : Task) (w : Workspace) : OrderedSet Path :=
  OrderedSet.ofList ((RunM.absoluteAll w t.sources).toOption.getD [])

lemma Passes.eq_canonicalSources {sources : OrderedSet Path} {pass last : Pass}
    (h : t.Passes hasher w previous sources pass last a) : sources = t.canonicalSources w := by
  obtain ⟨l, hl, rfl⟩ := h.absolute
  rw [canonicalSources, hl]
  rfl

/-- The sources of the task are those of the state that an analysis comes to. -/
lemma sources_of_analyseIn (h : t.analyseIn hasher w previous = .ok a) :
    a.state.sources = t.canonicalSources w := by
  obtain ⟨sources, pass, last, hpasses⟩ := passes_of_analyseIn h
  rw [hpasses.sources_eq, hpasses.eq_canonicalSources]

/-- The sources that are gone are those of the previous state that are no sources now. -/
lemma removed_of_analyseIn (h : t.analyseIn hasher w previous = .ok a) :
    a.removed.toList =
      previous.sources.toList.filter fun p => !(t.canonicalSources w).contains p := by
  obtain ⟨sources, pass, last, hpasses⟩ := passes_of_analyseIn h
  rw [← hpasses.eq_canonicalSources, hpasses.outcome]
  rfl

end Task

/-- Where a build has come to, and what the last step that succeeded has found out.  The latter is
not stored anywhere: it is what the cache is compared with. -/
structure Progress where
  /-- The files, and what else is carried along. -/
  run : Run
  /-- The cache. -/
  cache : StateCache
  /-- The state to which the analysis of the last step that succeeded came. -/
  kept : TaskState
  /-- The sources of that step. -/
  sources : OrderedSet Path

namespace Progress

variable {hasher : Hasher} {p : Progress} {s : CompileStep} {steps : List CompileStep}
  {cache : StateCache} {r : Run}

/-- Nothing was done yet. -/
def start (cache : StateCache) (r : Run) : Progress :=
  ⟨r, cache, cache.get r.files, (cache.get r.files).sources⟩

/-- One step more.  What a step that fails has done to the files stays. -/
def next (p : Progress) (hasher : Hasher) (s : CompileStep) : Progress :=
  match s.outcome hasher p.cache p.run with
  | (.ok (a, cache), run) => ⟨run, cache, a.state, s.task.canonicalSources (s.edit p.run.files)⟩
  | (.error _, run) => { p with run }

lemma run_next : (p.next hasher s).run = (s.outcome hasher p.cache p.run).2 := by
  unfold next
  rcases s.outcome hasher p.cache p.run with ⟨x, run⟩
  cases x with
  | ok x => rfl
  | error e => rfl

/-- Some steps more, whether they succeed or not. -/
def after (p : Progress) (hasher : Hasher) (steps : List CompileStep) : Progress :=
  steps.foldl (fun p s => p.next hasher s) p

/-- None of the steps touches the cache but by keeping a state. -/
def Spared (p : Progress) (hasher : Hasher) : List CompileStep → Prop
  | [] => True
  | s :: rest => s.Spares hasher p.cache p.run ∧ (p.next hasher s).Spared hasher rest

instance decidableSpared (p : Progress) (hasher : Hasher) :
    (steps : List CompileStep) → Decidable (p.Spared hasher steps)
  | [] => .isTrue trivial
  | s :: rest =>
    have := decidableSpared (p.next hasher s) hasher rest
    inferInstanceAs (Decidable (s.Spares hasher p.cache p.run ∧
      (p.next hasher s).Spared hasher rest))

/-- With a state in memory this is no condition. -/
theorem spared_memory (held : Option TaskState) (r : Run) (kept : TaskState)
    (sources : OrderedSet Path) : (Progress.mk r (.memory held) kept sources).Spared hasher steps := by
  induction steps generalizing held r kept sources with
  | nil => trivial
  | cons s rest ih =>
    refine ⟨CompileStep.spares_memory held, ?_⟩
    unfold next
    rcases houtcome : s.outcome hasher (.memory held) r with ⟨x, run⟩
    cases x with
    | error e => exact ih held run kept sources
    | ok x =>
      obtain ⟨a, cache⟩ := x
      obtain rfl := CompileStep.eq_memory_of_outcome houtcome
      exact ih _ _ _ _

/-- What the cache holds is what the last step that succeeded has left. -/
structure IsCurrent (p : Progress) : Prop where
  get : p.cache.get p.run.files = p.kept
  sources : p.kept.sources = p.sources

lemma isCurrent_start : (start cache r).IsCurrent := ⟨rfl, rfl⟩

/-- The cache is current after a step, whether it succeeds or not: then it holds the new state, or
else the one that it has held before. -/
theorem isCurrent_next (h : p.IsCurrent) (hspares : s.Spares hasher p.cache p.run) :
    (p.next hasher s).IsCurrent := by
  unfold next
  rcases houtcome : s.outcome hasher p.cache p.run with ⟨x, run⟩
  cases x with
  | error e => exact ⟨(CompileStep.get_of_outcome_error hspares houtcome).trans h.get, h.sources⟩
  | ok x =>
    obtain ⟨a, cache⟩ := x
    exact ⟨CompileStep.get_of_outcome hspares houtcome,
      Task.sources_of_analyseIn (CompileStep.analyseIn_of_outcome houtcome)⟩

/-- So it is after any number of them, by induction on the steps. -/
theorem isCurrent_after (h : p.IsCurrent) (hspared : p.Spared hasher steps) :
    (p.after hasher steps).IsCurrent := by
  -- the progress has to vary: the rest of the steps starts where the first one ends
  induction steps generalizing p with
  | nil => exact h
  | cons s rest ih => exact ih (isCurrent_next h hspared.1) hspared.2

/-- After every sequence of steps the cache holds the state of the last one that succeeded.  The next
incremental step is about what has changed since then: that is what its analysis is against, what
has to be compiled is handed over, and so is what was a source then and is none now.

A cache in memory needs nothing for that.  A stored one has to be left alone by all that the steps do
to the files, and a step that fails may fail anywhere: in the analysis, in the emptying of the
directory, in the compiler, or while the state is stored. -/
theorem keeps_last
    (hspared : ∀ store key, cache = .stored store key → (start cache r).Spared hasher steps) :
    let p := (start cache r).after hasher steps
    p.cache.get p.run.files = p.kept ∧
      ∀ (s : CompileStep) (a : Analysis), s.spec.isIncremental →
        p.cache.get (s.edit p.run.files) = p.cache.get p.run.files →
        s.task.analyseIn hasher (s.edit p.run.files) p.kept = .ok a →
        s.Hands hasher p.cache p.run { s.spec with
          sources := a.recompile.toList
          removed := p.sources.toList.filter fun q =>
            !(s.task.canonicalSources (s.edit p.run.files)).contains q
          directives := a.sourceDirectives } := by
  intro p
  -- a state in memory is out of reach of what is done to the files
  have hall : (start cache r).Spared hasher steps := by
    cases cache with
    | memory held => exact spared_memory held r _ _
    | stored store key => exact hspared store key rfl
  have hcurrent : p.IsCurrent := isCurrent_after isCurrent_start hall
  refine ⟨hcurrent.get, fun s a hinc hedit ha => ?_⟩
  rw [← hcurrent.sources, ← Task.removed_of_analyseIn ha]
  rw [← hcurrent.get, ← hedit] at ha
  exact CompileStep.hands_of_incremental hinc ha

/-! ## Examples -/

/-- A task with the given sources. -/
def sourcesTask (sources : List Path) : Task := ⟨"t", sources, [], true, ∅, none⟩

/-- A compiler that succeeds. -/
def obeying : Compiler := fun spec => pure !spec.sources.isEmpty

/-- A compiler that fails. -/
def refusing : Compiler := fun _ => throw (.failed "refused")

/-- The content of a file is replaced. -/
def rewriting (p : Path) (text : String) (w : Workspace) : Workspace :=
  (w.write p (Bytes.ofText text)).toOption.getD w

/-- Two sources and a header. -/
def untouched : Run where
  files := Workspace.ofTexts "p" [("a.c", "#include \"a.h\"\n"), ("a.h", ""), ("b.c", "")]

/-- A cache beside them. -/
def storedState : StateCache := .stored ⟨⟨"/p/cache"⟩, "1"⟩ "t"

/-- The state cannot be stored: its scratch file cannot be made. -/
def blocking (w : Workspace) : Workspace :=
  (w.makeDirectory (StateStore.scratch ⟨⟨"/p/cache"⟩, "1"⟩ w "t")).toOption.getD w

/-- A step that succeeds; a header changes, and four steps fail in different ways. -/
def interrupted : List CompileStep :=
  let sources : List Path := [⟨"a.c"⟩, ⟨"b.c"⟩]
  [⟨id, sourcesTask sources, ⟨sources, [], ∅, true, ⟨"/p/o"⟩⟩, obeying⟩,
    ⟨rewriting ⟨"a.h"⟩ "x", sourcesTask sources, ⟨sources, [], ∅, true, ⟨"/p/o"⟩⟩, refusing⟩,
    ⟨id, sourcesTask [⟨"z.c"⟩], ⟨[⟨"z.c"⟩], [], ∅, true, ⟨"/p/o"⟩⟩, obeying⟩,
    ⟨id, sourcesTask sources, ⟨sources, [], ∅, false, ⟨"/p/a.h"⟩⟩, obeying⟩,
    ⟨blocking, sourcesTask [⟨"a.c"⟩], ⟨[⟨"a.c"⟩], [], ∅, true, ⟨"/p/o"⟩⟩, obeying⟩]

/-- A step after these, with one of the sources. -/
def resumed : CompileStep :=
  ⟨id, sourcesTask [⟨"a.c"⟩], ⟨[⟨"a.c"⟩], [], ∅, true, ⟨"/p/o"⟩⟩, obeying⟩

/-- Where these have come to. -/
def halted : Progress := (start storedState untouched).after contentHasher interrupted

theorem keeps_last_interrupted :
    halted.cache.get halted.run.files = halted.kept ∧
      halted.sources.toList = [⟨"/p/a.c"⟩, ⟨"/p/b.c"⟩] ∧
      ∃ told, resumed.Hands contentHasher halted.cache halted.run told ∧
        told.sources = [⟨"/p/a.c"⟩] ∧ told.removed = [⟨"/p/b.c"⟩] := by
  obtain ⟨hget, hhands⟩ :=
    @keeps_last contentHasher interrupted storedState untouched fun _ _ _ => by decide +kernel
  rw [← halted] at hget hhands
  have hedit : ∀ w, resumed.edit w = w := fun _ => rfl
  have hfacts : ((resumed.task.analyseIn contentHasher (resumed.edit halted.run.files)
        halted.kept).toOption.map fun a => a.recompile.toList) = some [⟨"/p/a.c"⟩] ∧
      halted.sources.toList = [⟨"/p/a.c"⟩, ⟨"/p/b.c"⟩] ∧
      (halted.sources.toList.filter fun q =>
        !(resumed.task.canonicalSources (resumed.edit halted.run.files)).contains q) =
          [⟨"/p/b.c"⟩] := by
    decide +kernel
  obtain ⟨hanalysis, hsources, hremoved⟩ := hfacts
  obtain ⟨a, ha, hrecompile⟩ := Except.exists_of_map_toOption hanalysis
  have hresumed := hhands resumed a rfl (congrArg halted.cache.get (hedit _)) ha
  refine ⟨hget, hsources, _, hresumed, hrecompile, ?_⟩
  dsimp only
  exact hremoved

/-- A step that succeeds, and a full one that fails and takes the directory of the cache for that of
the object files. -/
def emptied : List CompileStep :=
  [⟨id, sourcesTask [⟨"a.c"⟩], ⟨[⟨"a.c"⟩], [], ∅, true, ⟨"/p/o"⟩⟩, obeying⟩,
    ⟨id, sourcesTask [⟨"a.c"⟩], ⟨[⟨"a.c"⟩], [], ∅, false, ⟨"/p/cache"⟩⟩, refusing⟩]

/-- Then the state is gone, although no edit has touched the cache. -/
theorem exists_emptied :
    let p := (start storedState untouched).after contentHasher emptied
    p.kept.sources.toList = [⟨"/p/a.c"⟩] ∧ p.cache.get p.run.files = ∅ ∧
      p.cache.get p.run.files ≠ p.kept := by
  decide +kernel

end Progress

end IncludeDeps

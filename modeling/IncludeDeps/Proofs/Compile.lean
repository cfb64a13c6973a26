import IncludeDeps.Compile
import IncludeDeps.Proofs.Run
import IncludeDeps.Proofs.TaskState.Store

/-!
# Steps of a build

A step of a build edits the files, analyses a task and compiles what has changed.

* `CompileStep.outcome` is what comes of a step, and `CompileStep.takes_outcome` tells the four ways
  that it may take;
* `CompileStep.Hands` says what the compiler is told: what other compilers would do in its place
  depends on that, and on nothing else;
* `CompileStep.Spares`: what happens to the files outside the cache does not touch the cache;
* `CompileStep.get_of_outcome` and `CompileStep.get_of_outcome_error` are about the state that the
  cache holds after a step.
-/

namespace IncludeDeps

/-! ## Analyses with fresh lookups -/

namespace RunM

variable (settings : Settings) (hasher : Hasher) (previous : TaskState) (sources : List Path)
  {r : Run}

lemma files_analyse (r : Run) :
    ((analyse settings hasher previous sources).run.run r).2.files = r.files := by
  unfold analyse
  simp only [ExceptT.run, ExceptT.mk, StateT.run]
  cases absoluteAll r.files sources with
  | error e => rfl
  | ok l => rfl

lemma analyse_of_lookup (h : r.lookup = {}) :
    ((analyse settings hasher previous sources).run.run r).1 =
      ((analyse settings hasher previous sources).run.run { files := r.files }).1 := by
  unfold analyse
  simp only [ExceptT.run, ExceptT.mk, StateT.run]
  cases absoluteAll r.files sources with
  | error e => rfl
  | ok l => simp only [h]

end RunM

/-- The lookups that were remembered before do not matter to an analysis, and it leaves the files as
they are. -/
lemma Task.analyse_run {t : Task} {hasher : Hasher} {cache : StateCache} {r : Run} :
    ∃ r', (t.analyse hasher cache).run.run r =
      (t.analyseIn hasher r.files (cache.get r.files), r') ∧ r'.files = r.files := by
  -- the lookups are dropped at the start, and from then on the two runs are the same
  have hstart : (t.analyse hasher cache).run.run r =
      (t.analyseAgainst hasher (cache.get r.files)).run.run { r with lookup := {} } := rfl
  rw [hstart, analyseIn]
  unfold analyseAgainst
  rw [Computation.run_mk_bind, Computation.run_mk_bind, RunM.analyse_of_lookup _ _ _ _ rfl]
  have hfiles := RunM.files_analyse t.settings hasher (cache.get r.files) t.sources
    { r with lookup := {} }
  cases ((RunM.analyse t.settings hasher (cache.get r.files) t.sources).run.run
    { files := r.files }).1 with
  | ok a => exact ⟨_, rfl, hfiles⟩
  | error e => exact ⟨_, rfl, hfiles⟩

/-! ## Between the analysis and the cache -/

/-- The part of `compile` that is not about the cache: emptying the directory, if the step is a
full one, and the compiler. -/
def work (compiler : Compiler) (spec : CompileSpec) : RunM CompileError Bool :=
  if spec.isIncremental then execute compiler spec else compileAll compiler spec

lemma compile_run (compiler : Compiler) (a : Analysis) (cache : StateCache) (spec : CompileSpec)
    (r : Run) :
    (compile compiler a cache spec).run.run r =
      match (work compiler (spec.after a)).run.run r with
      | (.error e, r₁) => (.error e, { r₁ with phases := .compileProcessing :: r₁.phases })
      | (.ok didWork, r₁) =>
        match (cache.set a.state).run.run r₁.files with
        | (.error e, w) =>
          (.error (.state e), { r₁ with files := w, phases := .compileProcessing :: r₁.phases })
        | (.ok cache, w) =>
          (.ok (didWork, cache),
            { r₁ with files := w, phases := .compileProcessing :: r₁.phases }) := by
  unfold compile
  simp only
  rw [Computation.run_bind, Computation.run_mk_bind, ← work]
  rcases (work compiler (spec.after a)).run.run r with ⟨x, r₁⟩
  cases x with
  | error e => rfl
  | ok didWork =>
    simp only
    show (RunM.onFiles CompileError.state (cache.set a.state) >>= fun c =>
      pure (didWork, c)).run.run { r₁ with phases := .compileProcessing :: r₁.phases } = _
    rw [Computation.run_bind, RunM.run_onFiles]
    rcases (cache.set a.state).run.run r₁.files with ⟨y, w⟩
    cases y with
    | error e => rfl
    | ok c => rfl

section Work

variable {compiler compiler' : Compiler} {spec : CompileSpec} {e : CompileError} {r : Run}

/-- Compilers that do the same with what they are told do the same. -/
lemma work_congr (h : compiler spec = compiler' spec) : work compiler spec = work compiler' spec := by
  unfold work compileAll execute
  rw [h]

lemma execute_refused (h : compiler spec = throw e) :
    ∃ r', (execute compiler spec).run.run r = (.error e, r') := by
  unfold execute
  rw [h]
  exact ⟨_, rfl⟩

end Work

@[simp] lemma CompileSpec.isIncremental_after (spec : CompileSpec) (a : Analysis) :
    (spec.after a).isIncremental = spec.isIncremental := by
  unfold after
  simp only
  split
  · rfl
  · rfl

lemma CompileSpec.after_of_incremental {spec : CompileSpec} (h : spec.isIncremental) (a : Analysis) :
    spec.after a = { spec with
      sources := a.recompile.toList
      removed := a.removed.toList
      directives := a.sourceDirectives } :=
  if_pos h

lemma CompileSpec.after_of_full {spec : CompileSpec} (h : spec.isIncremental = false) (a : Analysis) :
    spec.after a = { spec with directives := a.sourceDirectives } :=
  if_neg (Bool.eq_false_iff.1 h)

/-! ## Steps -/

/-- A step of a build. -/
structure CompileStep where
  /-- What has happened to the files since the step before. -/
  edit : Workspace → Workspace
  /-- The task. -/
  task : Task
  /-- What the compiler would be told without an analysis. -/
  spec : CompileSpec
  /-- The compiler. -/
  compiler : Compiler

/-- Why a step fails. -/
inductive StepError where
  /-- The task cannot be analysed. -/
  | analysis (error : TaskError)
  /-- It cannot be compiled. -/
  | compile (error : CompileError)
deriving DecidableEq

namespace CompileStep

variable (s : CompileStep) (hasher : Hasher) (cache : StateCache) (r : Run)

/-- What comes of the analysis of a step. -/
def analysed : Except TaskError Analysis × Run :=
  (s.task.analyse hasher cache).run.run { r with files := s.edit r.files }

/-- What comes of the compiler, and of the emptying of the directory of the object files. -/
def worked (a : Analysis) : Except CompileError Bool × Run :=
  (work s.compiler (s.spec.after a)).run.run r

/-- What comes of a step: the analysis and the cache, unless it fails. -/
def outcome : Except StepError (Analysis × StateCache) × Run :=
  match s.analysed hasher cache r with
  | (.error e, r₁) => (.error (.analysis e), r₁)
  | (.ok a, r₁) =>
    match (compile s.compiler a cache s.spec).run.run r₁ with
    | (.error e, r₂) => (.error (.compile e), r₂)
    | (.ok (_, cache), r₂) => (.ok (a, cache), r₂)

/-- The ways that a step may take, by the point at which it ends, with what it leaves of the files
there.  `takes_outcome` is the inversion of `CompileStep.outcome`, and what is said of steps is
said case by case. -/
inductive Takes : Except StepError (Analysis × StateCache) × Run → Prop
  /-- The analysis fails. -/
  | unread {e r₁} (hanalysed : s.analysed hasher cache r = (.error e, r₁)) :
    Takes (.error (.analysis e), r₁)
  /-- The compiler fails, or the directory of the object files cannot be emptied. -/
  | unfinished {a r₁ e r₂ r'} (hanalysed : s.analysed hasher cache r = (.ok a, r₁))
    (hworked : s.worked r₁ a = (.error e, r₂)) (hfiles : r'.files = r₂.files) :
    Takes (.error (.compile e), r')
  /-- The new state cannot be kept. -/
  | unkept {a r₁ didWork r₂ e w r'} (hanalysed : s.analysed hasher cache r = (.ok a, r₁))
    (hworked : s.worked r₁ a = (.ok didWork, r₂))
    (hset : (cache.set a.state).run.run r₂.files = (.error e, w)) (hfiles : r'.files = w) :
    Takes (.error (.compile (.state e)), r')
  /-- The step succeeds. -/
  | kept {a r₁ didWork r₂ cache' w r'} (hanalysed : s.analysed hasher cache r = (.ok a, r₁))
    (hworked : s.worked r₁ a = (.ok didWork, r₂))
    (hset : (cache.set a.state).run.run r₂.files = (.ok cache', w)) (hfiles : r'.files = w) :
    Takes (.ok (a, cache'), r')

/-- What happens to the files outside the cache does not touch the cache: neither the edit nor the
compiler, with the emptying of the directory of the object files, changes what is loaded, nothing is
in the way of the new state, and the state is not too long. -/
structure Spares : Prop where
  edit : cache.get (s.edit r.files) = cache.get r.files
  worked : ∀ a ∈ (s.analysed hasher cache r).1.toOption,
    cache.get (s.worked (s.analysed hasher cache r).2 a).2.files = cache.get (s.edit r.files)
  isSafe : ∀ a ∈ (s.analysed hasher cache r).1.toOption,
    cache.IsSafe (s.worked (s.analysed hasher cache r).2 a).2.files
  holds : ∀ a ∈ (s.analysed hasher cache r).1.toOption, cache.Holds a.state

/-- The compiler is called and told `told`: the step is the same with all compilers that do the same
with `told`, and it fails with every one that refuses it. -/
structure Hands (told : CompileSpec) : Prop where
  only : ∀ compiler, compiler told = s.compiler told →
    { s with compiler }.outcome hasher cache r = s.outcome hasher cache r
  called : ∀ compiler e, compiler told = throw e →
    ({ s with compiler }.outcome hasher cache r).1 = .error (.compile e)

instance : Decidable (s.Spares hasher cache r) :=
  decidable_of_iff
    (cache.get (s.edit r.files) = cache.get r.files ∧
      ∀ a ∈ (s.analysed hasher cache r).1.toOption,
        cache.get (s.worked (s.analysed hasher cache r).2 a).2.files =
            cache.get (s.edit r.files) ∧
          cache.IsSafe (s.worked (s.analysed hasher cache r).2 a).2.files ∧ cache.Holds a.state)
    ⟨fun h => ⟨h.1, fun a ha => (h.2 a ha).1, fun a ha => (h.2 a ha).2.1,
        fun a ha => (h.2 a ha).2.2⟩,
      fun h => ⟨h.edit, fun a ha => ⟨h.worked a ha, h.isSafe a ha, h.holds a ha⟩⟩⟩

variable {s hasher cache r} {cache' : StateCache} {r₁ r' : Run} {a : Analysis}

/-! ## What comes of a step -/

lemma analysed_eq (s : CompileStep) (hasher : Hasher) (cache : StateCache) (r : Run) :
    ∃ r₁, s.analysed hasher cache r =
      (s.task.analyseIn hasher (s.edit r.files) (cache.get (s.edit r.files)), r₁) ∧
        r₁.files = s.edit r.files :=
  Task.analyse_run

lemma analyseIn_of_analysed {x : Except TaskError Analysis}
    (h : s.analysed hasher cache r = (x, r₁)) :
    s.task.analyseIn hasher (s.edit r.files) (cache.get (s.edit r.files)) = x ∧
      r₁.files = s.edit r.files := by
  obtain ⟨r₂, heq, hfiles⟩ := analysed_eq s hasher cache r
  rw [h] at heq
  cases heq
  exact ⟨rfl, hfiles⟩

lemma takes_outcome (s : CompileStep) (hasher : Hasher) (cache : StateCache) (r : Run) :
    s.Takes hasher cache r (s.outcome hasher cache r) := by
  unfold outcome
  rcases hanalysed : s.analysed hasher cache r with ⟨x, r₁⟩
  cases x with
  | error e => exact .unread hanalysed
  | ok a =>
    simp only
    rw [compile_run]
    rcases hworked : (work s.compiler (s.spec.after a)).run.run r₁ with ⟨y, r₂⟩
    cases y with
    | error e => exact .unfinished hanalysed hworked rfl
    | ok didWork =>
      simp only
      rcases hset : (cache.set a.state).run.run r₂.files with ⟨z, w⟩
      cases z with
      | error e => exact .unkept hanalysed hworked hset rfl
      | ok cache' => exact .kept hanalysed hworked hset rfl

lemma analyseIn_of_outcome (h : s.outcome hasher cache r = (.ok (a, cache'), r')) :
    s.task.analyseIn hasher (s.edit r.files) (cache.get (s.edit r.files)) = .ok a := by
  have htakes := s.takes_outcome hasher cache r
  rw [h] at htakes
  cases htakes with
  | kept hanalysed => exact (analyseIn_of_analysed hanalysed).1

/-- A step that succeeds leaves the state of its analysis in the cache. -/
theorem get_of_outcome (hspares : s.Spares hasher cache r)
    (h : s.outcome hasher cache r = (.ok (a, cache'), r')) : cache'.get r'.files = a.state := by
  have htakes := s.takes_outcome hasher cache r
  rw [h] at htakes
  cases htakes with
  | kept hanalysed hworked hset hfiles =>
    have hsafe := hspares.isSafe a (by rw [hanalysed]; rfl)
    have hholds := hspares.holds a (by rw [hanalysed]; rfl)
    rw [hanalysed, hworked] at hsafe
    rw [hfiles]
    exact StateCache.get_of_set hsafe hholds hset

/-- A step that fails leaves the state that was in the cache, at whichever point it fails: the
state is kept last, and what comes before it spares the cache. -/
theorem get_of_outcome_error {e : StepError} (hspares : s.Spares hasher cache r)
    (h : s.outcome hasher cache r = (.error e, r')) : cache.get r'.files = cache.get r.files := by
  have htakes := s.takes_outcome hasher cache r
  rw [h] at htakes
  rw [← hspares.edit]
  cases htakes with
  | unread hanalysed => rw [(analyseIn_of_analysed hanalysed).2]
  | unfinished hanalysed hworked hfiles =>
    have hget := hspares.worked _ (by rw [hanalysed]; rfl)
    rw [hanalysed, hworked] at hget
    rw [hfiles]
    exact hget
  | unkept hanalysed hworked hset hfiles =>
    have hget := hspares.worked _ (by rw [hanalysed]; rfl)
    have hsafe := hspares.isSafe _ (by rw [hanalysed]; rfl)
    rw [hanalysed, hworked] at hget hsafe
    rw [hfiles, StateCache.get_of_set_error hsafe hset]
    exact hget

/-- Nothing that happens to files touches a state in memory. -/
lemma spares_memory (held : Option TaskState) : s.Spares hasher (.memory held) r :=
  ⟨rfl, fun _ _ => rfl, fun _ _ => trivial, fun _ _ => trivial⟩

lemma eq_memory_of_outcome {held : Option TaskState}
    (h : s.outcome hasher (.memory held) r = (.ok (a, cache'), r')) :
    cache' = .memory (some a.state) := by
  have htakes := s.takes_outcome hasher (.memory held) r
  rw [h] at htakes
  cases htakes with
  | kept hanalysed hworked hset hfiles =>
    cases hset
    rfl

/-! ## What the compiler is told -/

lemma outcome_congr {compiler : Compiler} (h : s.analysed hasher cache r = (.ok a, r₁))
    (hcompiler : compiler (s.spec.after a) = s.compiler (s.spec.after a)) :
    { s with compiler }.outcome hasher cache r = s.outcome hasher cache r := by
  have h' : { s with compiler }.analysed hasher cache r = (.ok a, r₁) := h
  unfold outcome
  rw [h, h']
  simp only
  rw [compile_run, compile_run, work_congr hcompiler]

lemma outcome_of_work {e : CompileError} {r₂ : Run} (h : s.analysed hasher cache r = (.ok a, r₁))
    (hwork : (work s.compiler (s.spec.after a)).run.run r₁ = (.error e, r₂)) :
    (s.outcome hasher cache r).1 = .error (.compile e) := by
  unfold outcome
  rw [h]
  simp only
  rw [compile_run, hwork]

/-- A step hands over one thing only, so that `Hands` says what the compiler is told, and not only
what some compilers do not tell from it. -/
lemma Hands.unique {told told' : CompileSpec} (h : s.Hands hasher cache r told)
    (h' : s.Hands hasher cache r told') : told = told' := by
  classical
  by_contra hne
  -- a compiler that tells the two apart would fail in two ways
  let compiler : Compiler := fun spec =>
    if spec = told then throw (.failed "") else throw (.failed "other")
  have hfailed := h.called compiler (.failed "") (if_pos rfl)
  rw [h'.called compiler (.failed "other") (if_neg (Ne.symm hne))] at hfailed
  exact absurd hfailed (by decide)

/-- In an incremental step the compiler is told what the analysis has found out: what has to be
compiled, what is gone, and the directives of all sources, also of those that need not be compiled.
-/
theorem hands_of_incremental (hinc : s.spec.isIncremental)
    (h : s.task.analyseIn hasher (s.edit r.files) (cache.get (s.edit r.files)) = .ok a) :
    s.Hands hasher cache r { s.spec with
      sources := a.recompile.toList
      removed := a.removed.toList
      directives := a.sourceDirectives } := by
  obtain ⟨r₁, hanalysed, -⟩ := analysed_eq s hasher cache r
  rw [h] at hanalysed
  rw [← CompileSpec.after_of_incremental hinc]
  constructor
  · intro compiler hcompiler
    exact outcome_congr hanalysed hcompiler
  · intro compiler e hrefused
    obtain ⟨r₂, hrun⟩ := execute_refused (r := r₁) hrefused
    have hwork : (work compiler (s.spec.after a)).run.run r₁ = (.error e, r₂) := by
      -- an incremental step removes nothing, so the compiler is what it begins with
      rw [work, if_pos]
      · exact hrun
      · simpa using hinc
    exact outcome_of_work (s := { s with compiler }) hanalysed hwork

end CompileStep

end IncludeDeps

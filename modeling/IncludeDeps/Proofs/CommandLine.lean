import IncludeDeps.CommandLine
import IncludeDeps.Proofs.Headers

/-!
# Commands

What comes of the commands of the program.

* `RunM.IsReadOnly`: a computation leaves the files as they are, whether it succeeds or not;
* `Project.onEach_cons` is the step from one task to the next;
* `CommandLine.status_previews_depend`: a status changes no file, and it says what a depend on the same
  task says, with the exit code that tells whether there is something to do.

That a status is read-only is put together from its parts, each of which is: nothing is said of what the
parts come to.  That it says the same rests on `Task.collect_of_detect`, which tells of a task that has
succeeded which analysis and which headers it has found.
-/

namespace IncludeDeps

lemma Computation.run_adapt {ε δ σ α : Type} (f : δ → ε) (x : ExceptT δ (StateM σ) α) (s : σ) :
    (x.adapt f).run.run s = ((x.run.run s).1.mapError f, (x.run.run s).2) :=
  rfl

/-! ## Computations that only look at files -/

/-- The files are what they were, also after a failure. -/
def RunM.IsReadOnly {ε α : Type} (x : RunM ε α) : Prop :=
  ∀ r, (x.run.run r).2.files = r.files

namespace RunM.IsReadOnly

variable {ε δ α β : Type} {x : RunM ε α}

lemma pure (a : α) : IsReadOnly (Pure.pure a : RunM ε α) := fun _ => rfl

lemma bind {f : α → RunM ε β} (hx : IsReadOnly x) (hf : ∀ a, IsReadOnly (f a)) :
    IsReadOnly (x >>= f) := by
  intro r
  have hkeep := hx r
  rw [Computation.run_bind]
  rcases hrun : x.run.run r with ⟨y, r₁⟩
  rw [hrun] at hkeep
  cases y with
  | error e => exact hkeep
  | ok a => exact (hf a r₁).trans hkeep

lemma adapt (hx : IsReadOnly x) (tell : ε → δ) : IsReadOnly (x.adapt tell) := fun r => hx r

lemma ask (tell : δ → ε) (f : Workspace → Except δ α) :
    IsReadOnly (RunM.onFiles tell (WorkspaceM.ask f)) := by
  intro r
  rw [RunM.run_onFiles, WorkspaceM.run_ask]

lemma analyse (t : Task) (hasher : Hasher) (cache : StateCache) :
    IsReadOnly (t.analyse hasher cache) := by
  intro r
  obtain ⟨r', hrun, hfiles⟩ : ∃ r', (t.analyse hasher cache).run.run r =
      (t.analyseIn hasher r.files (cache.get r.files), r') ∧ r'.files = r.files := Task.analyse_run
  rw [hrun]
  exact hfiles

end RunM.IsReadOnly

namespace Project

variable {p : Project} {name : String} {isDetailed : Bool} {r r' s : Run} {remark : Remark}
  {t : Task} {o : Outcome} {cache : StateCache}

/-! ## One task -/

lemma lookUp_run (p : Project) (name : String) (r : Run) :
    (p.lookUp name).run.run r = (p.task r.files name, r) := by
  unfold lookUp
  rw [RunM.run_onFiles, WorkspaceM.run_ask]
  cases p.task r.files name with
  | ok t => rfl
  | error e => rfl

lemma lookUp_bind_run {α : Type} (f : Task → RunM CommandError α) :
    (p.lookUp name >>= f).run.run r =
      match p.task r.files name with
      | .ok t => (f t).run.run r
      | .error e => (.error e, r) := by
  rw [Computation.run_bind, lookUp_run]
  cases p.task r.files name with
  | ok t => rfl
  | error e => rfl

lemma isReadOnly_status (p : Project) (isDetailed : Bool) (name : String) :
    (p.status isDetailed name).IsReadOnly := by
  have hlookUp : (p.lookUp name).IsReadOnly := .ask _ _
  refine hlookUp.bind fun t => ?_
  have hanalyse : (t.analyse contentHasher (.stored p.store t.name)).IsReadOnly := .analyse _ _ _
  exact (hanalyse.adapt CommandError.task).bind fun a => .bind (.ask _ _) fun m => .pure _

/-- A depend works on the task of that name, if there is one. -/
lemma detects_of_depend {x : Except CommandError Remark}
    (h : (p.depend isDetailed name).run.run r = (x, r')) :
    (x.toBool = false ∧ r' = r) ∨ ∃ t y, p.task r.files name = .ok t ∧
      (t.detect contentHasher (.stored p.store t.name)).run.run r = (y, r') ∧
      y.toBool = x.toBool := by
  unfold depend at h
  rw [lookUp_bind_run] at h
  cases htask : p.task r.files name with
  | error e =>
    rw [htask] at h
    cases h
    exact .inl ⟨rfl, rfl⟩
  | ok t =>
    rw [htask] at h
    simp only at h
    rw [Computation.run_bind, Computation.run_adapt] at h
    -- what is printed does not change what the task has done
    rcases hrun : (t.detect contentHasher (.stored p.store t.name)).run.run r with ⟨y, r₁⟩
    rw [hrun] at h
    cases y with
    | error e =>
      cases h
      exact .inr ⟨t, _, rfl, hrun, rfl⟩
    | ok found =>
      cases h
      exact .inr ⟨t, _, rfl, hrun, rfl⟩

/-- What a depend says is what its task has found out. -/
lemma exists_detect_of_depend (h : (p.depend isDetailed name).run.run r = (.ok remark, r')) :
    ∃ t o cache, p.task r.files name = .ok t ∧
      (t.detect contentHasher (.stored p.store t.name)).run.run r = (.ok (o, cache), r') ∧
      remark = { lines := p.remark t o isDetailed } := by
  unfold depend at h
  rw [lookUp_bind_run] at h
  cases htask : p.task r.files name with
  | error e =>
    rw [htask] at h
    cases h
  | ok t =>
    rw [htask] at h
    obtain ⟨⟨o, cache⟩, r₁, hdetect, hend⟩ := Computation.exists_of_run_bind h
    rw [Computation.run_adapt] at hdetect
    rcases hrun : (t.detect contentHasher (.stored p.store t.name)).run.run r with ⟨x, r₂⟩
    rw [hrun] at hdetect
    cases x with
    | error e => cases hdetect
    | ok found =>
      cases hdetect
      cases hend
      exact ⟨t, o, cache, rfl, hrun, rfl⟩

/-- A status finds out what a task would find out that remembers the new state.  It goes through
the same analysis and the same listing of headers, and leaves out what writes. -/
theorem status_of_detect (htask : p.task r.files name = .ok t)
    (hdetect : (t.detect contentHasher (.stored p.store t.name)).run.run r = (.ok (o, cache), r'))
    (hfiles : s.files = r.files) :
    ∃ s', (p.status isDetailed name).run.run s =
      (.ok ⟨p.remark t o isDetailed, !(o.recompile.isEmpty && o.removed.isEmpty)⟩, s') := by
  obtain ⟨a, r₁, m, hanalyse, hcollect, rfl⟩ := Task.collect_of_detect hdetect
  -- the analyses of `r` and `s` are the same, because both forget what is remembered
  obtain ⟨r₂, hrun, hfiles₂⟩ : ∃ r₂, (t.analyse contentHasher (.stored p.store t.name)).run.run r =
      (t.analyseIn contentHasher r.files (p.store.load r.files t.name), r₂) ∧
        r₂.files = r.files := Task.analyse_run
  obtain ⟨s₂, hrun', hfiles'⟩ : ∃ s₂, (t.analyse contentHasher (.stored p.store t.name)).run.run s =
      (t.analyseIn contentHasher s.files (p.store.load s.files t.name), s₂) ∧
        s₂.files = s.files := Task.analyse_run
  obtain ⟨hin, rfl⟩ := Prod.mk.inj (hanalyse.symm.trans hrun)
  rw [hfiles, ← hin] at hrun'
  rw [hfiles₂] at hcollect
  have hadapt : ((t.analyse contentHasher (.stored p.store t.name)).adapt
      CommandError.task).run.run s = (.ok a, s₂) := by
    rw [Computation.run_adapt, hrun']
    rfl
  unfold status
  rw [lookUp_bind_run, hfiles, htask]
  simp only
  rw [Computation.run_bind_of_ok hadapt, Computation.run_bind, RunM.run_onFiles, WorkspaceM.run_ask,
    hfiles', hfiles, hcollect]
  exact ⟨_, rfl⟩

/-! ## One task after another -/

variable {work : String → RunM CommandError Remark} {rest names : List String}

lemma onEach_cons (work : String → RunM CommandError Remark) (name : String) (rest : List String)
    (r : Run) : (onEach work (name :: rest)).run r =
      match (work name).run.run r with
      | (.error e, r₁) => (([], .error e), r₁)
      | (.ok m, r₁) =>
        ((m.lines ++ ((onEach work rest).run r₁).1.1,
          ((onEach work rest).run r₁).1.2.map (m.isPending || ·)), ((onEach work rest).run r₁).2) := by
  rw [onEach, StateT.run_bind]
  rcases (work name).run.run r with ⟨x, r₁⟩
  cases x with
  | error e => rfl
  | ok m => rfl

lemma files_onEach (h : ∀ name, (work name).IsReadOnly) (names : List String) (r : Run) :
    ((onEach work names).run r).2.files = r.files := by
  induction names generalizing r with
  | nil => rfl
  | cons name rest ih =>
    have hkeep := h name r
    rw [onEach_cons]
    rcases hrun : (work name).run.run r with ⟨x, r₁⟩
    rw [hrun] at hkeep
    cases x with
    | error e => exact hkeep
    | ok m => exact (ih r₁).trans hkeep

lemma onEach_singleton (work : String → RunM CommandError Remark) (name : String) (r : Run) :
    (onEach work [name]).run r =
      match (work name).run.run r with
      | (.error e, r₁) => (([], .error e), r₁)
      | (.ok m, r₁) => ((m.lines, .ok m.isPending), r₁) := by
  rw [onEach_cons]
  rcases (work name).run.run r with ⟨x, r₁⟩
  cases x with
  | error e => rfl
  | ok m =>
    show ((m.lines ++ [], Except.ok (m.isPending || false)), r₁) = _
    rw [List.append_nil, Bool.or_false]

end Project

/-! ## Command lines -/

namespace CommandLine

open Project

variable {given : Given} {c : Command} {r r' : Run} {p : Project} {name : String} {reply : Reply}

/-- What is printed of some lines. -/
def printed (given : Given) (lines : List String) : String :=
  if given.has .quiet then "" else String.join (lines.map (· ++ "\n"))

/-- What comes of a command line when this has come of the tasks. -/
def replyTo (given : Given) : List String × Except CommandError Bool → Reply
  | (lines, .error e) => { code := 1, output := printed given lines, error := some e }
  | (lines, .ok isPending) => { code := if isPending then 2 else 0, output := printed given lines }

lemma runCommand_run (hproject : Project.find r.files ((given.last? .config).map Path.mk) = .ok p)
    (c : Command) : (runCommand c given).run r =
      (replyTo given ((p.perform c given).run r).1, ((p.perform c given).run r).2) := by
  have hget : (get : StateM Run Run).run r = pure (r, r) := rfl
  rw [runCommand, StateT.run_bind, hget, pure_bind, hproject]
  simp only
  rw [StateT.run_bind]
  rcases (p.perform c given).run r with ⟨⟨lines, result⟩, r₁⟩
  cases result with
  | error e => rfl
  | ok isPending => rfl

lemma runCommand_run_error {e : CommandError}
    (hproject : Project.find r.files ((given.last? .config).map Path.mk) = .error e) (c : Command) :
    (runCommand c given).run r = ({ code := 1, error := some e }, r) := by
  have hget : (get : StateM Run Run).run r = pure (r, r) := rfl
  rw [runCommand, StateT.run_bind, hget, pure_bind, hproject]
  rfl

lemma files_runCommand_status (given : Given) (r : Run) :
    ((runCommand .status given).run r).2.files = r.files := by
  cases hproject : Project.find r.files ((given.last? .config).map Path.mk) with
  | error e => rw [runCommand_run_error hproject]
  | ok p =>
    rw [runCommand_run hproject]
    exact files_onEach (p.isReadOnly_status _) _ r

/-- A status changes no file.  Where a depend on a single task succeeds, a status on the same files
prints the same, and its exit code tells whether there is anything to compile or to remove.

The status is about the files before the depend: afterwards the new state is stored, and there is
nothing to do any more.  It may be run with other lookups in memory, as an analysis forgets them at
its beginning. -/
theorem status_previews_depend (given : Given) (r : Run) :
    ((runCommand .status given).run r).2.files = r.files ∧
    ∀ p name reply r', Project.find r.files ((given.last? .config).map Path.mk) = .ok p →
      p.taskNames (given.values .task) = [name] →
      (runCommand .depend given).run r = (reply, r') → reply.code = 0 →
      ∃ t o cache, p.task r.files name = .ok t ∧
        (t.detect contentHasher (.stored p.store t.name)).run.run r = (.ok (o, cache), r') ∧
        reply.output = printed given (p.remark t o (given.has .list)) ∧
        ∀ s : Run, s.files = r.files → ((runCommand .status given).run s).1 =
          { code := if o.recompile.isEmpty && o.removed.isEmpty then 0 else 2
            output := reply.output } := by
  refine ⟨files_runCommand_status given r, fun p name reply r' hproject hname hdepend hcode => ?_⟩
  -- with one task, a command is what it does to this task, and its exit code
  have hdo : p.perform .depend given = onEach (p.depend (given.has .list)) [name] := by
    rw [← hname]
    rfl
  have hask : p.perform .status given = onEach (p.status (given.has .list)) [name] := by
    rw [← hname]
    rfl
  rw [runCommand_run hproject, hdo, onEach_singleton] at hdepend
  rcases hrun : (p.depend (given.has .list) name).run.run r with ⟨x, r₁⟩
  rw [hrun] at hdepend
  cases x with
  | error e =>
    cases hdepend
    cases hcode
  | ok remark =>
    cases hdepend
    obtain ⟨t, o, cache, htask, hdetect, rfl⟩ := exists_detect_of_depend hrun
    refine ⟨t, o, cache, htask, hdetect, rfl, fun s hfiles => ?_⟩
    obtain ⟨s', hstatus⟩ : ∃ s', (p.status (given.has .list) name).run.run s = _ :=
      status_of_detect htask hdetect hfiles
    rw [runCommand_run (by rw [hfiles]; exact hproject), hask, onEach_singleton, hstatus]
    cases o.recompile.isEmpty && o.removed.isEmpty with
    | true => rfl
    | false => rfl

/-- A project with a single task, of which no state is stored. -/
def unbuilt : Run where
  files := Workspace.ofTexts "p"
    [("cdep.toml", "[project]\nname = \"p\"\n[tasks.main]\nsources = [\"a.c\"]\n"),
      ("a.c", "#include \"b.h\"\n"), ("b.h", "")]

/-- The options that ask for the files that have changed. -/
def listing : Given := [(.list, "")]

theorem status_previews_depend_unbuilt :
    ∃ reply r', (runCommand .depend listing).run unbuilt = (reply, r') ∧ reply.code = 0 ∧
      reply.output = ":p:main: 1 of 1 sources to recompile, 0 removed, 1 header dependencies\n" ++
        "    recompile a.c\n" ∧
      ((runCommand .status listing).run unbuilt).1 = { code := 2, output := reply.output } := by
  have hnames : ((Project.find unbuilt.files ((listing.last? .config).map Path.mk)).toOption.map
      fun p => p.taskNames (listing.values .task)) = some ["main"] := by
    decide +kernel
  have hpending : ((runCommand .status listing).run unbuilt).1.code = 2 := by decide +kernel
  have hfacts : ((runCommand .depend listing).run unbuilt).1.code = 0 ∧
      ((runCommand .depend listing).run unbuilt).1.output =
        ":p:main: 1 of 1 sources to recompile, 0 removed, 1 header dependencies\n" ++
          "    recompile a.c\n" := by
    decide +kernel
  obtain ⟨p, hproject, hname⟩ := Except.exists_of_map_toOption hnames
  rcases hdepend : (runCommand .depend listing).run unbuilt with ⟨reply, r'⟩
  rw [hdepend] at hfacts
  obtain ⟨-, hpreview⟩ := status_previews_depend listing unbuilt
  obtain ⟨t, o, cache, -, -, -, hstatus⟩ := hpreview p "main" reply r' hproject hname hdepend hfacts.1
  have heq := hstatus unbuilt rfl
  rw [heq] at hpending
  simp only at hpending
  rw [hpending] at heq
  exact ⟨reply, r', rfl, hfacts.1, hfacts.2, heq⟩

end CommandLine

end IncludeDeps

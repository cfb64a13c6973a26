import IncludeDeps.Proofs.Compile

/-!
# The stages of a task

A task reads its sources, lists its include roots, writes the header dependencies file and keeps the new
state, in this order, and stops at the first stage that fails.

`Task.Detects` tells how far a task comes and what it leaves, and `Task.detects_of_detect` is the one place
where `Task.detect` is taken apart.  Each constructor has the outcome of the task beside the files that it
leaves, so that an argument about failures is a case analysis with one case for each stage, and one about
success has one case only.
-/

namespace IncludeDeps.Task

variable {t : Task} {hasher : Hasher} {cache : StateCache} {r r' : Run} {w : Workspace}

/-- The header dependencies file is written, if one is wanted.  The headers and the digests do not
matter for what becomes of other files. -/
inductive Publishes (t : Task) (w : Workspace) : Workspace → Prop
  | unwanted (hpath : t.headerFile = none) : Publishes t w w
  | written {path : Path} {m : HeaderMap} {digest : Workspace → Path → Except Fault Digest}
    {w' : Workspace} (hpath : t.headerFile = some path)
    (hwrite : (m.write path digest).run.run w = (.ok (), w')) : Publishes t w w'

/-- What comes of a task in a file tree, and the file tree that it leaves. -/
inductive Detects (t : Task) (hasher : Hasher) (cache : StateCache) (w : Workspace) :
    Except TaskError (Outcome × StateCache) → Workspace → Prop
  /-- The sources cannot be read. -/
  | unread {e : TaskError} (hanalyse : t.analyseIn hasher w (cache.get w) = .error e) :
    Detects t hasher cache w (.error e) w
  /-- The include roots cannot be listed. -/
  | unlisted {a : Analysis} {err : RootScanError}
    (hanalyse : t.analyseIn hasher w (cache.get w) = .ok a)
    (hcollect : HeaderMap.collect w t.roots a = .error err) :
    Detects t hasher cache w (.error (.rootScan err)) w
  /-- The header dependencies file cannot be written. -/
  | unwritten {a : Analysis} {m : HeaderMap} {path : Path} {err : HeaderFileError} {w' : Workspace}
    (hanalyse : t.analyseIn hasher w (cache.get w) = .ok a)
    (hcollect : HeaderMap.collect w t.roots a = .ok m) (hpath : t.headerFile = some path)
    (hwrite : (m.write path fun w => a.state.hasher (hasher w)).run.run w = (.error err, w')) :
    Detects t hasher cache w (.error (.headerFile err)) w'
  /-- The state cannot be kept. -/
  | unkept {a : Analysis} {m : HeaderMap} {err : StoreError} {w₁ w' : Workspace}
    (hanalyse : t.analyseIn hasher w (cache.get w) = .ok a)
    (hcollect : HeaderMap.collect w t.roots a = .ok m) (hpublish : t.Publishes w w₁)
    (hset : (cache.set a.state).run.run w₁ = (.error err, w')) :
    Detects t hasher cache w (.error (.state t.name err)) w'
  /-- The state is kept. -/
  | kept {a : Analysis} {m : HeaderMap} {cache' : StateCache} {w₁ w' : Workspace}
    (hanalyse : t.analyseIn hasher w (cache.get w) = .ok a)
    (hcollect : HeaderMap.collect w t.roots a = .ok m) (hpublish : t.Publishes w w₁)
    (hset : (cache.set a.state).run.run w₁ = (.ok cache', w')) :
    Detects t hasher cache w
      (.ok (⟨a.recompile, a.removed, m.headers, a.isIncomplete⟩, cache')) w'

/-- What a task does is one of these, so that arguments about tasks need not open `Task.detect`,
but look at its stages one by one. -/
theorem detects_of_detect {x : Except TaskError (Outcome × StateCache)}
    (h : (t.detect hasher cache).run.run r = (x, r')) :
    t.Detects hasher cache r.files x r'.files := by
  obtain ⟨r₁, hrun, hfiles⟩ : ∃ r₁, (t.analyse hasher cache).run.run r =
      (t.analyseIn hasher r.files (cache.get r.files), r₁) ∧ r₁.files = r.files := analyse_run
  unfold detect at h
  cases hanalyse : t.analyseIn hasher r.files (cache.get r.files) with
  | error e =>
    rw [hanalyse] at hrun
    rw [Computation.run_bind, hrun] at h
    cases h
    rw [hfiles]
    exact .unread hanalyse
  | ok a =>
  rw [hanalyse] at hrun
  rw [Computation.run_bind_of_ok hrun] at h
  have hroots : (RunM.onFiles TaskError.rootScan
      (WorkspaceM.ask fun w => HeaderMap.collect w t.roots a)).run.run r₁ =
        ((HeaderMap.collect r.files t.roots a).mapError .rootScan, r₁) := by
    rw [RunM.run_onFiles, WorkspaceM.run_ask, ← hfiles]
  cases hcollect : HeaderMap.collect r.files t.roots a with
  | error err =>
    rw [hcollect] at hroots
    rw [Computation.run_bind, hroots] at h
    cases h
    rw [hfiles]
    exact .unlisted hanalyse hcollect
  | ok m =>
  rw [hcollect] at hroots
  rw [Computation.run_bind_of_ok hroots] at h
  -- the state is kept in the same way whether or not a file is wanted
  have hkeep : ∀ {r₂ : Run}, t.Publishes r.files r₂.files → (do
      let cache ← RunM.onFiles (TaskError.state t.name) (cache.set a.state)
      return ((⟨a.recompile, a.removed, m.headers, a.isIncomplete⟩ : Outcome), cache) :
        RunM TaskError (Outcome × StateCache)).run.run r₂ = (x, r') →
      t.Detects hasher cache r.files x r'.files := by
    intro r₂ hpublish h
    rw [Computation.run_bind, RunM.run_onFiles] at h
    rcases hset : (cache.set a.state).run.run r₂.files with ⟨y, w'⟩
    rw [hset] at h
    cases y with
    | error err =>
      cases h
      exact .unkept hanalyse hcollect hpublish hset
    | ok cache' =>
      cases h
      exact .kept hanalyse hcollect hpublish hset
  cases hpath : t.headerFile with
  | none =>
    rw [hpath] at h
    exact hkeep (hfiles ▸ .unwanted hpath) h
  | some path =>
    rw [hpath] at h
    rcases hwrite : (m.write path fun w => a.state.hasher (hasher w)).run.run r.files with ⟨y, w₁⟩
    have hfile : (RunM.onFiles TaskError.headerFile
        (m.write path fun w => a.state.hasher (hasher w))).run.run r₁ =
          (y.mapError .headerFile, { r₁ with files := w₁ }) := by
      rw [RunM.run_onFiles, hfiles, hwrite]
    cases y with
    | error err =>
      rw [Computation.run_bind, hfile] at h
      cases h
      exact .unwritten hanalyse hcollect hpath hwrite
    | ok u =>
      rw [Computation.run_bind_of_ok hfile] at h
      exact hkeep (.written hpath hwrite) h

end IncludeDeps.Task

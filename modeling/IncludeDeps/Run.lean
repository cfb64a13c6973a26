import IncludeDeps.Analysis
import IncludeDeps.Lookup
import IncludeDeps.Timing

/-!
# Runs

What is carried along while tasks run one after another: the workspace, the remembered lookups,
and the phases that were gone through.  How long a phase takes is left to a clock outside.

`RunM` is the monad of such computations; what happened before a failure stays.
-/

namespace IncludeDeps

/-- What is carried from task to task. -/
structure Run where
  /-- The files. -/
  files : Workspace
  /-- The lookups that are remembered. -/
  lookup : Lookup := {}
  /-- The phases that were gone through, the last one first. -/
  phases : List Operation := []

/-- How often a phase was gone through. -/
def Run.count (r : Run) (op : Operation) : Nat := r.phases.count op

/-- A computation that carries a run along and may fail. -/
abbrev RunM (ε : Type) := ExceptT ε (StateM Run)

namespace RunM

variable {ε δ α : Type}

/-- Notes that a phase was gone through. -/
def record (op : Operation) : RunM ε Unit := modify fun r => { r with phases := op :: r.phases }

/-- Works on the files, and tells a failure in other words. -/
def onFiles (tell : δ → ε) (x : WorkspaceM δ α) : RunM ε α :=
  ExceptT.mk fun r =>
    let (result, files) := x.run.run r.files
    (result.mapError tell, { r with files })

/-- Forgets the lookups. -/
def clearLookup : RunM ε Unit := modify fun r => { r with lookup := r.lookup.clear }

/-- The absolute canonical forms of paths, or the first path that has none. -/
def absoluteAll (w : Workspace) : List Path → Except (Path × Fault) (List Path)
  | [] => .ok []
  | p :: rest => do
    let q ← (w.absolute p).mapError fun e => (p, e)
    return q.normalize :: (← absoluteAll w rest)

/-- Analyses sources against a previous state, or fails with the first source that cannot be read.
Lookups are remembered for whatever comes next, and every file that was read is noted. -/
def analyse (settings : Settings) (hasher : Workspace → Path → Except Fault Digest)
    (previous : TaskState) (sources : List Path) : RunM (Path × Fault) Analysis :=
  ExceptT.mk fun r =>
    match absoluteAll r.files sources with
    | .error e => (.error e, r)
    | .ok sources =>
      -- the files do not change while sources are analysed, so one view of them serves the whole
      -- pass
      let reader := r.lookup.reader r.files (hasher r.files)
      let (result, pass) := Analysis.run ⟨reader, settings, previous⟩ (OrderedSet.ofList sources)
      let reads := List.replicate pass.reads Operation.snapshot
      let analysis := match result with
        | .ok _ => [Operation.analysis]
        | .error _ => []
      (result, { r with
        lookup := r.lookup.rememberAll r.files pass.probes
        phases := analysis ++ reads ++ r.phases })

end RunM

/-- The hasher that reads the files. -/
def contentHasher (w : Workspace) (p : Path) : Except Fault Digest := (w.read p).map Digest.ofBytes

end IncludeDeps

import IncludeDeps.CommandLine

/-!
# What a command line asks for

Which files a command line has to do with, as far as a workspace tells.  A workspace that has been
filled with them may tell of more, so that they are asked for until nothing new comes up.

* `CommandLine.reach` has the paths.
-/

namespace IncludeDeps

/-- Paths that are asked for. -/
structure Reach where
  /-- Paths to files, or to directories of which nothing else is asked for. -/
  files : List Path := []
  /-- Paths to directories of which everything is asked for. -/
  trees : List Path := []

namespace Project

/-- What a task asks for: its sources and include roots, and what its analysis looks up. -/
def reach (p : Project) (w : Workspace) (name : String) (t : TaskConfig) : Reach :=
  let within := Config.within p.directory
  let probes := match p.task w name with
    | .ok t =>
      let (_, run) := (t.analyse contentHasher (.stored p.store t.name)).run.run { files := w }
      run.lookup.answers.keys.map Path.mk
    | .error _ => []
  { files := (t.headerFile.map within).toList ++ probes
    trees := t.sources.map within ++ t.roots.map within }

end Project

namespace CommandLine

/-- The paths at which a configuration is looked for. -/
def configPaths (w : Workspace) : Option Path → List Path
  | some p => [p, Config.within p Config.fileName]
  | none =>
    match w.currentDirectory with
    | .ok dir => dir.around.map fun d => Config.within d Config.fileName
    | .error _ => []

/-- The paths that a command line asks for. -/
def reach (w : Workspace) (words : List String) : Reach :=
  match Request.ofWords words with
  | .run _ given =>
    let path := (given.last? .config).map Path.mk
    match Project.find w path with
    | .error _ => { files := configPaths w path }
    | .ok p =>
      let parts := p.config.tasks.toList.map fun e => p.reach w e.1 e.2
      { files := configPaths w path ++ parts.flatMap Reach.files
        trees := p.store.folder :: parts.flatMap Reach.trees }
  | _ => {}

end CommandLine

end IncludeDeps

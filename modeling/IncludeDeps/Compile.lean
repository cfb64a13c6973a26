import IncludeDeps.Task

/-!
# Compiling what has changed

A compilation step around a compiler.  An *incremental* step hands over the sources that have to be
compiled and those that are gone; a *full* one empties the directory of the object files and hands
over all sources.  The state of the analysis is kept after the compiler has succeeded, and only
then.

* `CompileSpec` is what the compiler sees, `Compiler` is anything that works on it;
* `emptyDirectory` removes what is in a directory;
* `compile` is the step.
-/

namespace IncludeDeps

/-- What a compiler is told. -/
structure CompileSpec where
  /-- The sources to compile. -/
  sources : List Path
  /-- The sources whose object files have to go. -/
  removed : List Path
  /-- The directives of each source, so that they need not be read again. -/
  directives : OrderedMap Path Directives
  /-- Whether the object files of the last run may be used. -/
  isIncremental : Bool
  /-- The directory of the object files. -/
  objects : Path

/-- Why a compilation step fails. -/
inductive CompileError where
  /-- The compiler fails. -/
  | failed (reason : String)
  /-- Something in the directory of the object files cannot be removed. -/
  | clean (path : Path) (fault : Fault)
  /-- The new state cannot be kept. -/
  | state (error : StoreError)
deriving DecidableEq

/-- How a failure is told. -/
def CompileError.message : CompileError → String
  | failed reason => "compilation failed: " ++ reason
  | clean path fault =>
    "failed to clean object directory " ++ path.text ++ ": " ++ fault.message
  | state e => "failed to store compilation state: " ++ e.message

/-- Something that compiles; it tells whether there was anything to do. -/
abbrev Compiler := CompileSpec → RunM CompileError Bool

/-! ## The directory of the object files -/

/-- Removes an entry of a directory, and all that is below it.  A link is removed and not
followed. -/
def removeEntry (p : Path) : WorkspaceM CompileError Unit :=
  WorkspaceM.mapError (.clean p) (WorkspaceM.change fun w =>
    match w.resolve .keepLink p with
    | .ok (.entry _ .directory) => w.removeTree p
    | _ => w.unlink p)

/-- Removes entries one after another. -/
def removeEntries : List Path → WorkspaceM CompileError Unit
  | [] => pure ()
  | p :: rest => do
    removeEntry p
    removeEntries rest

/-- Removes what is in a directory, and tells how many entries there were.  A directory that is
missing has none; the directory itself stays. -/
def emptyDirectory (dir : Path) : WorkspaceM CompileError Nat := do
  let w ← get
  match w.find dir with
  | .error .notFound => return 0
  | .error e => throw (.clean dir e)
  | .ok (place, .directory) =>
    -- listed before the first one is removed, and counted as they are listed
    let entries := (w.names place).map fun name => dir.join ⟨name⟩
    removeEntries entries
    return entries.length
  | .ok _ => throw (.clean dir .notADirectory)

/-! ## The step -/

/-- Runs the compiler, and notes that it ran. -/
def execute (compiler : Compiler) (spec : CompileSpec) : RunM CompileError Bool :=
  ExceptT.mk do
    let result ← (compiler spec).run
    modify fun r => { r with phases := .compileExecution :: r.phases }
    return result

/-- What the compiler is told after an analysis.  Only an incremental step is told what has
changed; a full one compiles the sources that were given. -/
def CompileSpec.after (spec : CompileSpec) (a : Analysis) : CompileSpec :=
  let spec := { spec with directives := a.sourceDirectives }
  if spec.isIncremental then
    { spec with sources := a.recompile.toList, removed := a.removed.toList }
  else spec

/-- Compiles what it is told, with an empty directory of object files.  To have removed something
counts as work. -/
def compileAll (compiler : Compiler) (spec : CompileSpec) : RunM CompileError Bool := do
  let deleted ← RunM.onFiles id (emptyDirectory spec.objects)
  let didWork ← execute compiler spec
  return didWork || deleted != 0

/-- Compiles after an analysis, and keeps its state if that succeeds.  The answer is whether
anything was made or removed, and the cache. -/
def compile (compiler : Compiler) (a : Analysis) (cache : StateCache) (spec : CompileSpec) :
    RunM CompileError (Bool × StateCache) := do
  let spec := spec.after a
  let work := if spec.isIncremental then execute compiler spec else compileAll compiler spec
  let didWork ← ExceptT.mk do
    let result ← work.run
    modify fun r => { r with phases := .compileProcessing :: r.phases }
    return result
  -- not reached after a failure of the compiler, so that what was not compiled is handed over
  -- again
  let cache ← RunM.onFiles .state (cache.set a.state)
  return (didWork, cache)

end IncludeDeps

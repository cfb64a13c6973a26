import IncludeDeps.CommandLine.Project

/-!
# The command line

The commands of the program.  Tasks are worked on in order up to the first failure, and what was
printed before stays printed.

* `Project.depend` finds out what has changed in a task and remembers the new state;
* `Project.status` finds out what has changed, `Project.clean` forgets a state;
* `CommandLine.run` does what the words of a command line ask for.
-/

namespace IncludeDeps

/-! ## Reports -/

/-- What has been found out about a task. -/
structure TaskReport where
  /-- The name by which the task is known. -/
  task : String
  /-- The number of sources. -/
  sources : Nat
  /-- What has been found out. -/
  outcome : Outcome
deriving DecidableEq

namespace TaskReport

variable (r : TaskReport)

/-- The line that says how much there is to do. -/
def headline : String :=
  r.task ++ ": " ++ r.outcome.recompile.size.repr ++ " of " ++ r.sources.repr ++
    " sources to recompile, " ++ r.outcome.removed.size.repr ++ " removed, " ++
    r.outcome.headers.size.repr ++ " header dependencies" ++
    if r.outcome.isIncomplete then " (all include root files, unresolved macro include)" else ""

/-- A path as it is printed: seen from the directory of the project, if it is below. -/
def shown (dir p : Path) : String := ((p.relativeTo? dir).getD p).text

/-- The lines that name the files. -/
def details (dir : Path) : List String :=
  (r.outcome.recompile.toList.map fun p => "    recompile " ++ shown dir p) ++
    r.outcome.removed.toList.map fun p => "    removed   " ++ shown dir p

end TaskReport

/-! ## Commands -/

/-- What a command says about a task. -/
structure Remark where
  /-- The lines to print. -/
  lines : List String
  /-- Whether there is something to do. -/
  isPending : Bool := false
deriving DecidableEq

namespace Project

variable (p : Project)

/-- Looks up a task in the files of the run. -/
def lookUp (name : String) : RunM CommandError Task :=
  RunM.onFiles id (WorkspaceM.ask fun w => p.task w name)

/-- What is said about an outcome. -/
def remark (t : Task) (o : Outcome) (isDetailed : Bool) : List String :=
  let r : TaskReport := ⟨t.name, t.sources.length, o⟩
  r.headline :: if isDetailed then r.details p.directory else []

/-- Finds out what has changed in a task, and remembers the new state, so that the next command is
about what changes from now on. -/
def depend (isDetailed : Bool) (name : String) : RunM CommandError Remark := do
  let t ← p.lookUp name
  let (o, _) ← (t.detect contentHasher (.stored p.store t.name)).adapt .task
  return { lines := p.remark t o isDetailed }

/-- Finds out what has changed in a task, as `depend` does, and changes nothing. -/
def status (isDetailed : Bool) (name : String) : RunM CommandError Remark := do
  let t ← p.lookUp name
  let a ← (t.analyse contentHasher (.stored p.store t.name)).adapt .task
  let headers ← RunM.onFiles (fun e => .task (.rootScan e))
    (WorkspaceM.ask fun w => HeaderMap.collect w t.roots a)
  let o : Outcome := ⟨a.recompile, a.removed, headers.headers, a.isIncomplete⟩
  return { lines := p.remark t o isDetailed, isPending := !a.isUpToDate }

/-- Forgets the state of a task, which need not have one.  The task is looked up in the
configuration only: its sources may be missing. -/
def clean (name : String) : RunM CommandError Remark := do
  if !p.config.tasks.contains name then throw (.config (.unknownTask name))
  let key := p.config.taskName name
  let wasThere ← RunM.onFiles .state (p.store.remove key)
  return { lines := [key ++ if wasThere then ": state removed" else ": no stored state"] }

/-- Works on tasks in order, up to the first failure.  The answer has the lines to print and whether
there is something to do in any of the tasks. -/
def onEach (work : String → RunM CommandError Remark) :
    List String → StateM Run (List String × Except CommandError Bool)
  | [] => return ([], .ok false)
  | name :: rest => do
    match ← (work name).run with
    -- what was said before the failure is printed, and the tasks after it are not begun
    | .error e => return ([], .error e)
    | .ok r =>
      let (lines, result) ← onEach work rest
      return (r.lines ++ lines, result.map (r.isPending || ·))

/-- Runs a command on the given tasks, or on all of them. -/
def perform (c : Command) (given : Given) : StateM Run (List String × Except CommandError Bool) :=
  let isDetailed := given.has .list
  let work := match c with
    | .depend => p.depend isDetailed
    | .status => p.status isDetailed
    | .clean => p.clean
  onEach work (p.taskNames (given.values .task))

end Project

/-! ## Command lines -/

/-- What comes of a command line. -/
structure Reply where
  /-- The exit code: 0 if all went well, 1 after a failure, and 2 if the command line asks for
  nothing that can be done or if a status has something to do. -/
  code : Nat
  /-- What is printed. -/
  output : String := ""
  /-- The failure. -/
  error : Option CommandError := none
deriving DecidableEq

namespace CommandLine

/-- Runs a command in the project that the options name.  A failure is told after what was said of
the tasks before it. -/
def runCommand (c : Command) (given : Given) : StateM Run Reply := do
  match Project.find (← get).files ((given.last? .config).map Path.mk) with
  | .error e => return { code := 1, error := some e }
  | .ok project =>
    let (lines, result) ← project.perform c given
    let output := if given.has .quiet then "" else String.join (lines.map (· ++ "\n"))
    match result with
    | .error e => return { code := 1, output, error := some e }
    | .ok isPending => return { code := if isPending then 2 else 0, output }

/-- Does what the words of a command line ask for. -/
def run (words : List String) : StateM Run Reply :=
  match Request.ofWords words with
  | .run c given => runCommand c given
  | .version => return { code := 0, output := programName ++ " " ++ programVersion ++ "\n" }
  | .help topic => return { code := 0, output := Help.text topic }
  | .misuse => return { code := 2 }

end CommandLine

end IncludeDeps

import IncludeDeps.Pass

/-!
# Analyses

The outcome of a pass, compared with the state that the last run left: which sources have to be
compiled again, which are gone, and the state to remember once that is done.

A file has changed if its content did, if an include became something else, or if it could not be
read.  A source is compiled again if it is new, if the settings changed, or if any file that it
leads to has changed.

* `Analysis.ofPass` is the comparison;
* `Analysis.run` is a pass and the comparison.
-/

namespace IncludeDeps

/-- What has to be done for a task, and what is to be remembered afterwards. -/
structure Analysis where
  /-- The sources that have to be compiled. -/
  recompile : OrderedSet Path
  /-- The sources of the last run that are no sources any more. -/
  removed : OrderedSet Path
  /-- The headers that each include path was resolved to, as far as they could be read. -/
  found : OrderedMap String (OrderedSet Path)
  /-- Whether some expression could not be expanded completely. -/
  isIncomplete : Bool
  /-- The state to remember. -/
  state : TaskState
deriving DecidableEq

/-- A draft, finished. -/
def Draft.snapshot (d : Draft) (p : Path) : Snapshot := ⟨p, d.digest, d.directives, d.resolved⟩

namespace Pass

/-- The snapshots of all files that were read. -/
def snapshots (pass : Pass) : OrderedMap Path Snapshot :=
  pass.files.mapValues fun p d => d.snapshot p

/-- Whether a file is not what it was when the previous state was made: it cannot be read, or it is
new, or its content or what became of its includes is another. -/
def hasChanged (pass : Pass) (previous : TaskState) (p : Path) : Bool :=
  pass.unreadable.contains p ||
    match previous.snapshot? p, pass.files.get? p with
    | some old, some new =>
      old.digest != new.digest || !ResolvedInclude.sameAll old.resolved new.resolved
    -- known on one side only
    | _, _ => true

/-- The headers that were found and could be read, by the paths that were searched for.  One path
may have been found in several directories. -/
def found (pass : Pass) : OrderedMap String (OrderedSet Path) :=
  let entries := pass.snapshots.values.flatMap fun s => s.resolved.filterMap fun r =>
    r.file?.map fun file => (r.candidate, file)
  -- what could not be read was found all the same, and is left out here
  (entries.filter fun e => !pass.unreadable.contains e.2).foldl
    (fun m (target, file) => m.insert target (((m.get? target).getD ∅).insert file)) ∅

end Pass

namespace Analysis

/-- The comparison of a pass over `sources` with the state that was left before.  A source has to
be compiled if the settings are others, if it was no source before, or if some file that it leads
to has changed. -/
def ofPass (c : PassContext) (sources : OrderedSet Path) (pass : Pass) : Analysis :=
  let fingerprint := c.settings.fingerprint
  let hasChanged (source : Path) : Bool :=
    c.previous.settings != some fingerprint || !c.previous.isSource source ||
      match pass.reachable.get? source with
      | some reached => reached.toList.any (pass.hasChanged c.previous)
      | none => true
  { recompile := sources.filter hasChanged
    removed := c.previous.sources.filter fun p => !sources.contains p
    found := pass.found
    isIncomplete := pass.isIncomplete
    state := ⟨sources, pass.snapshots, some fingerprint⟩ }

/-- The analysis of the given sources, or the first source that cannot be read; and the pass.  All
sources are read first, and then there is a walk from each. -/
def run (c : PassContext) (sources : OrderedSet Path) : Except (Path × Fault) Analysis × Pass :=
  match Pass.start.readSources c sources.toList with
  | (.error e, pass) => (.error e, pass)
  | (.ok (), pass) =>
    let pass := pass.visitAll c sources.toList
    (.ok (ofPass c sources pass), pass)

/-- All headers that were found. -/
def headers (a : Analysis) : OrderedSet Path :=
  OrderedSet.ofList (a.found.values.flatMap OrderedSet.toList)

/-- Whether there is nothing to do. -/
def isUpToDate (a : Analysis) : Bool := a.recompile.isEmpty && a.removed.isEmpty

/-- The directives of every source, by its path. -/
def sourceDirectives (a : Analysis) : OrderedMap Path Directives :=
  OrderedMap.ofList (a.state.sources.toList.filterMap fun p =>
    (a.state.snapshot? p).map fun s => (s.path, s.directives))

end Analysis

end IncludeDeps

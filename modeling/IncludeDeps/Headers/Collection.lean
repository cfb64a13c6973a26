import IncludeDeps.Analysis
import IncludeDeps.Headers.File

/-!
# Collecting headers

The headers that a task depends on.  As long as every expression could be expanded, these are the
headers that were found; otherwise anything under the include roots may have been included, and
all files there count.

* `HeaderMap.underRoots` lists the files under the include roots;
* `HeaderMap.collect` is the map of headers of an analysis.
-/

namespace IncludeDeps

/-- The failure to list the files under an include root. -/
structure RootScanError where
  /-- The root. -/
  root : Path
  /-- The failure. -/
  fault : Fault
deriving DecidableEq

/-- How the failure is told. -/
def RootScanError.message (e : RootScanError) : String :=
  "failed to scan include root " ++ e.root.text ++ ": " ++ e.fault.message

namespace HeaderMap

/-- The map with one more header under a path.  Of equal headers the first stays. -/
def add (m : HeaderMap) (target : String) (p : Path) : HeaderMap :=
  m.insert target (((m.get? target).getD ∅).insert p)

/-- The files below a directory.  A link counts if it leads to a file, and is not followed to a
directory.  A directory whose path has become too long to be followed cannot be listed. -/
def filesBelow (w : Workspace) (dir : Path) : Except Fault (List Path) := do
  let (place, _) ← w.find dir
  let found ← (w.below place).mapM fun (names, entry) => do
    let p := dir.extend (names.map .name)
    if entry = .directory then
      let _ ← w.find p
      return none
    else return if w.isFile p then some p else none
  return found.filterMap id

/-- The path of a file below a directory, its names with slashes between them.  The names are
Unicode text (`Path`), so none of them has to be spelled with replacement characters, which other
names might share. -/
def keyBelow (dir p : Path) : String :=
  String.intercalate "/" (((p.relativeTo? dir).getD p).components.map Path.Component.text)

/-- The files under the include roots, by their paths from there.  A root that is no directory
holds none; one that cannot be listed makes the whole listing fail. -/
def underRoots (w : Workspace) (roots : List Path) : Except RootScanError HeaderMap :=
  -- one root after the other; under a key all of them put their files into one set
  (roots.filter w.isDirectory).foldlM
    (fun m root => do
      let files ← (filesBelow w root).mapError (⟨root, ·⟩)
      return files.foldl (fun m p => m.add (keyBelow root p) p) m) ∅

/-- The headers that are files now. -/
def existing (w : Workspace) (m : HeaderMap) : HeaderMap :=
  let present := m.mapValues fun _ headers => headers.filter w.isFile
  present.filter fun _ headers => !headers.isEmpty

/-- All headers that are files now. -/
def existingHeaders (w : Workspace) (m : HeaderMap) : OrderedSet Path :=
  OrderedSet.ofList ((m.values.flatMap OrderedSet.toList).filter w.isFile)

/-- The headers of an analysis, as they are published: those that were found and are still files,
or all files under the include roots if some expression could not be expanded. -/
def collect (w : Workspace) (roots : List Path) (a : Analysis) : Except RootScanError HeaderMap :=
  if a.isIncomplete then underRoots w roots else .ok (existing w a.found)

end HeaderMap

end IncludeDeps

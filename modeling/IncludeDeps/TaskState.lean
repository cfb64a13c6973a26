import IncludeDeps.Digest
import IncludeDeps.Directive
import IncludeDeps.OrderedSet
import IncludeDeps.Path

/-!
# Task states

What a run remembers of a task for the next one: the sources, and a `Snapshot` of every source and
every header that was reached from them.  A snapshot tells the content of a file at that time by
its digest, what the file asked for, and where each request was found.
-/

namespace IncludeDeps

/-- Where an include was found. -/
structure Location where
  /-- The header. -/
  file : Path
  /-- The directory of the search that holds it. -/
  root : Path
deriving DecidableEq, Inhabited

/-- An include together with what became of it.  A target that has to be expanded may have several
of these. -/
structure ResolvedInclude where
  /-- The directive. -/
  directive : Include
  /-- The path that was searched for; empty if an expansion came to nothing. -/
  candidate : String
  /-- Where the path was found, if it was. -/
  location : Option Location
deriving DecidableEq, Inhabited

/-- The header that was found. -/
def ResolvedInclude.file? (r : ResolvedInclude) : Option Path := r.location.map Location.file

/-- Whether two places are the same, whatever the spelling of the paths. -/
def Location.same (l m : Location) : Bool := l.file.same m.file && l.root.same m.root

/-- Whether two includes became the same, whatever the spelling of the paths. -/
def ResolvedInclude.same (r s : ResolvedInclude) : Bool :=
  r.directive = s.directive && r.candidate = s.candidate &&
    match r.location, s.location with
    | none, none => true
    | some l, some m => l.same m
    | _, _ => false

/-- Whether two lists of includes became the same. -/
def ResolvedInclude.sameAll : List ResolvedInclude → List ResolvedInclude → Bool
  | [], [] => true
  | r :: rs, s :: ss => r.same s && sameAll rs ss
  | _, _ => false

/-- A file as it was read. -/
structure Snapshot where
  /-- The file. -/
  path : Path
  /-- The digest of its content. -/
  digest : Digest
  /-- Its directives. -/
  directives : Directives
  /-- What became of its includes, in their order. -/
  resolved : List ResolvedInclude
deriving DecidableEq

namespace Snapshot

/-- The headers that the includes of the file were resolved to. -/
def files (s : Snapshot) : List Path := s.resolved.filterMap ResolvedInclude.file?

/-- Whether some include was not found. -/
def hasUnresolved (s : Snapshot) : Bool := s.resolved.any (·.location.isNone)

end Snapshot

/-- What is remembered of a task. -/
structure TaskState where
  /-- The sources. -/
  sources : OrderedSet Path
  /-- The snapshots of the sources and of all headers reached from them, by their paths. -/
  files : OrderedMap Path Snapshot
  /-- The fingerprint of the settings, unless nothing is remembered. -/
  settings : Option Digest
deriving DecidableEq

namespace TaskState

/-- The state of a task that was never run. -/
def empty : TaskState := ⟨∅, ∅, none⟩

instance : EmptyCollection TaskState := ⟨empty⟩

instance : Inhabited TaskState := ⟨empty⟩

/-- The snapshot of a file. -/
def snapshot? (s : TaskState) (p : Path) : Option Snapshot := s.files.get? p

/-- Whether a file was a source. -/
def isSource (s : TaskState) (p : Path) : Bool := s.sources.contains p

/-- The snapshots of the files that are no sources. -/
def headers (s : TaskState) : List Snapshot := s.files.values.filter fun f => !s.isSource f.path

/-- Whether neither a source nor a snapshot is remembered. -/
def isEmpty (s : TaskState) : Bool := s.files.isEmpty && s.sources.isEmpty

end TaskState

end IncludeDeps

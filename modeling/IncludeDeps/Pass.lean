import IncludeDeps.Reader
import IncludeDeps.Search
import IncludeDeps.Settings

/-!
# Passes over the sources

A pass reads the sources of a task and every header that is reached from them.  Each file is read
once.  From each source in turn the includes are followed depth first; on the way the macros are
collected, so an expression is expanded with the macros that were seen before it.  A file that
includes an expression is therefore resolved anew whenever it is reached, and what became of its
includes is put together from all these times.

* `Pass.read` takes in one file;
* `Walk.enter` follows the includes of one file;
* `Pass.visit` walks from one source, `Pass.visitAll` from all of them.

The directives of a file are taken from the previous state if that was made with the same settings
and knows the file with the same digest.
-/

namespace IncludeDeps

/-- A file as far as it is known in the middle of a pass. -/
structure Draft where
  /-- The digest of its content. -/
  digest : Digest
  /-- Its directives. -/
  directives : Directives
  /-- What became of its includes so far. -/
  resolved : List ResolvedInclude
  /-- Whether its includes were followed yet. -/
  isResolved : Bool
deriving DecidableEq

/-- What a pass works with, and what does not change while it goes on. -/
structure PassContext where
  /-- The files. -/
  reader : Reader
  /-- The settings of the task. -/
  settings : Settings
  /-- The state that the last run left. -/
  previous : TaskState

/-- What a pass knows so far. -/
structure Pass where
  /-- The files that were read. -/
  files : OrderedMap Path Draft
  /-- The headers that were found and could not be read. -/
  unreadable : OrderedSet Path
  /-- The files that each source leads to, itself among them. -/
  reachable : OrderedMap Path (OrderedSet Path)
  /-- Whether some expression could not be expanded completely. -/
  isIncomplete : Bool
  /-- How many files were read, with success or without. -/
  reads : Nat
  /-- The files that were looked for. -/
  probes : List Path

/-- The knowledge at the start of a pass. -/
def Pass.start : Pass := ⟨∅, ∅, ∅, false, 0, []⟩

namespace PassContext

variable (c : PassContext)

/-- Whether the previous state was made with the same settings. -/
def reusesPrevious : Bool := c.previous.settings = some c.settings.fingerprint

/-- The directives that the previous state knows for a file with the given digest. -/
def knownDirectives? (p : Path) (digest : Digest) : Option Directives :=
  match c.previous.snapshot? p with
  | some s => if c.reusesPrevious && s.digest = digest then some s.directives else none
  | none => none

/-- A file as it is read.  Its content is looked at only if the previous state does not know the
directives of this digest. -/
def draft (p : Path) : Except Fault Draft := do
  let digest ← c.reader.digest p
  match c.knownDirectives? p digest with
  | some directives => return ⟨digest, directives, [], false⟩
  | none =>
    let content ← c.reader.content p
    return ⟨digest, Source.readBytes c.settings.imports content, [], false⟩

/-- Where headers are searched. -/
def search : Search := ⟨c.settings.roots, c.reader.isFile⟩

end PassContext

namespace Pass

/-- The pass after reading a file, unless it was tried already, and the file, if it could be
read. -/
def read (c : PassContext) (pass : Pass) (p : Path) : Except Fault Draft × Pass :=
  match pass.files.get? p with
  | some d => (.ok d, pass)
  | none =>
    let pass := { pass with reads := pass.reads + 1 }
    match c.draft p with
    | .ok d => (.ok d, { pass with files := pass.files.insert p d })
    | .error e => (.error e, pass)

/-- Reads a header.  One that cannot be read is remembered, and not tried again. -/
def readHeader (c : PassContext) (pass : Pass) (p : Path) : Option Draft × Pass :=
  if !pass.files.contains p && pass.unreadable.contains p then (none, pass)
  else match pass.read c p with
    | (.ok d, pass) => (some d, pass)
    | (.error _, pass) => (none, { pass with unreadable := pass.unreadable.insert p })

/-- Reads the sources in order, up to the first that cannot be read. -/
def readSources (c : PassContext) : Pass → List Path → Except (Path × Fault) Unit × Pass
  | pass, [] => (.ok (), pass)
  | pass, p :: rest =>
    match pass.read c p with
    | (.ok _, pass) => readSources c pass rest
    | (.error e, pass) => (.error (p, e), pass)

end Pass

/-- Adds what is not the same as something that is there. -/
def addNew (l : List ResolvedInclude) (r : ResolvedInclude) : List ResolvedInclude :=
  if l.any r.same then l else l ++ [r]

/-- A walk from one source, in the midst of a pass.  The pass goes on with the next source, the
macros and the visited files do not. -/
structure Walk where
  /-- What the pass knows. -/
  pass : Pass
  /-- The macros that were seen on the walk. -/
  macros : MacroTable
  /-- The files that were entered on the walk. -/
  visited : OrderedSet Path

namespace Walk

/-- Enters a file: reads it, takes in its macros and resolves its includes, if they were not
resolved or depend on macros.  The answer is the headers to go on with, in order. -/
def enter (c : PassContext) (w : Walk) (p : Path) : List Path × Walk :=
  let w := { w with visited := w.visited.insert p }
  match w.pass.readHeader c p with
  | (none, pass) => ([], { w with pass })
  | (some d, pass) =>
    let macros := w.macros.defineAll d.directives.macros
    -- without computed includes the macros do not matter, so what the first walk found holds for
    -- all
    if d.isResolved && !d.directives.hasComputedIncludes then
      (d.resolved.filterMap ResolvedInclude.file?, { w with pass, macros })
    else
      let resolution := c.search.resolveAll macros p d.directives
      -- what walks with other macros have found stays in front of what is new
      let resolved := resolution.resolved.foldl addNew d.resolved
      let d := { d with resolved, isResolved := true }
      let pass := { pass with
        files := pass.files.insert p d
        isIncomplete := pass.isIncomplete || !resolution.isComplete
        probes := pass.probes ++ c.search.probesAll macros p d.directives }
      (d.resolved.filterMap ResolvedInclude.file?, { w with pass, macros })

/-- Enters the files on the stack that were not entered yet, the top one first, and in front of the
others what they lead to.  At most `fuel` files are entered. -/
def run (c : PassContext) : (fuel : Nat) → List Path → Walk → Walk
  | 0, _, w => w
  | fuel + 1, stack, w =>
    match stack.dropWhile w.visited.contains with
    | [] => w
    | p :: rest =>
      let (next, w) := w.enter c p
      -- depth first: what the file includes comes before what is left
      run c fuel (next ++ rest) w

end Walk

namespace Pass

/-- The pass after the walk from a source.  Apart from the source itself, every file that is
entered is a header that was found, so the walk ends before its fuel does. -/
def visit (c : PassContext) (pass : Pass) (source : Path) : Pass :=
  let w := Walk.run c (c.reader.budget + 1) [source] ⟨pass, MacroTable.ofMap c.settings.macros, ∅⟩
  { w.pass with reachable := w.pass.reachable.insert source w.visited }

/-- The pass after the walks from all sources. -/
def visitAll (c : PassContext) (pass : Pass) (sources : List Path) : Pass :=
  sources.foldl (visit c) pass

end Pass

end IncludeDeps

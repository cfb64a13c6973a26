import IncludeDeps.Headers.Record.Reading
import IncludeDeps.OrderedSet
import IncludeDeps.TaskState
import IncludeDeps.Text.Blank
import IncludeDeps.Text.Lines
import IncludeDeps.Workspace.Operations

/-!
# Header dependencies files

A file that tells which headers, and which versions of them, the outputs of a task depend on: one
record a line, by the paths that were included and then by the headers.  The file is replaced as a
whole, so a reader never sees a part of it, and a failure leaves the old file as it was.

* `HeaderMap` is what the file is written from;
* `HeaderMap.write` and `readHeaderFile` write and read it.
-/

namespace IncludeDeps

/-- The headers of a task, by the paths with which they were included. -/
abbrev HeaderMap := OrderedMap String (OrderedSet Path)

/-- The failure to write a header dependencies file. -/
structure HeaderFileError where
  /-- The file. -/
  path : Path
  /-- The failure. -/
  fault : Fault
deriving DecidableEq

/-- How the failure is told. -/
def HeaderFileError.message (e : HeaderFileError) : String :=
  "failed to write header dependencies file " ++ e.path.text ++ ": " ++ e.fault.message

namespace HeaderMap

/-- All pairs of an included path and a header, in order. -/
def pairs (m : HeaderMap) : List (String × Path) :=
  m.toList.flatMap fun e => e.2.toList.map fun p => (e.1, p)

/-- All headers; of equal ones the last stays. -/
def headers (m : HeaderMap) : OrderedSet Path :=
  OrderedSet.ofList (m.values.flatMap OrderedSet.toList)

/-- The records of all pairs, or the failure of the first header that has no digest. -/
def records (m : HeaderMap) (hasher : Path → Except Fault Digest) :
    Except Fault (List HeaderRecord) :=
  m.pairs.mapM fun (target, p) => (hasher p).map fun d => ⟨target, p, d.hex⟩

/-- The content of a file with the given records. -/
def content (records : List HeaderRecord) : Bytes :=
  Bytes.ofText (String.join (records.map fun r => r.line ++ "\n"))

/-- The file that is written before it takes the place of the old one. -/
def scratch (w : Workspace) (path : Path) : Path :=
  ⟨path.text ++ ".tmp." ++ w.processId.repr⟩

/-- Writes the file, to a scratch file that takes the place of the old one when it is complete.  The
headers are digested after the scratch file was opened, and it is removed after a failure. -/
def write (m : HeaderMap) (path : Path) (hasher : Workspace → Path → Except Fault Digest) :
    WorkspaceM HeaderFileError Unit :=
  WorkspaceM.mapError (⟨path, ·⟩) do
    if let some dir := path.parent? then createDirectories dir
    let scratch := scratch (← get) path
    WorkspaceM.onFailure
      (do
        -- one of the headers may be the file itself, and is digested as it was
        WorkspaceM.change (·.write scratch [])
        let records ← WorkspaceM.ask fun w => m.records (hasher w)
        WorkspaceM.change (·.write scratch (content records))
        WorkspaceM.change (·.rename scratch path))
      fun w => (w.unlink scratch).toOption.getD w

end HeaderMap

/-- The failure to read a record. -/
def recordFault : Json.ScanError → Fault
  | .ended => .unexpectedEnd "record ends too early"
  | .invalid => .invalidData "malformed record"

/-- The records of a header dependencies file.  Blank lines are passed over. -/
def readHeaderFile (w : Workspace) (path : Path) : Except Fault (List HeaderRecord) := do
  let text ← w.readText path
  let lines := (Text.lines text.toList).filter fun l => !(Text.trim l).isEmpty
  lines.mapM fun l => (HeaderRecord.read l).mapError recordFault

/-- The digests of a state, and those of `fallback` for files that it does not know. -/
def TaskState.hasher (s : TaskState) (fallback : Path → Except Fault Digest) (p : Path) :
    Except Fault Digest :=
  match s.snapshot? p with
  | some f => .ok f.digest
  | none => fallback p

end IncludeDeps

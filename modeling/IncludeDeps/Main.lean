import IncludeDeps.CommandLine.Reach

/-!
# The program

Runs a command line on the files of the machine.  What the command line asks for is copied into a
workspace, the command runs there, and what it has changed is written back.
-/

namespace IncludeDeps.Machine

/-- The path of a text, as the machine takes it. -/
def filePath (text : String) := (IO.FS.DirEntry.mk text "").root

/-- The path of a place. -/
def pathOf (place : Place) : Path := Path.ofComponents (.root :: place.map .name)

/-- What the machine has at a place; nothing if it cannot be read. -/
def entryAt? (place : Place) : IO (Option Entry) := do
  let path := filePath (pathOf place).text
  try
    match (← path.symlinkMetadata).type with
    | .dir => return some .directory
    | .file => return some (.file (← IO.FS.readBinFile path).data.toList)
    | .symlink => return some (.link (← IO.FS.realPath path).toString)
    | .other => return none
  catch _ => return none

/-- Copies what a path leads to, and the directories and links on the way. -/
partial def copyFile (w : Workspace) (p : Path) : IO Workspace :=
  p.around.reverse.foldlM copyLast w
where
  /-- Copies what a path leads to, its directory having been copied. -/
  copyLast (w : Workspace) (p : Path) : IO Workspace := do
    match w.resolve .follow p with
    | .ok (.vacancy dir name) =>
      match ← entryAt? (dir ++ [name]) with
      | none => return w
      | some (.link target) => copyFile (w.put dir name (.link target)) ⟨target⟩
      | some entry => return w.put dir name entry
    | _ => return w

/-- Copies what a path leads to, and all that is below it.  A directory is gone through once, and
`seen` has those that have been. -/
partial def copyTree (seen : List Place) (w : Workspace) (p : Path) :
    IO (List Place × Workspace) := do
  let w ← copyFile w p
  match w.find p with
  | .ok (place, .directory) =>
    if seen.contains place then return (seen, w)
    let entries ← (filePath (pathOf place).text).readDir
    entries.foldlM (fun (seen, w) e => copyTree seen w (p.join ⟨e.fileName⟩)) (place :: seen, w)
  | _ => return (seen, w)

/-- Copies what a command line asks for, until it asks for nothing more. -/
partial def copyAll (words : List String) (w : Workspace) : IO Workspace := do
  let asked := CommandLine.reach w words
  let filled ← asked.files.foldlM copyFile w
  let (_, filled) ← asked.trees.foldlM (fun (seen, w) p => copyTree seen w p) ([], filled)
  if filled.entries.size = w.entries.size then return w else copyAll words filled

/-- Writes back what has changed. -/
def writeBack (before after : Workspace) : IO Unit := do
  for (place, entry) in after.entries.toList do
    if before.at? place ≠ some entry then
      let path := filePath (pathOf place).text
      match entry with
      | .file content => IO.FS.writeBinFile path ⟨content.toArray⟩
      | .directory => IO.FS.createDirAll path
      | .link _ => pure ()
  for (place, _) in before.entries.toList do
    if (after.at? place).isNone then IO.FS.removeFile (filePath (pathOf place).text)

/-- Runs a command line.  The answer is the exit code. -/
def run (words : List String) : IO UInt32 := do
  let here := (⟨(← IO.currentDir).toString⟩ : Path).components.tail.map Path.Component.text
  let before ← copyAll words (Workspace.bare here 1)
  let (reply, after) := (CommandLine.run words).run { files := before }
  writeBack before after.files
  IO.print reply.output
  if let some e := reply.error then IO.eprintln ("error: " ++ e.message)
  return reply.code.toUInt32

end IncludeDeps.Machine

/-- The program. -/
def main (words : List String) : IO UInt32 := IncludeDeps.Machine.run words

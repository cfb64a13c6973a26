import IncludeDeps.Fault
import IncludeDeps.Path
import IncludeDeps.Workspace

/-!
# Where a path leads

A path is followed name by name from the root or from the current directory.  A link on the way is
replaced by the path that it stands for; at most forty links are followed.  A name has at most 255
bytes and a path fewer than 4096.

* `Workspace.resolve` follows a path to the end; `LastStep` says what to do there;
* `Workspace.locate` stops before the last name, which need not be there.

The recursion is on the names, and for each link that is met, on the number of links that may
still be followed.
-/

namespace IncludeDeps

/-- What to do at the last name of a path. -/
inductive LastStep where
  /-- Follow a link to what it stands for. -/
  | follow
  /-- Stop at a link. -/
  | keepLink
  /-- Follow a link, in order to write a file there. -/
  | write
deriving DecidableEq

/-- What there is where a path leads. -/
inductive Found where
  /-- An entry. -/
  | entry (place : Place) (entry : Entry)
  /-- Nothing, in a directory that is there. -/
  | vacancy (dir : Place) (name : String)
deriving DecidableEq

/-- The last name of a path, in the directory to which the rest of the path leads. -/
inductive Spot where
  /-- A name, and whether a slash follows it. -/
  | name (dir : Place) (name : String) (slash : Bool)
  /-- The root, or a step that is no name. -/
  | step
deriving DecidableEq

namespace Workspace

/-- The greatest number of bytes of a name. -/
def nameLimit : Nat := 255

/-- The number of bytes that every path is shorter than. -/
def pathLimit : Nat := 4096

/-- The number of links that may be met on the way. -/
def linkLimit : Nat := 40

/-- The names of a path, with the empty ones between and after slashes. -/
def segments (text : String) : List String := (text.toList.splitOn '/').map String.ofList

/-- The place from which a path of the given text is followed. -/
def origin (text : String) (here : Place) : Place :=
  if text.toList.head? = some '/' then [] else here

/-- Follows names from the directory `dir`.  A link that has to be followed is left to `onLink`,
with the directory and the names to go on with, so that links can be counted there. -/
def follow (w : Workspace) (last : LastStep) (onLink : Place → List String → Except Fault Found) :
    Place → List String → Except Fault Found
  | dir, [] => .ok (.entry dir .directory)
  | dir, name :: rest =>
    let isLast := rest.all (·.isEmpty)
    if name = "" ∨ name = "." then follow w last onLink dir rest
    else if name = ".." then follow w last onLink dir.dropLast rest
    else if nameLimit < name.utf8ByteSize then .error .nameTooLong
    else if last = .write ∧ isLast ∧ rest ≠ [] then .error .isADirectory
    else
      let place := dir ++ [name]
      match w.at? place with
      | none => if isLast then .ok (.vacancy dir name) else .error .notFound
      | some .directory => follow w last onLink place rest
      | some (.file content) =>
        if rest = [] then .ok (.entry place (.file content)) else .error .notADirectory
      | some (.link target) =>
        if rest = [] ∧ last = .keepLink then .ok (.entry place (.link target))
        -- a link is seen from the directory that it lies in
        else onLink (origin target dir) (segments target ++ rest)

/-- Follows names from a directory, and at most the given number of links. -/
def followLinks (w : Workspace) (last : LastStep) : Nat → Place → List String → Except Fault Found
  | 0 => follow w last fun _ _ => .error .tooManyLinks
  | n + 1 => follow w last (followLinks w last n)

/-- The directory from which a path is followed. -/
def start (w : Workspace) (p : Path) : Except Fault Place :=
  if '\x00' ∈ p.text.toList then .error .zeroInName
  else if p.text = "" then .error .notFound
  else if pathLimit ≤ p.byteSize then .error .nameTooLong
  else
    let dir := origin p.text w.cwd
    if w.at? dir = some .directory then .ok dir else .error .notFound

/-- What there is where a path leads. -/
def resolve (w : Workspace) (last : LastStep) (p : Path) : Except Fault Found := do
  followLinks w last linkLimit (← w.start p) (segments p.text)

/-- The directory to which names lead. -/
def directoryAt (w : Workspace) (dir : Place) (names : List String) : Except Fault Place := do
  match ← followLinks w .follow linkLimit dir (names ++ ["."]) with
  | .entry place _ => return place
  | .vacancy _ _ => throw .notFound

/-- The last name of a path, and where it belongs. -/
def locate (w : Workspace) (p : Path) : Except Fault Spot := do
  let dir ← w.start p
  let names := segments p.text
  let reversed := names.reverse.dropWhile (·.isEmpty)
  match reversed with
  | [] => return .step
  | last :: before =>
    let dir ← w.directoryAt dir before.reverse
    if last = "." ∨ last = ".." then return .step
    else if nameLimit < last.utf8ByteSize then throw .nameTooLong
    else return .name dir last (reversed.length < names.length)

end Workspace

end IncludeDeps

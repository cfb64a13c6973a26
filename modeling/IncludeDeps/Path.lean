import IncludeDeps.OrderedSet

/-!
# File paths

A path is a text.  What it means is the list of its *components*: the root, a leading `.`, the
steps up, and names.  Repeated and trailing slashes and every other `.` leave no component.
Paths are ordered, and held to be the same, by their components; their texts still matter,
because a path is shown and looked up by its text.

* `Path.components`, and the order `Ord Path` that it induces;
* `Path.join`, `Path.parent?`, `Path.fileName?`, `Path.extension?`, `Path.relativeTo?`: taking
  texts together and apart;
* `Path.normalize`: the canonical text after cancelling `.` and `..`;
* `Path.absolute?`: the text seen from a current directory.

Nothing here looks at a file tree, so `a/..` cancels even if `a` is a symbolic link.

A file system may know names that are not Unicode text.  They have no path here, and what is done
for them elsewhere has no counterpart: such a path is never remembered by a lookup, and where a
path is written down, as a key or in a fingerprint, replacement characters stand for what is not
text.
-/

namespace IncludeDeps

/-- A file path, given by its text.  Only paths that are Unicode text are represented. -/
structure Path where
  /-- The text of the path. -/
  text : String
deriving DecidableEq, Inhabited

namespace Path

/-- One step of a path. -/
inductive Component where
  /-- The root directory. -/
  | root
  /-- The directory itself, at the start of a relative path. -/
  | here
  /-- The parent directory. -/
  | up
  /-- An entry of a directory. -/
  | name (text : String)
deriving DecidableEq

namespace Component

/-- The place of a kind of component in the order: the root, then `.`, `..` and names. -/
def rank : Component → Nat
  | root => 0
  | here => 1
  | up => 2
  | name _ => 3

/-- How a component is written. -/
def text : Component → String
  | root => "/"
  | here => "."
  | up => ".."
  | name s => s

/-- Components are ordered by kind, and names by their characters. -/
instance : Ord Component := ⟨compareLex (compareOn rank) (compareOn text)⟩

instance : Std.TransOrd Component :=
  inferInstanceAs (Std.TransCmp (compareLex (compareOn rank) (compareOn text)))

/-- The component that stands between two slashes, if any does. -/
def ofSegment? : List Char → Option Component
  | [] => none
  | ['.'] => none
  | ['.', '.'] => some up
  | s => some (name (String.ofList s))

end Component

/-! ## Components -/

/-- What stands at the start of a path, before its names. -/
inductive Lead where
  /-- A slash: the path is absolute. -/
  | root
  /-- A single dot. -/
  | here
  /-- Nothing: the path starts with a name or a step up. -/
  | bare
deriving DecidableEq

/-- The component that a start stands for. -/
def Lead.component? : Lead → Option Component
  | root => some .root
  | here => some .here
  | bare => none

/-- How a start is written. -/
def Lead.chars : Lead → List Char
  | root => ['/']
  | here => ['.']
  | bare => []

/-- The start of a path and the segments between the slashes after it. -/
def split (p : Path) : Lead × List (List Char) :=
  match p.text.toList with
  | '/' :: rest => (.root, rest.splitOn '/')
  | ['.'] => (.here, [])
  | '.' :: '/' :: rest => (.here, [] :: rest.splitOn '/')
  | chars => (.bare, chars.splitOn '/')

/-- The path written as a start followed by segments. -/
def ofSplit (lead : Lead) (segments : List (List Char)) : Path :=
  ⟨String.ofList (lead.chars ++ ['/'].intercalate segments)⟩

/-- The components of a path. -/
def components (p : Path) : List Component :=
  p.split.1.component?.toList ++ p.split.2.filterMap Component.ofSegment?

/-- Paths are ordered by their components. -/
instance : Ord Path := ⟨compareOn components⟩

instance : Std.TransOrd Path := inferInstanceAs (Std.TransCmp (compareOn components))

/-- Whether two texts name the same path. -/
def same (p q : Path) : Bool := compare p q == .eq

/-- Whether a path starts at the root. -/
def isAbsolute (p : Path) : Bool := p.split.1 = .root

/-- The number of bytes of the text. -/
def byteSize (p : Path) : Nat := p.text.utf8ByteSize

/-! ## Taking together -/

/-- The path `q` seen from the directory `p`.  An absolute `q` stands for itself; otherwise a
slash comes between the two, unless `p` is empty or ends in one. -/
def join (p q : Path) : Path :=
  if q.isAbsolute then q
  else if p.text.isEmpty || p.text.toList.getLast? = some '/' then ⟨p.text ++ q.text⟩
  else ⟨p.text ++ "/" ++ q.text⟩

/-- A path with further components. -/
def extend (p : Path) (cs : List Component) : Path := cs.foldl (fun q c => q.join ⟨c.text⟩) p

/-- The canonical text with the given components. -/
def ofComponents (cs : List Component) : Path := extend ⟨""⟩ cs

/-- One step of normalisation, on the components kept so far, the last one first: `.` is
dropped, `..` cancels a name and is dropped at the root. -/
def cancel : List Component → Component → List Component
  | kept, .here => kept
  | .name _ :: kept, .up => kept
  | .root :: kept, .up => .root :: kept
  | kept, c => c :: kept

/-- The canonical text of a path in which `.` is gone and every `..` has taken a name away, as far
as there are names.  No file is looked at, so a link is a name like any other. -/
def normalize (p : Path) : Path := ofComponents (p.components.foldl cancel []).reverse

/-- The path seen from the directory `cwd`.  A leading `.` is dropped and `..` is kept, a
trailing slash stays, and exactly two leading slashes stay two.  The empty path is nowhere. -/
def absolute? (p cwd : Path) : Option Path :=
  if p.text.isEmpty then none
  else
    let slashes := (p.text.toList.takeWhile (· == '/')).length
    let steps := p.components.dropWhile (· == .here)
    let all :=
      if slashes = 0 then cwd.extend steps
      else if slashes = 2 then extend ⟨"//"⟩ (steps.drop 1)
      else ofComponents steps
    some (if p.text.toList.getLast? = some '/' then all.join ⟨""⟩ else all)

/-! ## Taking apart -/

/-- Whether a segment leaves no component. -/
def isVoid (segment : List Char) : Bool := (Component.ofSegment? segment).isNone

/-- Segments without the trailing ones that leave no component. -/
def trimEnd (segments : List (List Char)) : List (List Char) :=
  (segments.reverse.dropWhile isVoid).reverse

/-- The path without its last component; absent for a path that has none or is the root. -/
def parent? (p : Path) : Option Path :=
  match p.split with
  | (lead, segments) =>
    match trimEnd segments with
    | [] => if lead = .here then some ⟨""⟩ else none
    | body => some (ofSplit lead (trimEnd body.dropLast))

/-- The last component, if it is a name. -/
def fileName? (p : Path) : Option String :=
  match p.components.getLast? with
  | some (.name s) => some s
  | _ => none

/-- What follows the last dot of the file name.  A dot at its start does not count. -/
def extension? (p : Path) : Option String :=
  p.fileName?.bind fun s =>
    let reversed := s.toList.reverse
    match reversed.dropWhile (· != '.') with
    | [] | ['.'] => none
    | _ => some (String.ofList (reversed.takeWhile (· != '.')).reverse)

/-- Drops segments until `n` of them that leave a component are gone, and then those that leave
none. -/
def dropSegments : Nat → List (List Char) → List (List Char)
  | _, [] => []
  | n, s :: rest =>
    if isVoid s then dropSegments n rest
    else match n with
      | 0 => s :: rest
      | n + 1 => dropSegments n rest

/-- The rest of `p` below `base`, if the components of `base` are the first ones of `p`. -/
def relativeTo? (p base : Path) : Option Path :=
  let steps := base.components
  if steps.isPrefixOf p.components then
    match p.split with
    | (lead, segments) =>
      if steps.isEmpty then some (ofSplit lead (trimEnd segments))
      else
        let below := steps.length - lead.component?.toList.length
        some (ofSplit .bare (trimEnd (dropSegments below segments)))
  else none

end Path

end IncludeDeps

import IncludeDeps.TaskState
import IncludeDeps.Wire

/-!
# Encoded task states

The content of a state file: the length of a header in four bytes, the header, and the *payload*,
which is the state itself.  The header tells the format, the version of the tool that wrote the
file, and the digest of the payload, so that a state is taken only by the version that wrote it,
and only unchanged.

* `TaskState.wire` is the format of the payload;
* `TaskState.encode` puts the parts of a file together, and `TaskState.fileContent` does so unless
  the header is too long for its four bytes;
* `TaskState.decode` reads a file back.
-/

namespace IncludeDeps

open Wire

/-! ## The payload -/

/-- A path, by its text. -/
def Path.wire : Wire Path := Wire.text.convert Path.text fun s => some ⟨s⟩

/-- A kind of include, by its number. -/
def IncludeKind.wire : Wire IncludeKind :=
  (number 4).convert (fun | .quoted => 0 | .system => 1 | .computed => 2) fun
    | 0 => some .quoted
    | 1 => some .system
    | 2 => some .computed
    | _ => none

/-- A line number. -/
def lineWire : Wire UInt32 :=
  (number 4).convert UInt32.toNat fun n => some (UInt32.ofNat n)

/-- An include. -/
def Include.wire : Wire Include :=
  (IncludeKind.wire.pair (text.pair (flag.pair lineWire.option))).convert
    (fun i => (i.kind, i.target, i.isImport, i.line))
    fun (kind, target, isImport, line) => some ⟨kind, target, isImport, line⟩

/-- A macro definition. -/
def MacroDefinition.wire : Wire MacroDefinition :=
  (text.pair text).convert (fun d => (d.name, d.value)) fun (name, value) => some ⟨name, value⟩

/-- The directives of a file. -/
def Directives.wire : Wire Directives :=
  (Include.wire.list.pair MacroDefinition.wire.list).convert (fun d => (d.includes, d.macros))
    fun (includes, macros) => some ⟨includes, macros⟩

/-- Where an include was found: zero and the place, or one for nowhere. -/
def Location.wire : Wire (Option Location) where
  write
    | some l => (number 4).write 0 ++ (Path.wire.pair Path.wire).write (l.file, l.root)
    | none => (number 4).write 1
  read bs := do
    match ← (number 4).read bs with
    | (0, bs) =>
      let ((file, root), bs) ← (Path.wire.pair Path.wire).read bs
      return (some ⟨file, root⟩, bs)
    | (1, bs) => return (none, bs)
    | _ => none

/-- A resolved include. -/
def ResolvedInclude.wire : Wire ResolvedInclude :=
  (Include.wire.pair (text.pair Location.wire)).convert
    (fun r => (r.directive, r.candidate, r.location))
    fun (directive, candidate, location) => some ⟨directive, candidate, location⟩

/-- A snapshot. -/
def Snapshot.wire : Wire Snapshot :=
  (Path.wire.pair (Wire.digest.pair (Directives.wire.pair ResolvedInclude.wire.list))).convert
    (fun s => (s.path, s.digest, s.directives, s.resolved))
    fun (path, digest, directives, resolved) => some ⟨path, digest, directives, resolved⟩

namespace TaskState

/-- A state.  Sources and files are put in order when they are read: of equal sources and of equal
keys the first stays, and of the files under equal keys the last. -/
def wire : Wire TaskState :=
  (Path.wire.list.pair ((Path.wire.pair Snapshot.wire).list.pair digest.option)).convert
    (fun s => (s.sources.toList, s.files.toList, s.settings))
    fun (sources, files, settings) =>
      some ⟨OrderedSet.insertAll ∅ sources, OrderedMap.ofList files, settings⟩

/-! ## The header -/

/-- The four bytes by which a state file is known. -/
def magic : Bytes := [67, 68, 69, 80]

/-- The number of the format. -/
def formatVersion : Nat := 1

/-- What stands before a payload. -/
structure Header where
  /-- The bytes by which the file is known. -/
  magic : { bs : Bytes // bs.length = 4 }
  /-- The number of the format. -/
  format : Nat
  /-- The version of the tool that wrote the file. -/
  tool : String
  /-- The digest of the payload. -/
  checksum : Digest

/-- A header. -/
def Header.wire : Wire Header :=
  ((raw 4).pair ((number 4).pair (text.pair digest))).convert
    (fun h => (h.magic, h.format, h.tool, h.checksum))
    fun (magic, format, tool, checksum) => some ⟨magic, format, tool, checksum⟩

/-- What is wrong with a header. -/
inductive HeaderFault where
  /-- There are not four bytes for its length. -/
  | noLength
  /-- There are fewer bytes than its length. -/
  | truncated
  /-- Its bytes are no header. -/
  | unreadable
  /-- It belongs to something else than a state file. -/
  | badMagic
deriving DecidableEq

/-- How a fault is told; a header that cannot be read is left to the reader of the bytes. -/
def HeaderFault.reason? : HeaderFault → Option String
  | noLength => some "missing header length"
  | truncated => some "truncated header"
  | unreadable => none
  | badMagic => some "bad magic bytes"

/-- Why the content of a file is not taken for a state. -/
inductive DecodeError where
  /-- The header is at fault. -/
  | header (fault : HeaderFault)
  /-- The file belongs to another format or to another version of the tool. -/
  | version (expected actual : String)
  /-- The payload is not the one that was written. -/
  | checksum (expected actual : Digest)
  /-- The payload is no state. -/
  | payload
deriving DecidableEq

/-- How an error is told, where that is up to this library. -/
def DecodeError.message? : DecodeError → Option String
  | header fault => fault.reason?.map ("invalid state header: " ++ ·)
  | version expected actual =>
    some ("state version mismatch: expected " ++ expected ++ ", got " ++ actual)
  | checksum expected actual =>
    some ("state checksum mismatch: expected " ++ expected.hex ++ ", got " ++ actual.hex)
  | payload => none

/-! ## Whole files -/

/-- The header of the file of a state. -/
def heading (s : TaskState) (tool : String) : Header :=
  ⟨⟨magic, rfl⟩, formatVersion, tool, Digest.ofBytes (wire.write s)⟩

/-- The bytes of the file of a state, written by the given version of the tool.  Of a length that
does not fit into four bytes only a part is told; `fileContent` does not let it come to that. -/
def encode (tool : String) (s : TaskState) : Bytes :=
  let payload := wire.write s
  let header := Header.wire.write ⟨⟨magic, rfl⟩, formatVersion, tool, Digest.ofBytes payload⟩
  Bytes.ofNat 4 header.length ++ header ++ payload

/-- Why a state cannot be put into a file. -/
inductive EncodeError where
  /-- The header is too long for its length to be told. -/
  | headerTooLarge
deriving DecidableEq

/-- How the failure is told. -/
def EncodeError.message : EncodeError → String
  | headerTooLarge => "invalid state header: header too large"

/-- The content of the file of a state.  The header is as long as the version of the tool makes it,
so there is none for a version of four gigabytes. -/
def fileContent (tool : String) (s : TaskState) : Except EncodeError Bytes :=
  if (Header.wire.write (s.heading tool)).length < UInt32.size then .ok (s.encode tool)
  else .error .headerTooLarge

/-- How the number of a format is told. -/
def formatName (n : Nat) : String := "format " ++ n.repr

/-- The state that the content of a file stands for, read by the given version of the tool.  Bytes
after a header or a state within its part of the file are passed over. -/
def decode (tool : String) (content : Bytes) : Except DecodeError TaskState := do
  let some (length, content) := Bytes.takeNat? 4 content | throw (.header .noLength)
  if content.length < length then throw (.header .truncated)
  let some (header, _) := Header.wire.read (content.take length) | throw (.header .unreadable)
  -- from the outside inwards: what belongs to another tool is told as that, not as damage
  if header.magic.1 ≠ magic then throw (.header .badMagic)
  if header.format ≠ formatVersion then
    throw (.version (formatName formatVersion) (formatName header.format))
  if header.tool ≠ tool then throw (.version tool header.tool)
  -- nothing of the payload is read before its digest was compared
  let payload := content.drop length
  let actual := Digest.ofBytes payload
  if actual ≠ header.checksum then throw (.checksum header.checksum actual)
  let some (state, _) := wire.read payload | throw .payload
  return state

end TaskState

end IncludeDeps

import IncludeDeps.Proofs.Ordered
import IncludeDeps.Proofs.Wire
import IncludeDeps.TaskState.Encoding

/-!
# Encoded states can be read back

The format of a state is lawful, because those of its parts are (`TaskState.isLawful_wire`): it
takes every state whose lists and texts have sizes that a count can tell (`TaskState.IsCountable`).
Such a state is read back by the version of the tool that has written it, if the header is not too
long for its four bytes (`TaskState.decode_encode`).  A file whose payload can be counted as a whole
is enough (`TaskState.decode_of_fits`).  `TaskState.decode_preamble_append` says what is made of any
payload after the header of a state.
-/

namespace IncludeDeps

open Wire

/-! ## The payload -/

/-- The bytes of the path can be counted. -/
def Path.IsCountable (p : Path) : Prop := p.byteSize < 2 ^ 64

lemma Path.isLawful_wire : Path.wire.IsLawful IsCountable :=
  isLawful_text.convert (fun _ => rfl) fun _ => Iff.rfl

lemma IncludeKind.isLawful_wire : IncludeKind.wire.IsLawful fun _ => True := by
  apply isLawful_convert_number
  · intro k
    cases k with
    | quoted => decide
    | system => decide
    | computed => decide
  · intro k
    cases k with
    | quoted => rfl
    | system => rfl
    | computed => rfl

lemma isLawful_lineWire : lineWire.IsLawful fun _ => True :=
  isLawful_convert_number (fun n => n.toNat_lt) fun n => by rw [UInt32.ofNat_toNat]

/-- The target can be counted. -/
def Include.IsCountable (i : Include) : Prop := i.target.utf8ByteSize < 2 ^ 64

lemma Include.isLawful_wire : Include.wire.IsLawful IsCountable :=
  (IncludeKind.isLawful_wire.pair
    (isLawful_text.pair (isLawful_flag.pair isLawful_lineWire.option))).convert (fun _ => rfl)
    fun _ => ⟨fun h => ⟨trivial, h, trivial, fun _ _ => trivial⟩, fun h => h.2.1⟩

/-- Name and value can be counted. -/
structure MacroDefinition.IsCountable (d : MacroDefinition) : Prop where
  name : d.name.utf8ByteSize < 2 ^ 64
  value : d.value.utf8ByteSize < 2 ^ 64

lemma MacroDefinition.isLawful_wire : MacroDefinition.wire.IsLawful IsCountable :=
  (isLawful_text.pair isLawful_text).convert (fun _ => rfl)
    fun _ => ⟨fun h => ⟨h.name, h.value⟩, fun h => ⟨h.1, h.2⟩⟩

/-- The directives can be counted. -/
structure Directives.IsCountable (d : Directives) : Prop where
  includes : Each Include.IsCountable d.includes
  macros : Each MacroDefinition.IsCountable d.macros

lemma Directives.isLawful_wire : Directives.wire.IsLawful IsCountable :=
  (Include.isLawful_wire.list.pair MacroDefinition.isLawful_wire.list).convert (fun _ => rfl)
    fun _ => ⟨fun h => ⟨h.includes, h.macros⟩, fun h => ⟨h.1, h.2⟩⟩

/-- Both paths can be counted. -/
structure Location.IsCountable (l : Location) : Prop where
  file : l.file.IsCountable
  root : l.root.IsCountable

lemma Location.isLawful_wire : Location.wire.IsLawful fun l => ∀ m ∈ l, m.IsCountable where
  ne_nil l := by
    cases l with
    | none => exact writeNumber_ne_nil 1
    | some l => exact List.append_ne_nil_of_left_ne_nil (writeNumber_ne_nil 0) _
  holds l hlength m hm := by
    rw [Option.mem_def.1 hm] at hlength
    simp only [wire, List.length_append] at hlength
    obtain ⟨hfile, hroot⟩ := (Path.isLawful_wire.pair Path.isLawful_wire).holds (m.file, m.root)
      (by omega)
    exact ⟨hfile, hroot⟩
  read_write l rest h := by
    cases l with
    | none => rfl
    | some l =>
      have hl := h l rfl
      simp only [wire]
      rw [List.append_assoc, read_number (.inl rfl) (by decide)]
      simp only [bind, Option.bind]
      rw [(Path.isLawful_wire.pair Path.isLawful_wire).read_write _ _ ⟨hl.file, hl.root⟩]
      rfl

/-- All parts can be counted. -/
structure ResolvedInclude.IsCountable (r : ResolvedInclude) : Prop where
  directive : r.directive.IsCountable
  candidate : r.candidate.utf8ByteSize < 2 ^ 64
  location : ∀ l ∈ r.location, l.IsCountable

lemma ResolvedInclude.isLawful_wire : ResolvedInclude.wire.IsLawful IsCountable :=
  (Include.isLawful_wire.pair (isLawful_text.pair Location.isLawful_wire)).convert (fun _ => rfl)
    fun _ => ⟨fun h => ⟨h.directive, h.candidate, h.location⟩, fun h => ⟨h.1, h.2.1, h.2.2⟩⟩

/-- All parts can be counted. -/
structure Snapshot.IsCountable (f : Snapshot) : Prop where
  path : f.path.IsCountable
  directives : f.directives.IsCountable
  resolved : Each ResolvedInclude.IsCountable f.resolved

lemma Snapshot.isLawful_wire : Snapshot.wire.IsLawful IsCountable :=
  (Path.isLawful_wire.pair (isLawful_digest.pair
    (Directives.isLawful_wire.pair ResolvedInclude.isLawful_wire.list))).convert (fun _ => rfl)
    fun _ => ⟨fun h => ⟨h.path, trivial, h.directives, h.resolved⟩,
      fun h => ⟨h.1, h.2.2.1, h.2.2.2⟩⟩

namespace TaskState

variable {s : TaskState} {tool tool' : String}

/-- Every list and every text of a state has a size below two to the power of 64. -/
structure IsCountable (s : TaskState) : Prop where
  sources : Each Path.IsCountable s.sources.toList
  files : Each (fun e => e.1.IsCountable ∧ e.2.IsCountable) s.files.toList

theorem isLawful_wire : wire.IsLawful IsCountable := by
  refine (Path.isLawful_wire.list.pair ((Path.isLawful_wire.pair
    Snapshot.isLawful_wire).list.pair isLawful_digest.option)).convert ?_ ?_
  · intro s
    simp only [OrderedSet.insertAll_toList, OrderedMap.ofList_toList]
  · exact fun s => ⟨fun h => ⟨h.sources, h.files, fun _ _ => trivial⟩, fun h => ⟨h.1, h.2.1⟩⟩

/-! ## Whole files -/

/-- The header and the payload of a state are not too long to be counted. -/
structure Fits (s : TaskState) (tool : String) : Prop where
  header : (Header.wire.write (s.heading tool)).length < 2 ^ 32
  payload : (wire.write s).length < 2 ^ 64

instance : Decidable (s.Fits tool) :=
  decidable_of_iff ((Header.wire.write (s.heading tool)).length < 2 ^ 32 ∧
    (wire.write s).length < 2 ^ 64) ⟨fun h => ⟨h.1, h.2⟩, fun h => ⟨h.1, h.2⟩⟩

lemma Header.read_write {h : Header} (rest : Bytes) (hformat : h.format < 2 ^ 32)
    (htool : h.tool.utf8ByteSize < 2 ^ 64) :
    Header.wire.read (Header.wire.write h ++ rest) = some (h, rest) := by
  simp only [wire, Wire.convert, Wire.pair]
  rw [List.append_assoc, (isLawful_raw (by omega)).read_write _ _ trivial]
  simp only [bind, Option.bind]
  rw [List.append_assoc, read_number (.inl rfl) hformat]
  simp only
  rw [List.append_assoc, isLawful_text.read_write _ _ htool]
  simp only
  rw [isLawful_digest.read_write _ _ trivial]
  rfl

lemma Header.isSteady_wire : Header.wire.IsSteady :=
  ((isSteady_raw 4).pair ((isSteady_number 4).pair (isSteady_text.pair isSteady_digest))).convert

lemma read_heading (s : TaskState) (htool : tool.utf8ByteSize < 2 ^ 64) :
    Header.wire.read (Header.wire.write (s.heading tool)) = some (s.heading tool, []) := by
  have hformat : (s.heading tool).format < 2 ^ 32 := show 1 < 2 ^ 32 by decide
  simpa using Header.read_write (h := s.heading tool) [] hformat htool

lemma tool_of_length (h : (Header.wire.write (s.heading tool)).length < 2 ^ 32) :
    tool.utf8ByteSize < 2 ^ 64 := by
  simp only [Header.wire, Wire.convert, Wire.pair, List.length_append] at h
  have htext : (text.write (s.heading tool).tool).length < 2 ^ 64 := by omega
  exact isLawful_text.holds tool htext

/-- What stands before the payload of a state: the length of the header, and the header. -/
def preamble (s : TaskState) (tool : String) : Bytes :=
  Bytes.ofNat 4 (Header.wire.write (s.heading tool)).length ++ Header.wire.write (s.heading tool)

lemma encode_eq_preamble (s : TaskState) (tool : String) :
    s.encode tool = s.preamble tool ++ wire.write s :=
  rfl

lemma length_preamble :
    (s.preamble tool).length = 4 + (Header.wire.write (s.heading tool)).length := by
  rw [preamble, List.length_append, Digest.length_bytes_ofNat]

/-- After the header of a state, the version, the digest and the payload are looked at in turn.  The
payload may be any bytes: this is where the file of a state and what has become of it part. -/
theorem decode_preamble_append (hheader : (Header.wire.write (s.heading tool)).length < 2 ^ 32)
    (payload : Bytes) :
    decode tool' (s.preamble tool ++ payload) =
      if tool ≠ tool' then .error (.version tool' tool)
      else if Digest.ofBytes payload ≠ Digest.ofBytes (wire.write s) then
        .error (.checksum (Digest.ofBytes (wire.write s)) (Digest.ofBytes payload))
      else match wire.read payload with
        | some (state, _) => .ok state
        | none => .error .payload := by
  -- the header is found by the length in front of it, and it tells how long the payload is
  have hread := s.read_heading (tool_of_length hheader)
  rw [preamble, List.append_assoc, decode, Bytes.takeNat?_ofNat hheader]
  simp only [List.length_append, List.take_left, List.drop_left, hread]
  rw [if_neg (by omega), if_neg (by simp [heading]), if_neg (by simp [heading])]
  show (if tool ≠ tool' then _ else _) = _
  by_cases htool : tool = tool'
  · -- the payload is compared before it is read, so that a reading of other bytes is never relied on
    rw [if_neg (not_not.2 htool), if_neg (not_not.2 htool)]
    show (if Digest.ofBytes payload ≠ Digest.ofBytes (wire.write s) then _ else _) = _
    split
    · rfl
    · cases wire.read payload with
      | none => rfl
      | some found => rfl
  · rw [if_pos htool, if_pos htool]
    rfl

lemma decode_of_ne (hheader : (Header.wire.write (s.heading tool)).length < 2 ^ 32)
    (htool : tool ≠ tool') : decode tool' (s.encode tool) = .error (.version tool' tool) := by
  rw [encode_eq_preamble, decode_preamble_append hheader, if_pos htool]

/-- Around a payload that can be read, the version that has written a file finds what it expects. -/
lemma decode_of_read (hheader : (Header.wire.write (s.heading tool)).length < 2 ^ 32)
    (hpayload : wire.read (wire.write s) = some (s, [])) :
    decode tool (s.encode tool) = .ok s := by
  rw [encode_eq_preamble, decode_preamble_append hheader, if_neg (not_not.2 rfl),
    if_neg (not_not.2 rfl), hpayload]

lemma read_write_nil (h : s.IsCountable) : wire.read (wire.write s) = some (s, []) := by
  simpa using isLawful_wire.read_write s [] h

/-- A state is read back by the version that has written it, if it fits: the length of its header
can be told in four bytes, and that of its payload in eight. -/
theorem decode_of_fits (h : s.Fits tool) : decode tool (s.encode tool) = .ok s :=
  decode_of_read h.header (read_write_nil (isLawful_wire.holds s h.payload))

/-- There is a content for the file of a state just if the length of the header fits the four bytes
that it is written in, and then it is what the parts come to. -/
lemma fileContent_eq_ok_iff {content : Bytes} : s.fileContent tool = .ok content ↔
    (Header.wire.write (s.heading tool)).length < 2 ^ 32 ∧ content = s.encode tool := by
  unfold fileContent
  split
  · next hheader =>
    rw [Except.ok.injEq, eq_comm]
    exact ⟨fun heq => ⟨hheader, heq⟩, fun h => h.2⟩
  · next hlong =>
    constructor
    · intro h
      cases h
    · exact fun h => absurd h.1 hlong

/-- Every state is read back by the version that has written it, with all its texts, unless the
header is too long for its length; in that case alone the writing fails, and there is no content to
be read.  The state may hold any paths and texts that can be counted at all: its files need not be
known under their own names, nor its sources be among them, nor its paths be canonical. -/
theorem decode_encode (hheader : (Header.wire.write (s.heading tool)).length < 2 ^ 32)
    (h : s.IsCountable) :
    s.fileContent tool = .ok (s.encode tool) ∧ decode tool (s.encode tool) = .ok s := by
  constructor
  · exact fileContent_eq_ok_iff.2 ⟨hheader, rfl⟩
  · exact decode_of_read hheader (read_write_nil h)

/-- A state with a file under another name than its own, includes of all kinds, the last line number,
a text that is too long for a count of one byte, and paths that are not canonical. -/
def assorted : TaskState where
  sources := .ofList [⟨"/src/größe.c"⟩, ⟨"src//./a.c"⟩]
  files := .ofList [(⟨"/link.h"⟩, {
    path := ⟨"/src/日本.h"⟩
    digest := .ofText "日本"
    directives := {
      includes := [⟨.quoted, "a.h", true, some 0xFFFFFFFF⟩, ⟨.system, "sub/ä.h", false, some 0xFB⟩,
        ⟨.computed, "HEADER", false, none⟩]
      macros := [⟨"HEADER", String.ofList (List.replicate 300 'x')⟩, ⟨"EMPTY", ""⟩] }
    resolved := [
      ⟨⟨.system, "sub/ä.h", false, some 0xFB⟩, "sub/ä.h", some ⟨⟨"inc/sub/ä.h"⟩, ⟨"inc"⟩⟩⟩,
      ⟨⟨.computed, "HEADER", false, none⟩, "", none⟩] })]
  settings := some (.ofText "")

theorem decode_encode_assorted :
    (Header.wire.write (assorted.heading "0.1.0")).length < 2 ^ 32 ∧ assorted.IsCountable ∧
      assorted.fileContent "0.1.0" = .ok (assorted.encode "0.1.0") ∧
      decode "0.1.0" (assorted.encode "0.1.0") = .ok assorted := by
  have hheader : (Header.wire.write (assorted.heading "0.1.0")).length < 2 ^ 32 := by
    decide +kernel
  have hcountable : assorted.IsCountable := by
    apply isLawful_wire.holds
    decide +kernel
  exact ⟨hheader, hcountable, decode_encode hheader hcountable⟩

end TaskState

end IncludeDeps

import IncludeDeps.Proofs.TaskState.Encoding
import IncludeDeps.TaskState.Store

/-!
# Damaged state files

What has become of the file of a state is not taken for a state: if its end is cut off, if something
is appended, or if it has another payload, then one of the checks finds it out.  The header is to blame
(`TaskState.headerFault?`), or else the digest is another one; so a digest has to tell the payloads
apart, but for a cut within the header nothing is assumed.

The length of a header is written in four bytes.  If it does not fit, then what is taken for the header
is a part of it, and no header can be read from a part of another one (`Wire.IsSteady.read_eq_none`).

* `TaskState.decode_of_headerFault?` is about files that are rejected because of their header;
* `TaskState.isRejected_of_isDamaged` is about all of them, and adds that a file is not taken by
  another version of the tool.
-/

namespace IncludeDeps.TaskState

open Wire

variable {s : TaskState} {tool tool' : String} {content payload rest : Bytes} {fault : HeaderFault}

/-! ## Headers that are at fault -/

/-- How long the header of a state is. -/
def headerLength (s : TaskState) (tool : String) : Nat := (Header.wire.write (s.heading tool)).length

/-- What is wrong with the header of a file that begins like that of a state, if anything is. -/
def headerFault? (s : TaskState) (tool : String) (content : Bytes) : Option HeaderFault :=
  if content.length < 4 then some .noLength
  else if content.length - 4 < s.headerLength tool % 2 ^ 32 then some .truncated
  else if 2 ^ 32 ≤ s.headerLength tool then some .unreadable
  else none

lemma lengths_of_headerFault? (h : s.headerFault? tool content = none) :
    s.headerLength tool < 2 ^ 32 ∧ (s.preamble tool).length ≤ content.length := by
  have hpreamble : (s.preamble tool).length = 4 + s.headerLength tool := length_preamble
  unfold headerFault? at h
  split at h
  · cases h
  split at h
  · cases h
  split at h
  · cases h
  · have hmod := Nat.mod_eq_of_lt (show s.headerLength tool < 2 ^ 32 by omega)
    omega

/-- After the length there is a part of the header, or the header and what follows it. -/
lemma exists_eq_append (h : content <+: s.preamble tool ++ payload) (hfour : 4 ≤ content.length) :
    ∃ rest, content = Bytes.ofNat 4 (s.headerLength tool) ++ rest ∧
      rest <+: Header.wire.write (s.heading tool) ++ payload := by
  rw [preamble, List.append_assoc] at h
  have hlength := Digest.length_bytes_ofNat 4 (Header.wire.write (s.heading tool)).length
  have hle := Nat.le_trans (Nat.le_of_eq hlength) hfour
  obtain ⟨rest, rfl⟩ := List.prefix_of_prefix_length_le (List.prefix_append _ _) h hle
  exact ⟨rest, rfl, (List.prefix_append_right_inj _).1 h⟩

/-- A header that is too long for its length cannot be read. -/
lemma read_take_eq_none (htool : tool.utf8ByteSize < 2 ^ 64) (hlong : 2 ^ 32 ≤ s.headerLength tool)
    (hrest : rest <+: Header.wire.write (s.heading tool) ++ payload)
    (henough : s.headerLength tool % 2 ^ 32 ≤ rest.length) :
    Header.wire.read (rest.take (s.headerLength tool % 2 ^ 32)) = none := by
  have hless : s.headerLength tool % 2 ^ 32 < s.headerLength tool :=
    Nat.lt_of_lt_of_le (Nat.mod_lt _ (by decide)) hlong
  obtain ⟨more, hmore⟩ := hrest
  -- the length that was written is the remainder, and that many bytes are a strict part of the
  -- header
  have htake : rest.take (s.headerLength tool % 2 ^ 32) =
      (Header.wire.write (s.heading tool)).take (s.headerLength tool % 2 ^ 32) := by
    have hfront := congrArg (List.take (s.headerLength tool % 2 ^ 32)) hmore
    rwa [List.take_append_of_le_length henough,
      List.take_append_of_le_length (Nat.le_of_lt hless)] at hfront
  have hread := s.read_heading htool
  rw [← List.take_append_drop (s.headerLength tool % 2 ^ 32)
    (Header.wire.write (s.heading tool))] at hread
  rw [htake]
  refine Header.isSteady_wire.read_eq_none hread fun hnil => ?_
  have hle := List.drop_eq_nil_iff.1 hnil
  exact absurd hless (Nat.not_lt.2 hle)

/-- A file that begins like that of a state is rejected if its header is at fault, before anything
of its payload is looked at.  So the fault does not depend on what comes after the header, nor on
the version that reads it. -/
theorem decode_of_headerFault? (htool : tool.utf8ByteSize < 2 ^ 64)
    (hcontent : content <+: s.preamble tool ++ payload)
    (h : s.headerFault? tool content = some fault) :
    decode tool' content = .error (.header fault) := by
  unfold headerFault? at h
  split at h
  · next hshort =>
    cases h
    rw [decode, Bytes.takeNat?, if_pos hshort]
    rfl
  next hfour =>
  obtain ⟨rest, rfl, hrest⟩ := exists_eq_append hcontent (Nat.le_of_not_lt hfour)
  have hlength : Bytes.takeNat? 4 (Bytes.ofNat 4 (s.headerLength tool) ++ rest) =
      some (s.headerLength tool % 2 ^ 32, rest) :=
    Bytes.takeNat?_ofNat_mod 4 _ rest
  rw [decode, hlength]
  rw [List.length_append, Digest.length_bytes_ofNat, Nat.add_sub_cancel_left] at h
  simp only
  split at h
  · next htruncated =>
    cases h
    rw [if_pos htruncated]
    rfl
  next henough =>
  rw [if_neg henough]
  split at h
  · next hlong =>
    cases h
    have hread := read_take_eq_none htool hlong hrest (Nat.le_of_not_lt henough)
    rw [hread]
    rfl
  · cases h

/-! ## Damaged files -/

/-- What may have become of the file of a state, if it is not that file any more.  A header that is
changed is not among these, unless the change is that it is cut off. -/
inductive IsDamaged (s : TaskState) (tool : String) : Bytes → Prop
  /-- The end is cut off. -/
  | cut {content : Bytes} (hcut : content <+: s.encode tool) (hne : content ≠ s.encode tool) :
    IsDamaged s tool content
  /-- Something is appended. -/
  | extended {more : Bytes} (hne : more ≠ []) : IsDamaged s tool (s.encode tool ++ more)
  /-- There is another payload. -/
  | replaced {payload : Bytes} (hne : payload ≠ wire.write s) :
    IsDamaged s tool (s.preamble tool ++ payload)

/-- Why a file that begins like that of a state is rejected: because of its header, or for the given
reason. -/
def flaw (s : TaskState) (tool : String) (content : Bytes) (e : DecodeError) : DecodeError :=
  ((s.headerFault? tool content).map .header).getD e

/-- The digest of what stands in the place of the payload is another one. -/
def digestFault (s : TaskState) (tool : String) (content : Bytes) : DecodeError :=
  .checksum (Digest.ofBytes (wire.write s))
    (Digest.ofBytes (content.drop (s.preamble tool).length))

lemma flaw_of_none {e : DecodeError} (h : s.headerFault? tool content = none) :
    s.flaw tool content e = e := by
  rw [flaw, h]
  rfl

/-- A content that is no state to this version of the tool, for the given reason: a store in whose
file it stands loads the empty state. -/
structure IsRejected (tool : String) (content : Bytes) (e : DecodeError) : Prop where
  decode : decode tool content = .error e
  load : ∀ (directory : Path) (w : Workspace) (key : String),
    w.read (StateStore.path ⟨directory, tool⟩ key) = .ok content →
      StateStore.load ⟨directory, tool⟩ w key = ∅

lemma isRejected_of_decode {e : DecodeError} (h : decode tool content = .error e) :
    IsRejected tool content e := by
  refine ⟨h, fun directory w key hread => ?_⟩
  unfold StateStore.load
  rw [hread]
  show (TaskState.decode tool content).toOption.getD ∅ = ∅
  rw [h]
  rfl

/-- A damaged file begins like the file that it was. -/
lemma IsDamaged.exists_prefix (h : s.IsDamaged tool content) :
    ∃ payload, content <+: s.preamble tool ++ payload := by
  cases h with
  | cut hcut hne => exact ⟨wire.write s, hcut⟩
  | @extended more hne =>
    have heq : s.encode tool ++ more = s.preamble tool ++ (wire.write s ++ more) := by
      rw [encode_eq_preamble, List.append_assoc]
    exact ⟨wire.write s ++ more, heq ▸ List.prefix_refl _⟩
  | @replaced payload hne => exact ⟨payload, List.prefix_refl _⟩

/-- Whatever has become of the file of a state, it is rejected, and so is the file itself by every
other version of the tool.  Damage is to be cut off anywhere, to go on after the end, or to have
another payload behind the whole header; each is told as what it is.  Apart from a version that can
be counted, all that is asked is that what stands in the place of the payload does not have the
digest of the state. -/
theorem isRejected_of_isDamaged (htool : tool.utf8ByteSize < 2 ^ 64) :
    (∀ content, s.IsDamaged tool content →
      ((s.preamble tool).length ≤ content.length →
        Digest.ofBytes (content.drop (s.preamble tool).length) ≠ Digest.ofBytes (wire.write s)) →
      IsRejected tool content (s.flaw tool content (s.digestFault tool content))) ∧
    ∀ tool', tool' ≠ tool →
      IsRejected tool' (s.encode tool) (s.flaw tool (s.encode tool) (.version tool' tool)) := by
  constructor
  · intro content hdamaged hdigest
    apply isRejected_of_decode
    obtain ⟨payload, hcontent⟩ := hdamaged.exists_prefix
    rw [flaw]
    cases hfault : s.headerFault? tool content with
    | some fault => exact decode_of_headerFault? htool hcontent hfault
    | none =>
      -- the header is whole, so something else stands in the place of the payload
      obtain ⟨hheader, hlong⟩ := lengths_of_headerFault? hfault
      have hpayload := hdigest hlong
      obtain ⟨payload', rfl⟩ :=
        List.prefix_of_prefix_length_le (List.prefix_append _ _) hcontent hlong
      rw [List.drop_left] at hpayload
      rw [decode_preamble_append hheader, if_neg (not_not.2 rfl), if_pos hpayload, digestFault,
        List.drop_left]
      rfl
  · intro tool' hother
    apply isRejected_of_decode
    rw [flaw]
    cases hfault : s.headerFault? tool (s.encode tool) with
    | some fault => exact decode_of_headerFault? htool (List.prefix_refl _) hfault
    | none => exact decode_of_ne (lengths_of_headerFault? hfault).1 hother.symm

/-- The last byte of a file is lost, or one is appended, or the header stands before the payload of
another state; and the whole file is read by a later version. -/
theorem isRejected_assorted :
    let file := assorted.encode "0.1.0"
    let swapped := assorted.preamble "0.1.0" ++ wire.write ∅
    "0.1.0".utf8ByteSize < 2 ^ 64 ∧
      IsRejected "0.1.0" file.dropLast (assorted.digestFault "0.1.0" file.dropLast) ∧
      IsRejected "0.1.0" (file ++ [0]) (assorted.digestFault "0.1.0" (file ++ [0])) ∧
      IsRejected "0.1.0" swapped (assorted.digestFault "0.1.0" swapped) ∧
      IsRejected "0.2.0" file (.version "0.2.0" "0.1.0") := by
  intro file swapped
  have htool : "0.1.0".utf8ByteSize < 2 ^ 64 := by decide
  have hheaders : assorted.headerFault? "0.1.0" file.dropLast = none ∧
      assorted.headerFault? "0.1.0" (file ++ [0]) = none ∧
      assorted.headerFault? "0.1.0" swapped = none ∧
      assorted.headerFault? "0.1.0" file = none := by
    decide +kernel
  obtain ⟨hcut, hextended, hswapped, hwhole⟩ := hheaders
  obtain ⟨hdamaged, hversion⟩ := isRejected_of_isDamaged (s := assorted) htool
  have hfirst := hdamaged _ (.cut (List.dropLast_prefix file) (by decide +kernel))
    fun _ => by decide +kernel
  have hsecond := hdamaged (file ++ [0]) (.extended (by decide)) fun _ => by decide +kernel
  have hthird := hdamaged swapped (.replaced (by decide +kernel)) fun _ => by decide +kernel
  have hfourth := hversion "0.2.0" (by decide)
  rw [flaw_of_none hcut] at hfirst
  rw [flaw_of_none hextended] at hsecond
  rw [flaw_of_none hswapped] at hthird
  rw [flaw_of_none hwhole] at hfourth
  exact ⟨htool, hfirst, hsecond, hthird, hfourth⟩

end IncludeDeps.TaskState

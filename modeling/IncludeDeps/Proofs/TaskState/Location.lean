import IncludeDeps.Proofs.Workspace.Following
import IncludeDeps.TaskState.Store

/-!
# The files of states

A store keeps every state in a file of its own folder, and writes it to a scratch file first.  The names
of these files can stand at the end of a path, keys with different digests have different files, and the
scratch file of one key is not the file of another one: `StateStore.path_eq`, `StateStore.scratch_eq`,
`StateStore.fileName_ne`, `StateStore.fileName_ne_scratchName`.

So two keys interfere only if their digests are the same, and whoever speaks of different keys has to say
that their digests are different.  The name of a scratch file has the number of the process in it, which
does not change while a workspace is worked on (`StateStore.scratchName_congr`).
-/

namespace IncludeDeps

namespace StateStore

open Workspace

variable {s : StateStore} {key : String}

/-! ## Names -/

/-- The name of the file of a key. -/
def fileName (key : String) : String := (Digest.ofText key).hex ++ ".state"

/-- The name of the file to which a state is written first. -/
def scratchName (w : Workspace) (key : String) : String :=
  fileName key ++ (".tmp." ++ w.processId.repr)

lemma slash_hexDigit {n : Nat} (h : n < 16) : Text.hexDigit n ≠ '/' := by
  have all : ∀ m : Fin 16, Text.hexDigit m.1 ≠ '/' := by decide
  exact all ⟨n, h⟩

lemma slash_hex (bs : Bytes) : '/' ∉ (Bytes.hex bs).toList := by
  rw [Bytes.hex, String.toList_ofList]
  intro h
  obtain ⟨b, -, hb⟩ := List.mem_flatMap.1 h
  have hbyte := b.toNat_lt
  rcases List.mem_cons.1 hb with heq | hb
  · exact slash_hexDigit (by omega) heq.symm
  · exact slash_hexDigit (Nat.mod_lt _ (by omega)) (List.mem_singleton.1 hb).symm

lemma isFileName_fileName (key : String) : IsFileName (fileName key) where
  isName := isName_append (by decide)
  slash := by
    rw [fileName, String.toList_append, List.mem_append, not_or]
    exact ⟨slash_hex _, by decide⟩

lemma isFileName_scratchName (w : Workspace) (key : String) : IsFileName (scratchName w key) where
  isName := isName_scratch _ _
  slash := by
    rw [scratchName, String.toList_append, List.mem_append, not_or]
    exact ⟨(isFileName_fileName key).slash, slash_scratch _⟩

lemma length_fileName (key : String) : (fileName key).toList.length = 38 := by
  have hpairs : ∀ bs : Bytes, (Bytes.hex bs).toList.length = 2 * bs.length := by
    intro bs
    rw [Bytes.hex, String.toList_ofList]
    induction bs with
    | nil => rfl
    | cons b rest ih =>
      rw [List.flatMap_cons, List.length_append, ih]
      simp only [List.length_cons, List.length_nil]
      omega
  rw [fileName, String.toList_append, List.length_append, Digest.hex, hpairs,
    (Digest.ofText key).length_bytes]
  rfl

/-- The scratch file of one key is not the file of another one. -/
lemma fileName_ne_scratchName (w : Workspace) (key key' : String) :
    fileName key' ≠ scratchName w key := by
  intro h
  have hlength := congrArg (fun t : String => t.toList.length) h
  simp [scratchName, length_fileName] at hlength

lemma hexDigit_inj {n m : Nat} (hn : n < 16) (hm : m < 16)
    (h : Text.hexDigit n = Text.hexDigit m) : n = m := by
  have hvalue := Text.hexValue?_hexDigit hn
  rw [h, Text.hexValue?_hexDigit hm] at hvalue
  exact (Option.some.inj hvalue).symm

lemma hex_inj {bs bs' : Bytes} (h : Bytes.hex bs = Bytes.hex bs') : bs = bs' := by
  rw [Bytes.hex, Bytes.hex, String.ofList_inj] at h
  induction bs generalizing bs' with
  | nil =>
    cases bs' with
    | nil => rfl
    | cons b' rest' => cases h
  | cons b rest ih =>
    cases bs' with
    | nil => cases h
    | cons b' rest' =>
      have hb := b.toNat_lt
      have hb' := b'.toNat_lt
      simp only [List.flatMap_cons, List.cons_append, List.nil_append, List.cons.injEq] at h
      obtain ⟨hhigh, hlow, hrest⟩ := h
      have hdiv := hexDigit_inj (by omega) (by omega) hhigh
      have hmod := hexDigit_inj (Nat.mod_lt _ (by omega)) (Nat.mod_lt _ (by omega)) hlow
      have heq : b = b' := UInt8.toNat_inj.1 (by omega)
      rw [heq, ih hrest]

lemma digest_eq_of_hex {d d' : Digest} (h : d.hex = d'.hex) : d = d' := by
  cases d
  cases d'
  rw [Digest.mk.injEq]
  exact hex_inj h

lemma fileName_ne {key key' : String} (h : Digest.ofText key' ≠ Digest.ofText key) :
    fileName key' ≠ fileName key := by
  intro hname
  have htexts := congrArg String.toList hname
  rw [fileName, fileName, String.toList_append, String.toList_append] at htexts
  exact h (digest_eq_of_hex (String.toList_inj.1 (List.append_cancel_right htexts)))

/-! ## Paths -/

lemma exists_folder_text (s : StateStore) : ∃ t, s.folder.text = t ++ "state" := by
  unfold folder Path.join
  rw [if_neg (by decide)]
  split
  · exact ⟨_, rfl⟩
  · exact ⟨s.directory.text ++ "/", rfl⟩

lemma folder_text_ne (s : StateStore) : s.folder.text ≠ "" := by
  obtain ⟨t, ht⟩ := exists_folder_text s
  rw [ht]
  intro h
  have hlength := congrArg (fun t : String => t.toList.length) h
  simp at hlength

lemma path_eq (s : StateStore) (key : String) : s.path key = inside s.folder (fileName key) := by
  obtain ⟨t, ht⟩ := exists_folder_text s
  have habsolute := Path.isAbsolute_of_slash (isFileName_fileName key).slash
  have hlast : s.folder.text.toList.getLast? ≠ some '/' := by
    rw [ht, String.toList_append]
    simp
  have hempty : s.folder.text.isEmpty = false := by
    simpa using folder_text_ne s
  show s.folder.join ⟨fileName key⟩ = _
  rw [Path.join, habsolute, hempty]
  simp [hlast, inside]

lemma scratch_eq (s : StateStore) (w : Workspace) (key : String) :
    s.scratch w key = inside s.folder (scratchName w key) := by
  rw [scratch, path_eq]
  simp [inside, scratchName, String.append_assoc]

lemma scratch_congr {w w' : Workspace} (h : w'.processId = w.processId) :
    s.scratch w key = s.scratch w' key := by
  rw [scratch, scratch, h]

lemma scratchName_congr {w w' : Workspace} (h : w'.processId = w.processId) :
    scratchName w' key = scratchName w key := by
  rw [scratchName, scratchName, h]

end StateStore

end IncludeDeps

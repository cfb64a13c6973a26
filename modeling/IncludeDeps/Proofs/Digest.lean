import IncludeDeps.Digest
import Mathlib.Tactic.Lemma

/-!
# Which texts stand for a digest

A digest is written as 32 lowercase hexadecimal digits.  It is read byte by byte, two bytes at a time, by
a reader of numbers that also takes capital letters and a plus sign in front of the digits.

* `Text.hexValue?_eq_some_iff` tells which characters are read as a digit;
* `Digest.plain` spells a text as it would be written, and `Digest.pairs?_eq_some_iff` says that a text is
  read as the bytes which this spelling writes;
* `Digest.ofHex?_eq_some_iff` tells which texts stand for a digest: among those without plus signs and
  capital letters the written one alone.

`Digest.exists_other_spelling` are texts that stand for a digest and are not written for any.
-/

namespace IncludeDeps

namespace Text

variable {c : Char} {n : Nat}

/-! ## Digits -/

lemma lt_of_hexValue? (h : hexValue? c = some n) : c.toNat < 128 := by
  have hle : ∀ {a b : Char}, a ≤ b → a.toNat ≤ b.toNat := fun h => h
  unfold hexValue? at h
  split at h
  · next hc => exact Nat.lt_of_le_of_lt (hle hc.2) (by decide)
  · split at h
    · next hc => exact Nat.lt_of_le_of_lt (hle hc.2) (by decide)
    · split at h
      · next hc => exact Nat.lt_of_le_of_lt (hle hc.2) (by decide)
      · cases h

lemma toNat_hexDigit_lt (hn : n < 16) : (hexDigit n).toNat < 128 := by
  have all : ∀ m : Fin 16, (hexDigit m.1).toNat < 128 := by decide
  exact all ⟨n, hn⟩

lemma toLower_eq_self (h : c.isUpper = false) : c.toLower = c := by
  unfold Char.isUpper at h
  exact dif_neg (of_decide_eq_false h)

lemma isUpper_of_le (h : 128 ≤ c.toNat) : c.isUpper = false := by
  refine decide_eq_false fun hupper => ?_
  have hle : c.toNat ≤ 90 := hupper.2
  omega

/-- A character is read as a digit if this is the digit in lowercase. -/
lemma hexValue?_eq_some_iff (hn : n < 16) : hexValue? c = some n ↔ c.toLower = hexDigit n := by
  by_cases hc : c.toNat < 128
  · have all : ∀ m : Fin 128, ∀ k : Fin 16, hexValue? (Char.ofNat m) = some k.1 ↔
        (Char.ofNat m).toLower = hexDigit k := by decide +kernel
    have hself := all ⟨c.toNat, hc⟩ ⟨n, hn⟩
    rwa [Char.ofNat_toNat] at hself
  · refine iff_of_false (fun h => hc (lt_of_hexValue? h)) fun h => hc ?_
    rw [← toLower_eq_self (isUpper_of_le (Nat.le_of_not_lt hc)), h]
    exact toNat_hexDigit_lt hn

lemma hexValue?_lt (h : hexValue? c = some n) : n < 16 := by
  have all : ∀ m : Fin 128, ∀ k ∈ hexValue? (Char.ofNat m), k < 16 := by decide
  have hself := all ⟨c.toNat, lt_of_hexValue? h⟩ n
  rw [Char.ofNat_toNat] at hself
  exact hself h

end Text

namespace Bytes

variable {c : Char} {b : UInt8}

/-! ## Characters in bytes -/

/-- What a character starts with in UTF-8: with itself if it is in ASCII, and otherwise with a byte that is
not. -/
lemma exists_utf8EncodeChar (c : Char) : ∃ b rest, String.utf8EncodeChar c = b :: rest ∧
    b.IsUTF8FirstByte ∧ (c.toNat < 128 → Char.ofUInt8 b = c ∧ rest = []) ∧ (128 ≤ c.toNat → 128 ≤ b.toNat) := by
  cases hc : String.utf8EncodeChar c with
  | nil => exact absurd hc String.utf8EncodeChar_ne_nil
  | cons b rest =>
    have hfirst := UInt8.isUTF8FirstByte_getElem_zero_utf8EncodeChar (c := c)
    simp only [hc, List.getElem_cons_zero] at hfirst
    refine ⟨b, rest, rfl, hfirst, fun hascii => ?_, fun hhigh => ?_⟩
    · -- in ASCII the only byte is the number of the character
      have hone : c.toNat ≤ 127 := by omega
      rw [String.utf8EncodeChar] at hc
      simp only [Char.toNat] at hone
      simp only [hone, if_true, List.cons.injEq] at hc
      refine ⟨Char.toNat_inj.1 ?_, hc.2.symm⟩
      change b.toUInt32.toNat = c.toNat
      rw [← hc.1, UInt8.toNat_toUInt32, UInt8.toNat_ofNat']
      exact Nat.mod_eq_of_lt (by omega)
    · -- otherwise the first byte has its highest bit set, whatever the number of the bytes
      have hmore : ¬ c.val.toNat ≤ 127 := by
        have hval : c.val.toNat = c.toNat := rfl
        omega
      rw [String.utf8EncodeChar] at hc
      simp only [hmore, if_false] at hc
      split at hc
      · rw [← (List.cons.inj hc).1, UInt8.toNat_ofNat']
        omega
      · split at hc
        · rw [← (List.cons.inj hc).1, UInt8.toNat_ofNat']
          omega
        · rw [← (List.cons.inj hc).1, UInt8.toNat_ofNat']
          omega

/-- A text in UTF-8 is its characters one after the other. -/
lemma ofText_eq (s : String) : ofText s = s.toList.flatMap String.utf8EncodeChar := by
  rw [ofText, String.toUTF8, ← String.utf8Encode_toList, List.utf8Encode, List.toList_data_toByteArray]

end Bytes

namespace Digest

variable {high low b : UInt8} {c : Char} {l : List Char} {bs text : Bytes} {s : String} {d : Digest}

/-! ## Pairs -/

/-- The first character of a pair as it would be written. -/
def plainHigh (c : Char) : Char := if c = '+' then '0' else c.toLower

/-- A text as it would be written: in lowercase, and with a zero for a plus sign in the place of the first
digit of a pair. -/
def plain : List Char → List Char
  | high :: low :: rest => plainHigh high :: low.toLower :: plain rest
  | l => l

/-- The digits of bytes. -/
def digits (bs : Bytes) : List Char :=
  bs.flatMap fun b => [Text.hexDigit (b.toNat / 16), Text.hexDigit (b.toNat % 16)]

lemma toList_hex (d : Digest) : d.hex.toList = digits d.bytes := String.toList_ofList

/-- The first character of a pair is a digit or a plus sign. -/
def highValue? (c : Char) : Option Nat := if c = '+' then some 0 else Text.hexValue? c

lemma highValue?_lt {n : Nat} (h : highValue? c = some n) : n < 16 := by
  unfold highValue? at h
  split at h
  · cases h
    decide
  · exact Text.hexValue?_lt h

lemma highValue?_eq_some_iff {n : Nat} (hn : n < 16) :
    highValue? c = some n ↔ plainHigh c = Text.hexDigit n := by
  unfold highValue? plainHigh
  split
  · have all : ∀ m : Fin 16, some 0 = some m.1 ↔ '0' = Text.hexDigit m.1 := by decide
    exact all ⟨n, hn⟩
  · exact Text.hexValue?_eq_some_iff hn

lemma addDigit?_of_lt {n : Nat} (hn : n < 16) :
    addDigit? n b = (Text.hexValue? (Char.ofUInt8 b)).map (16 * n + ·) := by
  unfold addDigit?
  cases hd : Text.hexValue? (Char.ofUInt8 b) with
  | none => rfl
  | some d =>
    have hfits : 16 * n + d < 256 := by
      have hlt := Text.hexValue?_lt hd
      omega
    exact if_pos hfits

lemma ofUInt8_eq_plus_iff : Char.ofUInt8 b = '+' ↔ b = 0x2B := by
  constructor
  · intro h
    have hnat : b.toUInt32.toNat = 43 := congrArg Char.toNat h
    exact UInt8.toNat.inj hnat
  · rintro rfl
    rfl

/-- Of two bytes the first one may be a plus sign, and what they write always fits. -/
lemma byte?_pair : byte? [high, low] = (highValue? (Char.ofUInt8 high)).bind fun h =>
    (Text.hexValue? (Char.ofUInt8 low)).map fun l => UInt8.ofNat (16 * h + l) := by
  unfold byte? highValue?
  by_cases hhigh : high = 0x2B
  · have hdigits : withoutPlus [high, low] = [low] := if_pos hhigh
    rw [hdigits, if_pos (ofUInt8_eq_plus_iff.2 hhigh)]
    simp only [List.isEmpty_cons, List.foldlM_cons, List.foldlM_nil, Bool.false_eq_true, if_false,
      addDigit?_of_lt (show 0 < 16 by decide), Option.bind_some]
    cases Text.hexValue? (Char.ofUInt8 low) with
    | none => rfl
    | some l => rfl
  · have hdigits : withoutPlus [high, low] = [high, low] := if_neg hhigh
    rw [hdigits, if_neg (mt ofUInt8_eq_plus_iff.1 hhigh)]
    simp only [List.isEmpty_cons, List.foldlM_cons, List.foldlM_nil, Bool.false_eq_true, if_false,
      addDigit?_of_lt (show 0 < 16 by decide)]
    cases hh : Text.hexValue? (Char.ofUInt8 high) with
    | none => rfl
    | some h =>
      have hh16 := Text.hexValue?_lt hh
      simp only [Option.map_some, Nat.mul_zero, Nat.zero_add, Option.bind_eq_bind, Option.bind_some,
        addDigit?_of_lt hh16]
      cases Text.hexValue? (Char.ofUInt8 low) with
      | none => rfl
      | some l => rfl

/-- Two digits are read as the byte that they are written for. -/
lemma byte?_eq_some_iff : byte? [high, low] = some b ↔
    plainHigh (Char.ofUInt8 high) = Text.hexDigit (b.toNat / 16) ∧
      (Char.ofUInt8 low).toLower = Text.hexDigit (b.toNat % 16) := by
  have hb := b.toNat_lt
  rw [byte?_pair, ← highValue?_eq_some_iff (by omega),
    ← Text.hexValue?_eq_some_iff (Nat.mod_lt _ (by decide))]
  constructor
  · intro h
    obtain ⟨n, hn, h⟩ := Option.bind_eq_some_iff.1 h
    obtain ⟨m, hm, rfl⟩ := Option.map_eq_some_iff.1 h
    have hn16 := highValue?_lt hn
    have hm16 := Text.hexValue?_lt hm
    have hnat : (UInt8.ofNat (16 * n + m)).toNat = 16 * n + m := by
      rw [UInt8.toNat_ofNat']
      omega
    have hdiv : (16 * n + m) / 16 = n := by omega
    have hmod : (16 * n + m) % 16 = m := by omega
    rw [hnat, hdiv, hmod]
    exact ⟨hn, hm⟩
  · rintro ⟨hn, hm⟩
    have hparts : 16 * (b.toNat / 16) + b.toNat % 16 = b.toNat := by omega
    rw [hn, Option.bind_some, hm, Option.map_some, hparts, UInt8.ofNat_toNat]

/-- A byte that is not in ASCII is no digit. -/
lemma hexValue?_of_le (hb : 128 ≤ b.toNat) : Text.hexValue? (Char.ofUInt8 b) = none := by
  refine Option.eq_none_iff_forall_ne_some.2 fun n hn => ?_
  have hlt : b.toUInt32.toNat < 128 := Text.lt_of_hexValue? hn
  rw [UInt8.toNat_toUInt32] at hlt
  omega

/-! ## Texts -/

lemma pairs?_cons_cons {rest : Bytes} : pairs? (high :: low :: rest) =
    if high.IsUTF8FirstByte ∧ rest.head?.all fun b => b.IsUTF8FirstByte then
      (byte? [high, low]).bind fun b => (pairs? rest).map (b :: ·)
    else none := by
  rw [pairs?]
  cases byte? [high, low] with
  | none => rfl
  | some b => cases pairs? rest with
    | _ => rfl

/-- A text is not read if one of its first two bytes is no digit. -/
lemma pairs?_eq_none {rest : Bytes} (h : byte? [high, low] = none) : pairs? (high :: low :: rest) = none := by
  rw [pairs?_cons_cons, h]
  exact ite_self _

lemma byte?_of_le (h : 128 ≤ high.toNat ∨ 128 ≤ low.toNat) : byte? [high, low] = none := by
  rw [byte?_pair]
  rcases h with hhigh | hlow
  · have hplus : Char.ofUInt8 high ≠ '+' := by
      rw [ne_eq, ofUInt8_eq_plus_iff]
      rintro rfl
      exact absurd hhigh (by decide)
    rw [highValue?, if_neg hplus, hexValue?_of_le hhigh]
    rfl
  · rw [hexValue?_of_le hlow]
    cases highValue? (Char.ofUInt8 high) with
    | _ => rfl

lemma ne_hexDigit {n : Nat} (hn : n < 16) (hc : 128 ≤ c.toNat) :
    plainHigh c ≠ Text.hexDigit n ∧ c.toLower ≠ Text.hexDigit n := by
  have hlower : c.toLower ≠ Text.hexDigit n := by
    rw [Text.toLower_eq_self (Text.isUpper_of_le hc)]
    rintro rfl
    exact absurd (Text.toNat_hexDigit_lt hn) (Nat.not_lt.2 hc)
  have hplus : c ≠ '+' := by
    rintro rfl
    exact absurd hc (by decide)
  refine ⟨?_, hlower⟩
  rw [plainHigh, if_neg hplus]
  exact hlower

/-- A text starts with the start of a character. -/
lemma head?_flatMap (l : List Char) :
    (l.flatMap String.utf8EncodeChar).head?.all fun b => b.IsUTF8FirstByte := by
  cases l with
  | nil => rfl
  | cons c rest =>
    obtain ⟨b, t, hc, hfirst, -⟩ := Bytes.exists_utf8EncodeChar c
    simp [hc, hfirst]

lemma pairs?_of_le {rest : Bytes} (hb : 128 ≤ b.toNat) : pairs? (b :: rest) = none := by
  cases rest with
  | nil => rfl
  | cons low rest => exact pairs?_eq_none (byte?_of_le (.inl hb))

/-- The first two characters of a text are read as the first byte. -/
lemma pairs?_eq_cons_iff {c' : Char} {rest : List Char} :
    pairs? ((c :: c' :: rest).flatMap String.utf8EncodeChar) = some (b :: bs) ↔
      (plainHigh c = Text.hexDigit (b.toNat / 16) ∧ c'.toLower = Text.hexDigit (b.toNat % 16)) ∧
        pairs? (rest.flatMap String.utf8EncodeChar) = some bs := by
  obtain ⟨high, t, hc, hfirst, hascii, hhigh⟩ := Bytes.exists_utf8EncodeChar c
  obtain ⟨low, t', hc', -, hascii', hhigh'⟩ := Bytes.exists_utf8EncodeChar c'
  have hb := b.toNat_lt
  rw [List.flatMap_cons, List.flatMap_cons, hc, hc']
  -- a digit is in ASCII, so if one of the characters is not, then neither side holds
  by_cases hlt : c.toNat < 128
  · obtain ⟨hself, rfl⟩ := hascii hlt
    by_cases hlt' : c'.toNat < 128
    · obtain ⟨hself', rfl⟩ := hascii' hlt'
      rw [List.singleton_append, List.singleton_append, pairs?_cons_cons,
        if_pos ⟨hfirst, head?_flatMap rest⟩, ← hself, ← hself', ← byte?_eq_some_iff]
      constructor
      · intro h
        obtain ⟨b', hb', h⟩ := Option.bind_eq_some_iff.1 h
        obtain ⟨bs', hbs', h⟩ := Option.map_eq_some_iff.1 h
        obtain ⟨rfl, rfl⟩ := List.cons.inj h
        exact ⟨hb', hbs'⟩
      · rintro ⟨hb', hbs'⟩
        rw [hb', hbs']
        rfl
    · have hnone : pairs? (high :: low :: (t' ++ rest.flatMap String.utf8EncodeChar)) = none :=
        pairs?_eq_none (byte?_of_le (.inr (hhigh' (Nat.le_of_not_lt hlt'))))
      refine iff_of_false (fun h => ?_) fun h => ?_
      · cases hnone.symm.trans h
      · exact (ne_hexDigit (Nat.mod_lt _ (by decide)) (Nat.le_of_not_lt hlt')).2 h.1.2
  · have hnone : pairs? (high :: t ++ (low :: t' ++ rest.flatMap String.utf8EncodeChar)) = none :=
      pairs?_of_le (hhigh (Nat.le_of_not_lt hlt))
    refine iff_of_false (fun h => ?_) fun h => ?_
    · cases hnone.symm.trans h
    · exact (ne_hexDigit (by omega) (Nat.le_of_not_lt hlt)).1 h.1.1

/-- A text is read as the bytes whose digits it spells. -/
lemma pairs?_eq_some_iff : pairs? (l.flatMap String.utf8EncodeChar) = some bs ↔ plain l = digits bs := by
  -- on the text, two characters at a time, as the bytes are read
  fun_induction plain l generalizing bs with
  | case1 c c' rest ih =>
    cases bs with
    | nil =>
      refine iff_of_false (fun h => ?_) nofun
      obtain ⟨b, t, hc, -⟩ := Bytes.exists_utf8EncodeChar c
      have hlength := two_mul_length_of_pairs? h
      rw [List.flatMap_cons, hc] at hlength
      cases hlength
    | cons b bs =>
      rw [pairs?_eq_cons_iff, ih]
      simp [digits, and_assoc]
  | case2 l hshort =>
    match l, hshort with
    | [], _ =>
      cases bs with
      | nil => exact iff_of_true rfl rfl
      | cons b bs => exact iff_of_false nofun nofun
    | [c], _ =>
      refine iff_of_false (fun h => ?_) fun h => ?_
      · obtain ⟨b, t, hc, -, hascii, hhigh⟩ := Bytes.exists_utf8EncodeChar c
        rw [List.flatMap_cons, hc] at h
        by_cases hlt : c.toNat < 128
        · obtain ⟨-, rfl⟩ := hascii hlt
          cases h
        · cases (pairs?_of_le (hhigh (Nat.le_of_not_lt hlt))).symm.trans h
      · cases bs with
        | nil => cases h
        | cons b bs => cases h
    | c :: c' :: rest, hshort => exact absurd rfl (hshort c c' rest)

/-- A text without plus signs and capital letters is spelled as it would be written. -/
lemma plain_eq_self (h : ∀ c ∈ l, c ≠ '+' ∧ c.isUpper = false) : plain l = l := by
  fun_induction plain l with
  | case1 c c' rest ih =>
    have hc := h c List.mem_cons_self
    have hc' := h c' (List.mem_cons_of_mem _ List.mem_cons_self)
    have hrest := ih fun c hc => h c (List.mem_cons_of_mem _ (List.mem_cons_of_mem _ hc))
    rw [plainHigh, if_neg hc.1, Text.toLower_eq_self hc.2, Text.toLower_eq_self hc'.2, hrest]
  | case2 => rfl

/-- A digest is written with 32 lowercase digits. -/
lemma isLower_digits (hc : c ∈ digits bs) : c.isDigit ∨ c ∈ ['a', 'b', 'c', 'd', 'e', 'f'] := by
  have all : ∀ m : Fin 16, (Text.hexDigit m.1).isDigit ∨
      Text.hexDigit m.1 ∈ ['a', 'b', 'c', 'd', 'e', 'f'] := by decide
  obtain ⟨b, -, hc⟩ := List.mem_flatMap.1 hc
  have hb := b.toNat_lt
  rcases List.mem_cons.1 hc with rfl | hc
  · exact all ⟨b.toNat / 16, by omega⟩
  · rw [List.mem_singleton.1 hc]
    exact all ⟨b.toNat % 16, Nat.mod_lt _ (by decide)⟩

lemma length_digits (bs : Bytes) : (digits bs).length = 2 * bs.length := by
  induction bs with
  | nil => rfl
  | cons b rest ih =>
    have hcons : digits (b :: rest) =
      Text.hexDigit (b.toNat / 16) :: Text.hexDigit (b.toNat % 16) :: digits rest := rfl
    rw [hcons, List.length_cons, List.length_cons, ih, List.length_cons]
    omega

/-- The bytes of a digest decide by themselves how long a text for it is. -/
lemma ofHex?_eq_iff_pairs? : ofHex? s = some d ↔ pairs? (Bytes.ofText s) = some d.bytes := by
  unfold ofHex?
  split
  · rw [Option.pmap_eq_some_iff]
    constructor
    · rintro ⟨bs, -, hbs, rfl⟩
      exact hbs
    · intro h
      exact ⟨d.bytes, d.length_bytes, h, rfl⟩
  · next hlength =>
    refine iff_of_false nofun fun h => hlength ?_
    rw [two_mul_length_of_pairs? h, d.length_bytes]

/-- A text stands for a digest exactly if it is the written one up to capital letters, and up to plus signs
for zeros in the place of the first digit of a byte.  So of the texts without plus signs and capital
letters a digest has one alone, the 32 lowercase digits that it is written with, and all others are
refused: other characters, also those of several bytes, and other lengths. -/
theorem ofHex?_eq_some_iff (s : String) (d : Digest) :
    (ofHex? s = some d ↔ plain s.toList = d.hex.toList) ∧
      ((∀ c ∈ s.toList, c ≠ '+' ∧ c.isUpper = false) → (ofHex? s = some d ↔ s = d.hex)) ∧
      d.hex.toList.length = 32 ∧ ∀ c ∈ d.hex.toList, c.isDigit ∨ c ∈ ['a', 'b', 'c', 'd', 'e', 'f'] := by
  have hplain : ofHex? s = some d ↔ plain s.toList = d.hex.toList := by
    rw [ofHex?_eq_iff_pairs?, Bytes.ofText_eq, pairs?_eq_some_iff, toList_hex]
  refine ⟨hplain, fun hs => ?_, ?_, fun c hc => ?_⟩
  · rw [hplain, plain_eq_self hs, String.toList_inj]
  · rw [toList_hex, length_digits, d.length_bytes]
  · rw [toList_hex] at hc
    exact isLower_digits hc

/-- All sixteen digits, and a character of two bytes that the pairs cut in two. -/
theorem ofHex?_eq_some_iff_digits :
    let d : Digest := ⟨[0x01, 0x23, 0x45, 0x67, 0x89, 0xAB, 0xCD, 0xEF, 0xFE, 0xDC, 0xBA, 0x98, 0x76, 0x54,
      0x32, 0x10], rfl⟩
    let s := "0123456789abcdeffedcba9876543210"
    let cut := "0é3456789abcdeffedcba9876543210"
    (∀ c ∈ s.toList, c ≠ '+' ∧ c.isUpper = false) ∧ ofHex? s = some d ∧
      (∀ c ∈ cut.toList, c ≠ '+' ∧ c.isUpper = false) ∧ (Bytes.ofText cut).length = 32 ∧
      ofHex? cut ≠ some d := by
  intro d s cut
  have forall_of_all : ∀ t : String, (t.toList.all fun c => c ≠ '+' ∧ c.isUpper = false) →
      ∀ c ∈ t.toList, c ≠ '+' ∧ c.isUpper = false :=
    fun t h c hc => of_decide_eq_true (List.all_eq_true.1 h c hc)
  have hs := forall_of_all s (by decide +kernel)
  have hcut := forall_of_all cut (by decide +kernel)
  have hne : cut ≠ d.hex := by decide +kernel
  exact ⟨hs, ((ofHex?_eq_some_iff s d).2.1 hs).2 (by decide +kernel), hcut, by decide +kernel,
    fun h => hne (((ofHex?_eq_some_iff cut d).2.1 hcut).1 h)⟩

/-- Capital letters and plus signs are accepted: a digest has other texts than the written one. -/
theorem exists_other_spelling : ∃ d : Digest,
    ofHex? "+a+a+a+a+a+a+a+a+a+a+a+a+a+a+a+a" = some d ∧ "+a+a+a+a+a+a+a+a+a+a+a+a+a+a+a+a" ≠ d.hex ∧
      ofHex? "0A0A0A0A0A0A0A0A0A0A0A0A0A0A0A0A" = some d ∧ "0A0A0A0A0A0A0A0A0A0A0A0A0A0A0A0A" ≠ d.hex :=
  ⟨⟨List.replicate 16 10, rfl⟩, by decide +kernel⟩

end Digest

end IncludeDeps

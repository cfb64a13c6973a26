import IncludeDeps.Digest.XXH3

/-!
# Content digests

A `Digest` stands for the content of a file.  It is the hash of 128 bits of the content, held as
sixteen bytes, the low one first.

* `Digest.ofBytes` is the digest of a content;
* `Digest.hex` writes it as 32 digits;
* `Digest.ofHex?` reads such a text byte by byte, and accepts a few others besides: digits of either
  case, and a plus sign in the place of a high digit.
-/

namespace IncludeDeps

/-- Sixteen bytes that stand for a content. -/
structure Digest where
  /-- The bytes. -/
  bytes : Bytes
  /-- There are sixteen of them. -/
  length_bytes : bytes.length = 16
deriving DecidableEq

namespace Digest

theorem length_bytes_ofNat (width n : Nat) : (Bytes.ofNat width n).length = width := by
  induction width generalizing n with
  | zero => rfl
  | succ width ih => simp [Bytes.ofNat, ih]

/-- The digest of a content. -/
def ofBytes (content : Bytes) : Digest :=
  let h := XXH3.hash content
  ⟨Bytes.ofNat 8 h.low.toNat ++ Bytes.ofNat 8 h.high.toNat, by simp [length_bytes_ofNat]⟩

/-- The digest of the UTF-8 form of a text. -/
def ofText (s : String) : Digest := ofBytes (Bytes.ofText s)

/-- The digest as 32 lowercase hexadecimal digits. -/
def hex (d : Digest) : String := Bytes.hex d.bytes

/-- The first two bytes of the digest, for a reader's eye. -/
def summary (d : Digest) : String := "ContentHash(" ++ Bytes.hex (d.bytes.take 2) ++ "..)"

/-- A number with one more hexadecimal digit, of either case, as long as it fits into a byte. -/
def addDigit? (n : Nat) (b : UInt8) : Option Nat := do
  let d ← Text.hexValue? (Char.ofUInt8 b)
  if 16 * n + d < 256 then some (16 * n + d) else none

/-- A text without the plus sign that it may begin with. -/
def withoutPlus : Bytes → Bytes
  | [] => []
  | b :: rest => if b = 0x2B then rest else b :: rest

/-- The byte that hexadecimal digits write.  A plus sign may stand before them. -/
def byte? (text : Bytes) : Option UInt8 :=
  if (withoutPlus text).isEmpty then none
  else ((withoutPlus text).foldlM addDigit? 0).map UInt8.ofNat

/-- The bytes that the pairs of a text in UTF-8 write.  No pair may cut a character in two. -/
def pairs? : Bytes → Option Bytes
  | [] => some []
  | [_] => none
  | high :: low :: rest =>
    if high.IsUTF8FirstByte ∧ rest.head?.all fun b => b.IsUTF8FirstByte then do
      let b ← byte? [high, low]
      let bs ← pairs? rest
      return b :: bs
    else none

/-- Each pair writes one byte. -/
theorem two_mul_length_of_pairs? {text bs : Bytes} (h : pairs? text = some bs) :
    text.length = 2 * bs.length := by
  fun_induction pairs? text generalizing bs with
  | case1 => simp_all
  | case2 => cases h
  | case3 high low rest hwhole ih =>
    obtain ⟨b, -, h⟩ := Option.bind_eq_some_iff.1 h
    obtain ⟨bs', hrest, h⟩ := Option.bind_eq_some_iff.1 h
    obtain rfl := Option.some.inj h
    simp only [List.length_cons, ih hrest]
    omega
  | case4 => cases h

/-- The digest that a text of 32 bytes stands for. -/
def ofHex? (s : String) : Option Digest :=
  if hlength : (Bytes.ofText s).length = 32 then
    (pairs? (Bytes.ofText s)).pmap Digest.mk fun bs hbs => by
      have hpairs := two_mul_length_of_pairs? hbs
      omega
  else none

end Digest

end IncludeDeps

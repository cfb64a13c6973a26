import IncludeDeps.Text.Hex

/-!
# Byte strings

The content of a file is a list of bytes.

* `Bytes.ofNat` and `Bytes.toNat`: numbers of a fixed width, the low byte first;
* `Bytes.ofText` and `Bytes.text?`: UTF-8, refusing every byte string that is not;
* `Bytes.lossyText`: UTF-8 in which a replacement character stands for each maximal part of a
  broken sequence;
* `Bytes.hex`: two lowercase digits a byte.
-/

namespace IncludeDeps

/-- A byte string. -/
abbrev Bytes := List UInt8

namespace Bytes

/-! ## Numbers -/

/-- The `width` low bytes of `n`, the lowest first. -/
def ofNat : (width : Nat) → (n : Nat) → Bytes
  | 0, _ => []
  | width + 1, n => UInt8.ofNat n :: ofNat width (n / 256)

/-- The number whose bytes these are, the lowest first. -/
def toNat (bs : Bytes) : Nat := bs.foldr (fun b n => b.toNat + 256 * n) 0

/-- The number of the first `width` bytes, and the bytes that follow them. -/
def takeNat? (width : Nat) (bs : Bytes) : Option (Nat × Bytes) :=
  if bs.length < width then none else some (toNat (bs.take width), bs.drop width)

/-! ## Text -/

/-- The UTF-8 form of a text. -/
def ofText (s : String) : Bytes := s.toUTF8.data.toList

/-- The text whose UTF-8 form these bytes are. -/
def text? (bs : Bytes) : Option String := String.fromUTF8? ⟨bs.toArray⟩

/-- Every text is read back from its UTF-8 form. -/
theorem text?_ofText (s : String) : text? (ofText s) = some s := by
  have h : (⟨s.toByteArray.data.toList.toArray⟩ : ByteArray) = s.toByteArray := rfl
  simp only [text?, ofText, String.toUTF8, h, String.fromUTF8?, s.isValidUTF8, dite_true]
  rfl

/-- A character of more than one byte while it is being read. -/
structure Partial where
  /-- The bits read so far. -/
  value : Nat
  /-- How many bytes are still to come, less one. -/
  missing : Nat
  /-- The least byte that may come next. -/
  low : Nat
  /-- The greatest byte that may come next. -/
  high : Nat

/-- What a byte starts: a character by itself, a longer one, or nothing. -/
def start (b : Nat) : Char ⊕ Partial ⊕ Unit :=
  if b < 0x80 then .inl (Char.ofNat b)
  else if b < 0xC2 then .inr (.inr ())
  else if b < 0xE0 then .inr (.inl ⟨b - 0xC0, 0, 0x80, 0xBF⟩)
  else if b < 0xF0 then
    .inr (.inl ⟨b - 0xE0, 1, if b = 0xE0 then 0xA0 else 0x80, if b = 0xED then 0x9F else 0xBF⟩)
  else if b < 0xF5 then
    .inr (.inl ⟨b - 0xF0, 2, if b = 0xF0 then 0x90 else 0x80, if b = 0xF4 then 0x8F else 0xBF⟩)
  else .inr (.inr ())

/-- The character that stands for bytes which are no UTF-8. -/
def replacement : Char := '\uFFFD'

/-- The characters of a byte string read after the given part of a character.  A byte that
cannot go on with that part ends it, and is then read as a start. -/
def lossyChars : Option Partial → Bytes → List Char
  | none, [] => []
  | some _, [] => [replacement]
  | part, b :: rest =>
    let b := b.toNat
    let restart (_ : Unit) := match start b with
      | .inl c => c :: lossyChars none rest
      | .inr (.inl p) => lossyChars (some p) rest
      | .inr (.inr ()) => replacement :: lossyChars none rest
    match part with
    | none => restart ()
    | some p =>
      if p.low ≤ b ∧ b ≤ p.high then
        let value := p.value * 64 + (b - 0x80)
        match p.missing with
        | 0 => Char.ofNat value :: lossyChars none rest
        | n + 1 => lossyChars (some ⟨value, n, 0x80, 0xBF⟩) rest
      else replacement :: restart ()

/-- The text of a byte string, broken sequences replaced. -/
def lossyText (bs : Bytes) : String := String.ofList (lossyChars none bs)

/-! ## Digits -/

/-- Two lowercase digits a byte, the high one first. -/
def hex (bs : Bytes) : String :=
  String.ofList (bs.flatMap fun b => [Text.hexDigit (b.toNat / 16), Text.hexDigit (b.toNat % 16)])

end Bytes

end IncludeDeps

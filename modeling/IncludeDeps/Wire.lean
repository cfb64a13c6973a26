import IncludeDeps.Digest

/-!
# Wire formats

A `Wire α` is a binary format for `α`: how a value is written, and how one is read from the front
of a byte string.  The formats of compound types are put together from those of their parts.

* `Wire.number` writes small numbers in one byte and larger ones after a byte that tells their
  width; reading takes every width up to the greatest that the type has;
* `Wire.text`, `Wire.list`, `Wire.option`, `Wire.flag`, `Wire.raw`: the other building blocks;
* `Wire.pair` puts one after another, `Wire.convert` changes the type.
-/

namespace IncludeDeps

/-- A binary format for `α`. -/
structure Wire (α : Type) where
  /-- The bytes of a value. -/
  write : α → Bytes
  /-- A value from the front of a byte string, and the bytes after it. -/
  read : Bytes → Option (α × Bytes)

namespace Wire

variable {α β : Type}

/-! ## Numbers -/

/-- The number that starts with the byte `b`, of at most `widest` bytes. -/
def readNumber (widest : Nat) : Bytes → Option (Nat × Bytes)
  | [] => none
  | b :: rest =>
    -- the first byte is the number itself, or tells by its excess how many bytes follow
    let width := Nat.pow 2 (b.toNat - 250)
    if b.toNat ≤ 250 then some (b.toNat, rest)
    else if width ≤ widest then Bytes.takeNat? width rest
    else none

/-- The shortest form of a number. -/
def writeNumber (n : Nat) : Bytes :=
  if n ≤ 250 then [UInt8.ofNat n]
  else if n < 0x10000 then 251 :: Bytes.ofNat 2 n
  else if n < 0x100000000 then 252 :: Bytes.ofNat 4 n
  else 253 :: Bytes.ofNat 8 n

/-- Numbers of at most `widest` bytes. -/
def number (widest : Nat) : Wire Nat := ⟨writeNumber, readNumber widest⟩

/-- The number of elements of something. -/
def count : Wire Nat := number 8

/-! ## Building blocks -/

/-- Exactly `n` bytes. -/
def raw (n : Nat) : Wire { bs : Bytes // bs.length = n } where
  write bs := bs.1
  read bs :=
    if h : n ≤ bs.length then some (⟨bs.take n, by simp [h]⟩, bs.drop n) else none

/-- One format after another. -/
def pair (a : Wire α) (b : Wire β) : Wire (α × β) where
  write p := a.write p.1 ++ b.write p.2
  read bs := do
    let (x, bs) ← a.read bs
    let (y, bs) ← b.read bs
    return ((x, y), bs)

/-- A format for a type whose values correspond to some of those of another; what corresponds to
none is not read. -/
def convert (a : Wire α) (toWritten : β → α) (ofRead : α → Option β) : Wire β where
  write y := a.write (toWritten y)
  read bs := do
    let (x, bs) ← a.read bs
    let y ← ofRead x
    return (y, bs)

/-- A truth value, in one byte. -/
def flag : Wire Bool where
  write b := [if b then 1 else 0]
  read
    | 0 :: rest => some (false, rest)
    | 1 :: rest => some (true, rest)
    | _ => none

/-- A text: the number of its bytes, and its UTF-8 form. -/
def text : Wire String where
  write s := count.write (Bytes.ofText s).length ++ Bytes.ofText s
  read bs := do
    let (n, bs) ← count.read bs
    if bs.length < n then none
    else
      let s ← Bytes.text? (bs.take n)
      return (s, bs.drop n)

/-- A value that may be absent: a truth value, and the value. -/
def option (a : Wire α) : Wire (Option α) where
  write
    | none => flag.write false
    | some x => flag.write true ++ a.write x
  read bs := do
    match ← flag.read bs with
    | (false, bs) => return (none, bs)
    | (true, bs) =>
      let (x, bs) ← a.read bs
      return (some x, bs)

/-- Reads `n` elements. -/
def readElements (read : Bytes → Option (α × Bytes)) : Nat → Bytes → Option (List α × Bytes)
  | 0, bs => some ([], bs)
  | n + 1, bs => do
    let (x, bs) ← read bs
    let (xs, bs) ← readElements read n bs
    return (x :: xs, bs)

/-- A list: the number of its elements, and the elements. -/
def list (a : Wire α) : Wire (List α) where
  write xs := count.write xs.length ++ xs.flatMap a.write
  read bs := do
    let (n, bs) ← count.read bs
    readElements a.read n bs

/-- A digest, as it is. -/
def digest : Wire Digest :=
  (raw 16).convert (fun d => ⟨d.bytes, d.length_bytes⟩) fun bs => some ⟨bs.1, bs.2⟩

end Wire

end IncludeDeps

import IncludeDeps.Bytes

/-!
# The XXH3 hash of 128 bits

The hash mixes words of 64 bits, read with the low byte first, with words of a fixed *secret*.
How it reads its input depends on the length: inputs of at most 16 bytes are packed into one or
two words, those of at most 240 bytes are folded 32 bytes at a time from both ends, and longer
ones run through eight lanes in *stripes* of 64 bytes, sixteen stripes to a *block*, after each
of which the lanes are scrambled.  The seed is zero throughout.

The single entry point is `XXH3.hash`.
-/

namespace IncludeDeps.XXH3

/-! ## Constants -/

/-- The secret of 192 bytes. -/
def secret : Bytes := [
  0xb8, 0xfe, 0x6c, 0x39, 0x23, 0xa4, 0x4b, 0xbe, 0x7c, 0x01, 0x81, 0x2c, 0xf7, 0x21, 0xad, 0x1c,
  0xde, 0xd4, 0x6d, 0xe9, 0x83, 0x90, 0x97, 0xdb, 0x72, 0x40, 0xa4, 0xa4, 0xb7, 0xb3, 0x67, 0x1f,
  0xcb, 0x79, 0xe6, 0x4e, 0xcc, 0xc0, 0xe5, 0x78, 0x82, 0x5a, 0xd0, 0x7d, 0xcc, 0xff, 0x72, 0x21,
  0xb8, 0x08, 0x46, 0x74, 0xf7, 0x43, 0x24, 0x8e, 0xe0, 0x35, 0x90, 0xe6, 0x81, 0x3a, 0x26, 0x4c,
  0x3c, 0x28, 0x52, 0xbb, 0x91, 0xc3, 0x00, 0xcb, 0x88, 0xd0, 0x65, 0x8b, 0x1b, 0x53, 0x2e, 0xa3,
  0x71, 0x64, 0x48, 0x97, 0xa2, 0x0d, 0xf9, 0x4e, 0x38, 0x19, 0xef, 0x46, 0xa9, 0xde, 0xac, 0xd8,
  0xa8, 0xfa, 0x76, 0x3f, 0xe3, 0x9c, 0x34, 0x3f, 0xf9, 0xdc, 0xbb, 0xc7, 0xc7, 0x0b, 0x4f, 0x1d,
  0x8a, 0x51, 0xe0, 0x4b, 0xcd, 0xb4, 0x59, 0x31, 0xc8, 0x9f, 0x7e, 0xc9, 0xd9, 0x78, 0x73, 0x64,
  0xea, 0xc5, 0xac, 0x83, 0x34, 0xd3, 0xeb, 0xc3, 0xc5, 0x81, 0xa0, 0xff, 0xfa, 0x13, 0x63, 0xeb,
  0x17, 0x0d, 0xdd, 0x51, 0xb7, 0xf0, 0xda, 0x49, 0xd3, 0x16, 0x55, 0x26, 0x29, 0xd4, 0x68, 0x9e,
  0x2b, 0x16, 0xbe, 0x58, 0x7d, 0x47, 0xa1, 0xfc, 0x8f, 0xf8, 0xb8, 0xd1, 0x7a, 0xd0, 0x31, 0xce,
  0x45, 0xcb, 0x3a, 0x8f, 0x95, 0x16, 0x04, 0x28, 0xaf, 0xd7, 0xfb, 0xca, 0xbb, 0x4b, 0x40, 0x7e]

/-- The three primes of 32 bits. -/
def prime32₁ : UInt64 := 0x9E3779B1
@[inherit_doc prime32₁] def prime32₂ : UInt64 := 0x85EBCA77
@[inherit_doc prime32₁] def prime32₃ : UInt64 := 0xC2B2AE3D

/-- The five primes of 64 bits. -/
def prime64₁ : UInt64 := 0x9E3779B185EBCA87
@[inherit_doc prime64₁] def prime64₂ : UInt64 := 0xC2B2AE3D27D4EB4F
@[inherit_doc prime64₁] def prime64₃ : UInt64 := 0x165667B19E3779F9
@[inherit_doc prime64₁] def prime64₄ : UInt64 := 0x85EBCA77C2B2AE63
@[inherit_doc prime64₁] def prime64₅ : UInt64 := 0x27D4EB2F165667C5

/-- The two multipliers that finish a mixing step. -/
def finisher₁ : UInt64 := 0x165667919E3779F9
@[inherit_doc finisher₁] def finisher₂ : UInt64 := 0x9FB21C651E98DF25

/-! ## Words -/

/-- The word of `width` bytes at an offset. -/
def word (width : Nat) (bs : Bytes) (offset : Nat) : UInt64 :=
  UInt64.ofNat (Bytes.toNat ((bs.drop offset).take width))

/-- The word of eight bytes at an offset. -/
def word64 (bs : Bytes) (offset : Nat) : UInt64 := word 8 bs offset

/-- The word of eight bytes of the secret at an offset. -/
def key (offset : Nat) : UInt64 := word64 secret offset

/-- The low 32 bits of a word. -/
def low32 (x : UInt64) : UInt64 := x &&& 0xFFFFFFFF

/-- The bytes of a word of `width` bytes in reverse. -/
def reverseBytes (width : Nat) (x : UInt64) : UInt64 :=
  UInt64.ofNat (Bytes.toNat (Bytes.ofNat width x.toNat).reverse)

/-- A word of 32 bits turned left by `n` bits. -/
def rotate32 (x n : UInt64) : UInt64 := low32 (x <<< n) ||| (low32 x >>> (32 - n))

/-- A pair of words: a number of 128 bits, or two sums that are kept apart. -/
structure Pair where
  /-- The low word. -/
  low : UInt64
  /-- The high word. -/
  high : UInt64

/-- The full product of two words. -/
def multiply (x y : UInt64) : Pair :=
  let product := x.toNat * y.toNat
  ⟨UInt64.ofNat product, UInt64.ofNat (product >>> 64)⟩

/-- The two halves of a product, combined. -/
def fold (x y : UInt64) : UInt64 :=
  let p := multiply x y
  p.low ^^^ p.high

/-- Spreads the bits of a word. -/
def avalanche (x : UInt64) : UInt64 :=
  let x := (x ^^^ (x >>> 37)) * finisher₁
  x ^^^ (x >>> 32)

/-- Spreads the bits of a word of a very short input. -/
def avalancheShort (x : UInt64) : UInt64 :=
  let x := (x ^^^ (x >>> 33)) * prime64₂
  let x := (x ^^^ (x >>> 29)) * prime64₃
  x ^^^ (x >>> 32)

/-! ## Inputs of at most 16 bytes -/

/-- The hash of the empty input. -/
def hash0 : Pair := ⟨avalancheShort (key 64 ^^^ key 72), avalancheShort (key 80 ^^^ key 88)⟩

/-- The hash of one to three bytes. -/
def hash1to3 (bs : Bytes) : Pair :=
  let n := bs.length
  let packed := (word 1 bs 0 <<< 16) ||| (word 1 bs (n / 2) <<< 24) ||| word 1 bs (n - 1)
    ||| (UInt64.ofNat n <<< 8)
  let turned := rotate32 (reverseBytes 4 packed) 13
  ⟨avalancheShort (packed ^^^ (word 4 secret 0 ^^^ word 4 secret 4)),
    avalancheShort (turned ^^^ (word 4 secret 8 ^^^ word 4 secret 12))⟩

/-- The hash of four to eight bytes. -/
def hash4to8 (bs : Bytes) : Pair :=
  let n := bs.length
  let packed := word 4 bs 0 + (word 4 bs (n - 4) <<< 32)
  let m := multiply (packed ^^^ (key 16 ^^^ key 24)) (prime64₁ + (UInt64.ofNat n <<< 2))
  let high := m.high + (m.low <<< 1)
  let low := m.low ^^^ (high >>> 3)
  let low := (low ^^^ (low >>> 35)) * finisher₂
  ⟨low ^^^ (low >>> 28), avalanche high⟩

/-- The hash of nine to sixteen bytes. -/
def hash9to16 (bs : Bytes) : Pair :=
  let n := bs.length
  let first := word64 bs 0
  let last := word64 bs (n - 8)
  let m := multiply (first ^^^ last ^^^ (key 32 ^^^ key 40)) prime64₁
  let low := m.low + (UInt64.ofNat (n - 1) <<< 54)
  let last := last ^^^ (key 48 ^^^ key 56)
  let high := m.high + last + low32 last * (prime32₂ - 1)
  let m := multiply (low ^^^ reverseBytes 8 high) prime64₂
  ⟨avalanche m.low, avalanche (m.high + high * prime64₂)⟩

/-! ## Inputs of at most 240 bytes -/

/-- Sixteen bytes at an offset mixed with the secret at another. -/
def mix16 (bs : Bytes) (offset keyOffset : Nat) : UInt64 :=
  fold (word64 bs offset ^^^ key keyOffset) (word64 bs (offset + 8) ^^^ key (keyOffset + 8))

/-- Two groups of sixteen bytes taken into the sums. -/
def mix32 (bs : Bytes) (acc : Pair) (offset₁ offset₂ keyOffset : Nat) : Pair :=
  ⟨(acc.low + mix16 bs offset₁ keyOffset) ^^^ (word64 bs offset₂ + word64 bs (offset₂ + 8)),
    (acc.high + mix16 bs offset₂ (keyOffset + 16))
      ^^^ (word64 bs offset₁ + word64 bs (offset₁ + 8))⟩

/-- The hash from the sums over `n` bytes. -/
def finish (n : Nat) (acc : Pair) : Pair :=
  ⟨avalanche (acc.low + acc.high),
    0 - avalanche (acc.low * prime64₁ + acc.high * prime64₄ + UInt64.ofNat n * prime64₂)⟩

/-- The sums before any byte of an input of `n` bytes. -/
def begin (n : Nat) : Pair := ⟨UInt64.ofNat n * prime64₁, 0⟩

/-- The hash of 17 to 128 bytes: groups from both ends, the inner ones first. -/
def hash17to128 (bs : Bytes) : Pair :=
  let n := bs.length
  let rounds := (n - 1) / 32
  finish n ((List.range (rounds + 1)).reverse.foldl
    (fun acc i => mix32 bs acc (16 * i) (n - 16 - 16 * i) (32 * i)) (begin n))

/-- The hash of 129 to 240 bytes: groups in order, the secret restarted after the fourth. -/
def hash129to240 (bs : Bytes) : Pair :=
  let n := bs.length
  let acc := (List.range 4).foldl
    (fun acc i => mix32 bs acc (32 * i) (32 * i + 16) (32 * i)) (begin n)
  let acc := ⟨avalanche acc.low, avalanche acc.high⟩
  let acc := (List.range (n / 32 - 4)).foldl
    (fun acc i => mix32 bs acc (32 * i + 128) (32 * i + 144) (32 * i + 3)) acc
  finish n (mix32 bs acc (n - 16) (n - 32) 103)

/-! ## Longer inputs -/

/-- The lanes before the first stripe. -/
def lanes : List UInt64 :=
  [prime32₃, prime64₁, prime64₂, prime64₃, prime64₄, prime32₂, prime64₅, prime32₁]

/-- The eight words at an offset. -/
def words (bs : Bytes) (offset : Nat) : List UInt64 :=
  let bs := bs.drop offset
  (List.range 8).map fun i => word64 bs (8 * i)

/-- Swaps the two members of each pair. -/
def swapPairs : List UInt64 → List UInt64
  | x :: y :: rest => y :: x :: swapPairs rest
  | rest => rest

/-- Takes the stripe at the front of `bs` into the lanes: each lane gets its own product and the
word of its neighbour. -/
def accumulate (acc : List UInt64) (bs : Bytes) (keyOffset : Nat) : List UInt64 :=
  let input := words bs 0
  let products := input.zipWith (fun x k => low32 (x ^^^ k) * ((x ^^^ k) >>> 32))
    (words secret keyOffset)
  (acc.zipWith (· + ·) (swapPairs input)).zipWith (· + ·) products

/-- Mixes the lanes at the end of a block. -/
def scramble (acc : List UInt64) : List UInt64 :=
  acc.zipWith (fun (a k : UInt64) => ((a ^^^ (a >>> 47)) ^^^ k) * prime32₁) (words secret 128)

/-- Takes `count` stripes into the lanes, the one after `done` stripes of a block first. -/
def stripes : (count done : Nat) → List UInt64 → Bytes → List UInt64
  | 0, _, acc, _ => acc
  | count + 1, done, acc, bs =>
    let acc := accumulate acc bs (8 * done)
    if done = 15 then stripes count 0 (scramble acc) (bs.drop 64)
    else stripes count (done + 1) acc (bs.drop 64)

/-- One word from all lanes. -/
def merge (acc : List UInt64) (keyOffset : Nat) (start : UInt64) : UInt64 :=
  let keyed := acc.zipWith (· ^^^ ·) (words secret keyOffset)
  let rec pairs : List UInt64 → UInt64 → UInt64
    | x :: y :: rest, sum => pairs rest (sum + fold x y)
    | _, sum => sum
  avalanche (pairs keyed start)

/-- The hash of more than 240 bytes.  All stripes but the last are full ones; the last takes the
final 64 bytes, some of them for the second time. -/
def hashLong (bs : Bytes) : Pair :=
  let n := bs.length
  let acc := stripes ((n - 1) / 64) 0 lanes bs
  let acc := accumulate acc (bs.drop (n - 64)) 121
  let size := UInt64.ofNat n
  ⟨merge acc 11 (size * prime64₁), merge acc 117 (~~~(size * prime64₂))⟩

/-! ## All inputs -/

/-- The hash of a byte string. -/
def hash (bs : Bytes) : Pair :=
  let n := bs.length
  if n = 0 then hash0
  else if n ≤ 3 then hash1to3 bs
  else if n ≤ 8 then hash4to8 bs
  else if n ≤ 16 then hash9to16 bs
  else if n ≤ 128 then hash17to128 bs
  else if n ≤ 240 then hash129to240 bs
  else hashLong bs

end IncludeDeps.XXH3

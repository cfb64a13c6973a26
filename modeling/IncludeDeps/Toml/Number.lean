import IncludeDeps.Toml.Date
import IncludeDeps.Toml.Value

/-!
# TOML numbers

A whole number is decimal, with a sign and without leading zeros, or hexadecimal, octal or binary
after `0x`, `0o` or `0b`; it has 64 bits.  A floating-point number is a decimal one with a fraction,
an exponent or both, or `inf` or `nan`; it has double precision and may not be too large for that.
Underscores may part the digits of any of them.

`number` reads any of these, and also a date or a time, which begins like one.
-/

namespace IncludeDeps.Toml

/-! ## Digits -/

/-- The digits at the front of a text; an underscore has to stand between two digits. -/
def moreDigits (isDigit : Char → Bool) : List Char → Reading (List Char)
  | '_' :: c :: rest =>
    if isDigit c then prepend c (moreDigits isDigit rest) else none
  | ['_'] => none
  | c :: rest => if isDigit c then prepend c (moreDigits isDigit rest) else some ([], c :: rest)
  | [] => some ([], [])

/-- The digits at the front of a text, of which there must be one. -/
def digits (isDigit : Char → Bool) : List Char → Reading (List Char)
  | c :: rest => if isDigit c then prepend c (moreDigits isDigit rest) else none
  | [] => none

/-- The digits of a decimal whole number: nothing follows a zero in front. -/
def wholeDigits : List Char → Reading (List Char)
  | '0' :: rest => some (['0'], rest)
  | cs => digits Char.isDigit cs

/-- Whether a text is after a minus sign, and the text after its sign. -/
def skipSign : List Char → Bool × List Char
  | '-' :: rest => (true, rest)
  | '+' :: rest => (false, rest)
  | cs => (false, cs)

/-! ## Decimal fractions -/

/-- A decimal number `± digits · 10^exponent`. -/
structure Decimal where
  /-- Whether it has a minus sign. -/
  negative : Bool
  /-- Its digits. -/
  digits : List Char
  /-- The power of ten. -/
  exponent : Int

namespace Decimal

/-- Twice the least magnitude that double precision does not hold: halfway beyond the largest
number `(2 - 2^-52) · 2^1023`, ties going up. -/
def doubledLimit : Nat := 0x3fffffffffffff <<< 971

/-- Whether a number is above all that double precision holds.  Ten to the number of digits bounds
the digits' value, so that no large power has to be computed. -/
def isTooLarge (d : Decimal) : Bool :=
  let m := decimalValue d.digits
  let width := (d.digits.dropWhile (· == '0')).length + d.exponent
  if d.negative || m == 0 || width ≤ 0 then false
  else if 400 < width then true
  else if 0 ≤ d.exponent then doubledLimit ≤ 2 * m * Nat.pow 10 d.exponent.toNat
  else doubledLimit * Nat.pow 10 (-d.exponent).toNat ≤ 2 * m

end Decimal

/-- The fraction that may follow a whole number: its digits. -/
def fraction : List Char → Reading (List Char)
  | '.' :: rest => digits Char.isDigit rest
  | cs => some ([], cs)

/-- The exponent that may follow a number. -/
def exponent : List Char → Option (Option Int × List Char)
  | c :: rest => do
    if c = 'e' ∨ c = 'E' then
      let (negative, rest) := skipSign rest
      let (ds, rest) ← digits Char.isDigit rest
      let n : Int := decimalValue ds
      return (some (if negative then -n else n), rest)
    else return (none, c :: rest)
  | [] => some (none, [])

/-! ## Numbers -/

/-- A whole number of 64 bits. -/
def integer? (n : Int) : Option Value :=
  if -0x8000000000000000 ≤ n ∧ n < 0x8000000000000000 then some (.integer n) else none

/-- The digits of a whole number to a base, after the sign of the base. -/
def baseNumber (base : Nat) (cs : List Char) : Option (Value × List Char) := do
  let isDigit (c : Char) : Bool := (Text.hexValue? c).any (· < base)
  let (ds, rest) ← digits isDigit cs
  let n := ds.foldl (fun n c => base * n + (Text.hexValue? c).getD 0) 0
  return (← integer? n, rest)

/-- The text between a place and a later one. -/
def between (cs rest : List Char) : String := String.ofList (cs.take (cs.length - rest.length))

/-- A decimal number. -/
def decimalNumber (cs : List Char) : Option (Value × List Char) := do
  let (negative, unsigned) := skipSign cs
  match unsigned with
  | 'i' :: 'n' :: 'f' :: rest => return (.float (between cs rest), rest)
  | 'n' :: 'a' :: 'n' :: rest => return (.float (between cs rest), rest)
  | _ =>
    let (whole, rest) ← wholeDigits unsigned
    let (frac, rest) ← fraction rest
    match ← exponent rest with
    | (none, rest) =>
      if frac.isEmpty then
        let n : Int := decimalValue whole
        return (← integer? (if negative then -n else n), rest)
      else if Decimal.isTooLarge ⟨negative, whole ++ frac, -frac.length⟩ then none
      else return (.float (between cs rest), rest)
    | (some e, rest) =>
      if Decimal.isTooLarge ⟨negative, whole ++ frac, e - frac.length⟩ then none
      else return (.float (between cs rest), rest)

/-- A number, a date or a time. -/
def number (cs : List Char) : Reading Value :=
  match dateOrTimeAt cs with
  | .before rest => some (.date (between cs rest), rest)
  | .malformed => none
  | .absent =>
    match cs with
    | '0' :: 'x' :: rest => baseNumber 16 rest
    | '0' :: 'o' :: rest => baseNumber 8 rest
    | '0' :: 'b' :: rest => baseNumber 2 rest
    | _ => decimalNumber cs

end IncludeDeps.Toml

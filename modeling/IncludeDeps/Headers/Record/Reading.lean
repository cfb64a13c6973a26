import IncludeDeps.Headers.Record
import IncludeDeps.Text.Json.Scan

/-!
# Reading header records

A record is read from an object that has each of the three parts once, in any order and possibly
among others, or from an array of the three parts.

* `HeaderRecord.read` reads one line.
-/

namespace IncludeDeps.HeaderRecord

open Json

/-- The parts that were read so far. -/
structure Parts where
  /-- The path by which the header was included. -/
  target : Option String := none
  /-- The header. -/
  header : Option String := none
  /-- The digits of its digest. -/
  digest : Option String := none

namespace Parts

/-- The part with a name; absent for another name. -/
def get? (parts : Parts) : String → Option (Option String)
  | "include" => some parts.target
  | "header" => some parts.header
  | "hash" => some parts.digest
  | _ => none

/-- Adds the part with a name. -/
def set (parts : Parts) (key value : String) : Parts :=
  match key with
  | "include" => { parts with target := some value }
  | "header" => { parts with header := some value }
  | "hash" => { parts with digest := some value }
  | _ => parts

/-- The record, if all parts are there. -/
def record? (parts : Parts) : Option HeaderRecord := do
  return ⟨← parts.target, ⟨← parts.header⟩, ← parts.digest⟩

end Parts

/-- Refuses a text with something after white space. -/
def atEnd {α : Type} (a : α) (rest : List Char) : Except ScanError α :=
  if (skipBlank rest).isEmpty then .ok a else .error .invalid

/-- The text after a colon. -/
def skipColon (cs : List Char) : Except ScanError (List Char) :=
  match skipBlank cs with
  | [] => .error .ended
  | ':' :: rest => .ok rest
  | _ => .error .invalid

/-- A member of an object, after the quote that opens its name. -/
def readMember (parts : Parts) (cs : List Char) : Except ScanError (Parts × List Char) := do
  let (key, rest) ← scanString none cs
  let key := String.ofList key
  match parts.get? key with
  | some (some _) => throw .invalid
  | some none =>
    let (value, rest) ← scanStringValue (← skipColon rest)
    return (parts.set key value, rest)
  | none => return (parts, ← skipValue (← skipColon rest))

/-- The members of an object, from the first one or from one after another; `fuel` bounds their
number. -/
def readMembers : (fuel : Nat) → (isFirst : Bool) → Parts → List Char →
    Except ScanError HeaderRecord
  | 0, _, _, _ => .error .invalid
  | fuel + 1, isFirst, parts, cs =>
    match skipBlank cs with
    | [] => .error .ended
    | '\x7d' :: rest =>
      match parts.record? with
      | some r => atEnd r rest
      | none => .error .invalid
    | c :: rest =>
      if isFirst || c = ',' then
        match skipBlank (if isFirst then c :: rest else rest) with
        | [] => .error .ended
        | '"' :: rest => do
          let (parts, rest) ← readMember parts rest
          readMembers fuel false parts rest
        | _ => .error .invalid
      else .error .invalid

/-- An item of an array, from the first one or from one after another. -/
def readItem (isFirst : Bool) (cs : List Char) : Scanned String :=
  match skipBlank cs with
  | [] => .error .ended
  | ']' :: _ => .error .invalid
  | c :: rest =>
    if isFirst then scanStringValue (c :: rest)
    else if c = ',' then
      match skipBlank rest with
      | ']' :: _ => .error .invalid
      | rest => scanStringValue rest
    else .error .invalid

/-- The three items of an array. -/
def readItems (cs : List Char) : Except ScanError HeaderRecord := do
  let (target, rest) ← readItem true cs
  let (header, rest) ← readItem false rest
  let (digest, rest) ← readItem false rest
  match skipBlank rest with
  | [] => throw .ended
  | ']' :: rest => atEnd ⟨target, ⟨header⟩, digest⟩ rest
  | _ => throw .invalid

/-- The record of a line. -/
def read (line : List Char) : Except ScanError HeaderRecord :=
  match skipBlank line with
  | [] => .error .ended
  | '\x7b' :: rest => readMembers (rest.length + 1) true {} rest
  | '[' :: rest => readItems rest
  | c :: rest => .error (refuse c rest)

end IncludeDeps.HeaderRecord

import IncludeDeps.Toml.Value.Reading

/-!
# TOML documents

A document is a sequence of sections, the first without a header.  A header `[a.b]` names a table,
which is defined once; a header `[[a.b]]` begins another table of an array.

* `Toml.Section` is a section, `Toml.sections?` reads those of a document;
* `Toml.Entries.place?` puts the table of a section into the document's;
* `Toml.parse?` reads a document, if it is one.
-/

namespace IncludeDeps.Toml

/-! ## Sections -/

/-- A header, or none, and the keys and values after it. -/
structure Section where
  /-- Where the table is; nothing for the document's own. -/
  path : List String
  /-- Whether the table is one of an array. -/
  inArray : Bool
  /-- The keys and values, in order. -/
  body : List (List String × Value)

/-- A section with another key and value. -/
def Section.push (s : Section) (kv : List String × Value) : Section :=
  { s with body := s.body ++ [kv] }

/-- A header, without the body of its section. -/
def header : List Char → Option (Section × List Char)
  | '[' :: '[' :: rest => do
    match ← key rest with
    | (path, ']' :: ']' :: rest) => return (⟨path, true, []⟩, rest)
    | _ => none
  | '[' :: rest => do
    match ← key rest with
    | (path, ']' :: rest) => return (⟨path, false, []⟩, rest)
    | _ => none
  | _ => none

/-- The sections of the rest of a document in which a section has begun; `fuel` bounds the number of
lines. -/
def sectionsFrom? : (fuel : Nat) → Section → List Char → Option (List Section)
  | 0, _, _ => none
  | fuel + 1, s, cs => do
    match skipBlank cs with
    | [] => return [s]
    | '[' :: rest =>
      let (next, rest) ← header ('[' :: rest)
      return s :: (← sectionsFrom? fuel next (← endLine? rest))
    | c :: rest =>
      if c = '#' ∨ c = '\n' ∨ c = '\r' then sectionsFrom? fuel s (← endLine? (c :: rest))
      else
        let (kv, rest) ← keyValue value (c :: rest)
        sectionsFrom? fuel (s.push kv) (← endLine? rest)

/-- The sections of a document; a byte order mark may stand before it. -/
def sections? (text : String) : Option (List Section) :=
  let cs := match text.toList with
    | '\uFEFF' :: rest => rest
    | cs => cs
  sectionsFrom? (cs.length + 1) ⟨[], false, []⟩ cs

/-! ## Tables -/

/-- Adds keys and values to a table. -/
def Entries.fill? (es : Entries) (body : List (List String × Value)) : Option Entries :=
  body.foldlM (fun es (k, v) => es.add? k v) es

/-- Puts the table of a section, at the rest of its path, into a table.  Tables on the way are made
if there are none, and of an array of tables the last one is meant.  A table that is there already
may be completed only if the header of a table inside it made it. -/
def Entries.place? (s : Section) : (path : List String) → Entries → Option Entries
  | [], es => es.fill? s.body
  | [key], es =>
    match s.inArray, es.get? key with
    | false, none => do return es.set key (.table .defined (← Entries.fill? [] s.body))
    | false, some (.table .implied inner) => do
      return es.set key (.table .defined (← Entries.fill? inner s.body))
    | true, none => do return es.set key (.tables [← Entries.fill? [] s.body])
    | true, some (.tables elements) => do
      return es.set key (.tables (elements ++ [← Entries.fill? [] s.body]))
    | _, _ => none
  | key :: rest, es =>
    match es.get? key with
    | none => do return es.set key (.table .implied (← place? s rest []))
    | some (.table .inline _) => none
    | some (.table kind inner) => do return es.set key (.table kind (← place? s rest inner))
    | some (.tables elements) => do
      let last ← place? s rest (elements.getLast?.getD [])
      return es.set key (.tables (elements.dropLast ++ [last]))
    | some _ => none

/-- The table that a document is. -/
def parse? (text : String) : Option Entries := do
  (← sections? text).foldlM (fun es s => es.place? s s.path) []

end IncludeDeps.Toml

import IncludeDeps.Digest
import IncludeDeps.Path
import IncludeDeps.Text.Json

/-!
# Header records

One line of a header dependencies file: a header, the path by which it was included, and the
digest of its content at that time.  A record is a JSON object with these three in this order.
-/

namespace IncludeDeps

/-- A header that a task depends on. -/
structure HeaderRecord where
  /-- The path by which it was included. -/
  target : String
  /-- The header. -/
  header : Path
  /-- The digits of its digest. -/
  digest : String
deriving DecidableEq

namespace HeaderRecord

/-- The names of the three parts. -/
def keys : List String := ["include", "header", "hash"]

/-- A record as a line, without a line break. -/
def line (r : HeaderRecord) : String :=
  "\x7b\"include\":" ++ Json.quote r.target ++ ",\"header\":" ++ Json.quote r.header.text ++
    ",\"hash\":" ++ Json.quote r.digest ++ "\x7d"

end HeaderRecord

end IncludeDeps

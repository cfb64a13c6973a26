/-!
# Faults

What can go wrong when files are read or written.  `Fault.message` is how a fault is told.
-/

namespace IncludeDeps

/-- A failure of an operation on files. -/
inductive Fault where
  /-- There is nothing by that name. -/
  | notFound
  /-- There is something by that name already. -/
  | alreadyExists
  /-- A directory is needed, and something else is there. -/
  | notADirectory
  /-- A directory is there, and something else is needed. -/
  | isADirectory
  /-- The name is one that the system holds on to. -/
  | busy
  /-- Symbolic links lead round and round, or there are too many of them. -/
  | tooManyLinks
  /-- A path or one of its names is too long. -/
  | nameTooLong
  /-- The operation makes no sense for its argument. -/
  | invalidInput (reason : String)
  /-- A content is not what it should be. -/
  | invalidData (reason : String)
  /-- A content ends too early. -/
  | unexpectedEnd (reason : String)
  /-- Another failure. -/
  | other (reason : String)
deriving DecidableEq, Inhabited

namespace Fault

/-- A failure as the operating system tells it, with its number. -/
def systemMessage (text : String) (number : Nat) : String :=
  text ++ " (os error " ++ number.repr ++ ")"

/-- How a failure is told. -/
def message : Fault → String
  | notFound => systemMessage "No such file or directory" 2
  | busy => systemMessage "Device or resource busy" 16
  | alreadyExists => systemMessage "File exists" 17
  | notADirectory => systemMessage "Not a directory" 20
  | isADirectory => systemMessage "Is a directory" 21
  | nameTooLong => systemMessage "File name too long" 36
  | tooManyLinks => systemMessage "Too many levels of symbolic links" 40
  | invalidInput reason | invalidData reason | unexpectedEnd reason | other reason => reason

/-- The failure to read a content that is no text. -/
def notUtf8 : Fault := invalidData "stream did not contain valid UTF-8"

/-- The failure to look up a path with a character that no name holds. -/
def zeroInName : Fault := invalidInput "file name contained an unexpected NUL byte"

/-- The failure to tell where the empty path leads. -/
def emptyPath : Fault := invalidInput "cannot make an empty path absolute"

end Fault

end IncludeDeps

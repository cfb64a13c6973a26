/-!
# Requests

What the words of a command line ask for.  Options have a long name, most of them a short one as
well, and some take a value: `--task main`, `--task=main`, `-t main`, `-t=main` and `-tmain` say the
same.  Short names may be run together, as in `-lt main`.  A command follows the options that hold
for all commands; these may also stand after it, among its own.  After `--` no option is read.

* `Request.ofWords` is what a command line asks for;
* `Given` has the options that were given, and what they amount to.
-/

namespace IncludeDeps

/-- What can be done with the tasks of a project. -/
inductive Command where
  /-- Find out what has changed, and remember the new state. -/
  | depend
  /-- Find out what has changed. -/
  | status
  /-- Forget states. -/
  | clean
deriving DecidableEq

namespace Command

/-- The name of a command. -/
def name : Command → String
  | depend => "depend"
  | status => "status"
  | clean => "clean"

/-- The commands, in the order in which they are told. -/
def all : List Command := [depend, status, clean]

/-- The command with a name. -/
def ofName? (s : String) : Option Command := all.find? fun c => c.name == s

end Command

/-- An option of the command line. -/
inductive Flag where
  /-- Print nothing but errors. -/
  | quiet
  /-- Print more. -/
  | verbose
  /-- Where the configuration is. -/
  | config
  /-- Print how long things took. -/
  | stats
  /-- A task to work on. -/
  | task
  /-- Print the files that have changed. -/
  | list
  /-- Print what can be asked for. -/
  | help
  /-- Print the version. -/
  | version
deriving DecidableEq

namespace Flag

/-- All options. -/
def all : List Flag := [quiet, verbose, config, stats, task, list, help, version]

/-- The long name. -/
def long : Flag → String
  | quiet => "quiet"
  | verbose => "verbose"
  | config => "config"
  | stats => "stats"
  | task => "task"
  | list => "list"
  | help => "help"
  | version => "version"

/-- The short name, if there is one. -/
def short? : Flag → Option Char
  | quiet => some 'q'
  | verbose => some 'v'
  | task => some 't'
  | list => some 'l'
  | help => some 'h'
  | version => some 'V'
  | config | stats => none

/-- Whether a value belongs to the option. -/
def takesValue : Flag → Bool
  | config | task => true
  | _ => false

/-- Whether the option may be given before a command, or after the given one. -/
def isAllowed (command : Option Command) : Flag → Bool
  | quiet | verbose | config | stats | help => true
  | version => command.isNone
  | task => command.isSome
  | list => command = some .depend || command = some .status

end Flag

/-- Options with their values, in the order in which they were given. -/
abbrev Given := List (Flag × String)

namespace Given

/-- Whether an option was given. -/
def has (g : Given) (f : Flag) : Bool := g.any (·.1 = f)

/-- The values that were given with an option. -/
def values (g : Given) (f : Flag) : List String := (g.filter (·.1 = f)).map (·.2)

/-- The value that was given last with an option. -/
def last? (g : Given) (f : Flag) : Option String := (g.values f).getLast?

end Given

/-- What is to be explained. -/
inductive Topic where
  /-- The program. -/
  | program
  /-- A command. -/
  | command (c : Command)
  /-- The command that explains. -/
  | help
deriving DecidableEq

/-- What a command line asks for. -/
inductive Request where
  /-- To run a command. -/
  | run (command : Command) (given : Given)
  /-- To print the version. -/
  | version
  /-- To explain something. -/
  | help (topic : Topic)
  /-- Nothing that can be done. -/
  | misuse
deriving DecidableEq

namespace Request

/-- What has been read from the front of a command line. -/
structure Reading where
  /-- The command. -/
  command : Option Command := none
  /-- The options before the command, once it has been read. -/
  before : Given := []
  /-- The options since then. -/
  given : Given := []
  /-- An option that lacks its value. -/
  pending : Option Flag := none
  /-- Whether there can be no more options. -/
  hasEnded : Bool := false

namespace Reading

/-- What is to be explained at this point. -/
def topic (r : Reading) : Topic := (r.command.map .command).getD .program

/-- Takes an option with its value, which is empty if it has none.  An option is given once, before
the command and after it; only tasks can be given several times. -/
def give (r : Reading) (f : Flag) (value : String) : Except Request Reading :=
  match f with
  | .help => .error (.help r.topic)
  | .version => .error .version
  | _ =>
    if f ≠ .task ∧ r.given.has f then .error .misuse
    else .ok { r with given := r.given ++ [(f, value)], pending := none }

/-- The option with a short name. -/
def shortFlag? (r : Reading) (c : Char) : Option Flag :=
  Flag.all.find? fun f => f.short? = some c && f.isAllowed r.command

/-- The option with a long name. -/
def longFlag? (r : Reading) (name : List Char) : Option Flag :=
  Flag.all.find? fun f => f.long.toList = name && f.isAllowed r.command

/-- Reads short names that are run together, up to one to which the rest is a value. -/
def readShort (r : Reading) : List Char → Except Request Reading
  | [] => .ok r
  | c :: rest =>
    match r.shortFlag? c with
    | none => .error .misuse
    | some f =>
      if f.takesValue then
        match rest with
        | [] => .ok { r with pending := some f }
        | '=' :: value => r.give f (String.ofList value)
        | value => r.give f (String.ofList value)
      else do readShort (← r.give f "") rest

/-- Reads a long name, which a value may follow after `=`. -/
def readLong (r : Reading) (cs : List Char) : Except Request Reading :=
  match r.longFlag? (cs.takeWhile (· ≠ '=')), cs.dropWhile (· ≠ '=') with
  | none, _ => .error .misuse
  | some f, [] => if f.takesValue then .ok { r with pending := some f } else r.give f ""
  | some f, _ :: value =>
    if f.takesValue then r.give f (String.ofList value) else .error .misuse

/-- Reads a word that is no option: the command. -/
def readName (r : Reading) (word : String) : Except Request Reading :=
  match r.command, r.hasEnded, Command.ofName? word with
  | none, false, some c => .ok { command := some c, before := r.given }
  | _, _, _ => .error .misuse

/-- Reads a word.  Unless it is a hyphen alone, a word with a hyphen in front is an option and no
value. -/
def read (r : Reading) (word : String) : Except Request Reading :=
  if r.hasEnded then .error .misuse
  else
    match r.pending, word.toList with
    | some _, '-' :: _ :: _ => .error .misuse
    | some f, _ => r.give f word
    | none, ['-', '-'] => .ok { r with hasEnded := true }
    | none, '-' :: '-' :: name => r.readLong name
    | none, '-' :: c :: rest => r.readShort (c :: rest)
    | none, _ => r.readName word

/-- What has been asked for at the end of the command line. -/
def finish (r : Reading) : Request :=
  match r.command, r.pending with
  | some c, none => .run c (r.before ++ r.given)
  | _, _ => .misuse

/-- Whether the next word can be a command. -/
def awaitsCommand (r : Reading) : Bool := r.command.isNone && r.pending.isNone && !r.hasEnded

end Reading

/-- What the words after `help` ask for. -/
def helpOn : List String → Request
  | [] => .help .program
  | [word] =>
    match Command.ofName? word with
    | some c => .help (.command c)
    | none => if word = "help" then .help .help else .misuse
  | _ => .misuse

/-- What the rest of a command line asks for. -/
def ofRest (r : Reading) : List String → Request
  | [] => r.finish
  | word :: rest =>
    if r.awaitsCommand ∧ word = "help" then helpOn rest
    else
      match r.read word with
      | .ok r => ofRest r rest
      | .error request => request

/-- What the words of a command line ask for. -/
def ofWords (words : List String) : Request := ofRest {} words

end Request

end IncludeDeps

import IncludeDeps.CommandLine.Request

/-!
# Help

What is printed to explain the program or one of its commands: what it does, how it is called, its
commands, and its options.
-/

namespace IncludeDeps

/-- The name of the program. -/
def programName : String := "cdep"

/-- The version of the program. -/
def programVersion : String := "0.1.0"

/-- What a command does. -/
def Command.about : Command → String
  | depend => "Detect header dependencies and record compilation state"
  | status => "Show what would be recompiled without recording anything"
  | clean => "Remove stored compilation state"

namespace Flag

/-- What an option does, or which tasks it chooses for a command. -/
def about (command : Option Command) : Flag → String
  | quiet => "Suppress all output except errors"
  | verbose => "Enable verbose (debug-level) output"
  | config => "Path to a custom `cdep.toml` configuration file or project directory"
  | stats => "Print operation timings after the command"
  | task =>
    let verb := match command with
      | some .status => "check"
      | some .clean => "clean"
      | _ => "run"
    "Task names to " ++ verb ++ " (default: every task in `cdep.toml`)"
  | list => "List the individual files to recompile and removed"
  | help => "Print help"
  | version => "Print version"

/-- How an option is written. -/
def usage (f : Flag) : String :=
  let short := match f.short? with
    | some c => String.ofList ['-', c, ',', ' ']
    | none => "    "
  let value := match f with
    | config => " <CONFIG>"
    | task => " <TASK>"
    | _ => ""
  short ++ "--" ++ f.long ++ value

/-- The options before a command or after it, in the order in which they are told. -/
def order (command : Option Command) : List Flag :=
  [quiet, task, list, verbose, config, stats, help, version].filter (isAllowed command)

end Flag

namespace Help

/-- A text with blanks after it, up to a width. -/
def padRight (width : Nat) (s : String) : String :=
  s ++ String.ofList (List.replicate (width - s.length) ' ')

/-- Lines of two columns under a title. -/
def table (title : String) (rows : List (String × String)) : String :=
  let width := (rows.map (·.1.length)).foldl max 0
  title ++ ":\n" ++
    String.join (rows.map fun (left, right) => "  " ++ padRight (width + 2) left ++ right ++ "\n")

/-- The options before a command or after it. -/
def options (command : Option Command) : String :=
  table "Options" ((Flag.order command).map fun f => (f.usage, f.about command))

/-- What the command that explains does. -/
def aboutHelp : String := "Print this message or the help of the given subcommand(s)"

/-- What is printed to explain something. -/
def text : Topic → String
  | .program =>
    "Incremental change detection for C-family builds\n\nUsage: " ++ programName ++
      " [OPTIONS] <COMMAND>\n\n" ++
      table "Commands" (Command.all.map (fun c => (c.name, c.about)) ++ [("help", aboutHelp)]) ++
      "\n" ++ options none
  | .command c =>
    c.about ++ "\n\nUsage: " ++ programName ++ " " ++ c.name ++ " [OPTIONS]\n\n" ++
      options (some c)
  | .help =>
    aboutHelp ++ "\n\nUsage: " ++ programName ++ " help [COMMAND]...\n\n" ++
      table "Arguments" [("[COMMAND]...", "Print help for the subcommand(s)")]

end Help

end IncludeDeps

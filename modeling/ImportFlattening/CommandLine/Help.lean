import ImportFlattening.CommandLine

/-! # Help

The pages that say how the program and its actions are used.
-/

namespace ImportFlattening

namespace CommandLine

namespace OptionSpec

/-- The option as it stands in a table, with or without a letter. -/
def spelled (spec : OptionSpec) : String :=
  let letter := match spec.letter with
    | some c => String.ofList ['-', c, ',', ' ']
    | none => "    "
  let value := if spec.takesValue then " <" ++ spec.name.toUpper ++ ">" else ""
  letter ++ "--" ++ spec.name ++ value

end OptionSpec

namespace ActionName

def about : ActionName → String
  | flatten => "Flatten the target of a compilation event"
  | order => "Print the concatenation order without flattening"
  | version => "Show version"
  | help => "Print this message or the help of the given subcommand(s)"

end ActionName

/-- A page of help. -/
structure Page where
  about : String
  usage : String
  /-- The tables of the page, each under its title. -/
  tables : List (String × List (String × String))

namespace Page

/-- A table in two columns, of which the first is as wide as its longest text. -/
def table (rows : List (String × String)) : String :=
  let width := rows.foldl (fun width row => Nat.max width row.1.length) 0
  String.join (rows.map fun row =>
    let blanks := String.ofList (List.replicate (width - row.1.length) ' ')
    "  " ++ row.1 ++ blanks ++ "  " ++ row.2 ++ "\n")

def text (page : Page) : String :=
  page.about ++ "\n\nUsage: solflat " ++ page.usage ++ "\n" ++
    String.join (page.tables.map fun t => "\n" ++ t.1 ++ ":\n" ++ table t.2)

def actions : String × List (String × String) :=
  ("Commands", ActionName.named.map fun (name, action) => (name, action.about))

def options (specs : List OptionSpec) : String × List (String × String) :=
  ("Options", (specs ++ [helpOption]).map fun spec => (spec.spelled, spec.about))

def event : String × List (String × String) :=
  ("Arguments", [("<EVENT>", "Compilation-finished event as JSON")])

/-- The page about the program. -/
def program : Page where
  about := "Flatten a multi-file Solidity compilation into one file"
  usage := "[OPTIONS] <COMMAND>"
  tables := [actions, options generalOptions]

def ofAction (name : ActionName) : Page :=
  match name with
  | .flatten => ⟨name.about, "flatten [OPTIONS] <EVENT>", [event, options name.options]⟩
  | .order => ⟨name.about, "order <EVENT>", [event, options name.options]⟩
  | .version => ⟨name.about, "version", [options name.options]⟩
  | .help => ⟨name.about, "help [COMMAND]...",
    [("Arguments", [("[COMMAND]...", "Print help for the subcommand(s)")])]⟩

def ofTopic : Option ActionName → Page
  | none => program
  | some name => ofAction name

end Page

end CommandLine

end ImportFlattening

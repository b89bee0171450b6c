/-! # Command line

The arguments are read from left to right. Options before the name of an action are general, and
those after it belong to the action; none may be given twice, and none may be shortened. Where help
is asked for, the arguments after that count for nothing.
-/

namespace ImportFlattening

inductive CommandLine.ActionName where
  | flatten
  | order
  | version
  | help
  deriving DecidableEq, Repr

/-- What the program is asked to do. -/
inductive Action where
  | flatten (event : String) (print save : Bool) (clipboard : Option String)
  | order (event : String)
  | version
  /-- Help with an action, or with the program. -/
  | help (topic : Option CommandLine.ActionName)
  deriving DecidableEq, Repr

structure Invocation where
  verbose : Bool := false
  /-- The directory with the configuration, which files are saved in. -/
  root : String := "."
  action : Action
  deriving DecidableEq, Repr

namespace CommandLine

/-- An option as it may be spelled. -/
structure OptionSpec where
  letter : Option Char
  name : String
  takesValue : Bool
  about : String
  deriving DecidableEq, Repr

def generalOptions : List OptionSpec := [
  ⟨some 'v', "verbose", false, "Enable verbose logging"⟩,
  ⟨some 'r', "root", true,
    "Working root: holds solflat.toml and receives saved output [default: .]"⟩]

/-- The option for help, which the program shares with its actions. -/
def helpOption : OptionSpec := ⟨some 'h', "help", false, "Print help"⟩

namespace ActionName

def named : List (String × ActionName) :=
  [("flatten", flatten), ("order", order), ("version", version), ("help", help)]

def options : ActionName → List OptionSpec
  | flatten => [
    ⟨none, "stdout", false, "Print the flattened source to stdout"⟩,
    ⟨none, "no-save", false, "Do not write the flattened file under the root"⟩,
    ⟨none, "clipboard", true, "File that stands in for the clipboard"⟩]
  | order => []
  | version => []
  | help => []

/-- Whether something may follow that is no option: an event, or for `help` the name of an action. -/
def takesOperand (name : ActionName) : Bool := name ≠ version

end ActionName

inductive Form where
  /-- Two dashes alone: no argument after it is an option. -/
  | escape
  /-- An option by name, perhaps with a value after an equals sign. -/
  | long (name : String) (value : Option String)
  /-- Options by letter. The last may have its value attached. -/
  | short (letters : List Char)
  | plain (text : String)
  deriving DecidableEq, Repr

def formOf (argument : String) : Form :=
  match argument.toList with
  | ['-', '-'] => .escape
  | '-' :: '-' :: rest =>
    let name := String.ofList (rest.takeWhile (· ≠ '='))
    match rest.dropWhile (· ≠ '=') with
    | _ :: value => .long name (some (String.ofList value))
    | [] => .long name none
  | '-' :: letter :: letters => .short (letter :: letters)
  | _ => .plain argument

/-- The arguments read so far. -/
structure Reading where
  action : Option ActionName := none
  /-- The options given, each with its value if it takes one. -/
  given : List (String × String) := []
  /-- The option that waits for its value. -/
  waiting : Option String := none
  escaped : Bool := false
  operand : Option String := none
  /-- The help that an option has asked for. -/
  topic : Option (Option ActionName) := none
  deriving DecidableEq, Repr

namespace Reading

def options (r : Reading) : List OptionSpec :=
  match r.action with
  | none => generalOptions ++ [helpOption]
  | some name => name.options ++ [helpOption]

/-- Note an option, unless it has been given before. A value must not be empty. The option for help
leaves only the help to be asked for. -/
def give (r : Reading) (spec : OptionSpec) (value : String) : Option Reading :=
  if spec = helpOption then some { r with topic := some r.action }
  else if (r.given.lookup spec.name).isSome || (spec.takesValue && value = "") then none
  else some { r with given := r.given ++ [(spec.name, value)], waiting := none }

/-- Note an option of which the value is the next argument. -/
def await (r : Reading) (spec : OptionSpec) : Reading := { r with waiting := some spec.name }

def long (r : Reading) (name : String) (value : Option String) : Option Reading := do
  let spec ← r.options.find? (·.name = name)
  match spec.takesValue, value with
  | true, some v => r.give spec v
  | true, none => return r.await spec
  | false, some _ => none
  | false, none => r.give spec ""

def short (r : Reading) : List Char → Option Reading
  | [] => some r
  | letter :: rest => do
    let spec ← r.options.find? (·.letter = some letter)
    match spec.takesValue, rest with
    | false, _ =>
      let r ← r.give spec ""
      if r.topic.isSome then return r else r.short rest
    | true, [] => return r.await spec
    | true, '=' :: value => r.give spec (String.ofList value)
    | true, value => r.give spec (String.ofList value)

/-- Read an operand, of which there is at most one and which must not be empty. -/
def addOperand (r : Reading) (name : ActionName) (text : String) : Option Reading :=
  if !name.takesOperand || r.operand.isSome || text = "" then none
  else some { r with operand := some text }

/-- Read the name of the action, or what follows it. What follows `help` is never an option. -/
def plain (r : Reading) (text : String) : Option Reading :=
  match r.action with
  | some name => r.addOperand name text
  | none =>
    if r.escaped then none
    else (ActionName.named.lookup text).map fun name =>
      { r with action := some name, escaped := name = .help }

/-- Read the next argument. An option that waits takes only a plain one for its value. -/
def step (r : Reading) (argument : String) : Option Reading :=
  if r.topic.isSome then some r
  else if r.escaped then r.plain argument
  else
    match formOf argument, r.waiting with
    | .plain text, some name => do
      let spec ← r.options.find? (·.name = name)
      r.give spec text
    | .plain text, none => r.plain text
    | _, some _ => none
    | .escape, none => some { r with escaped := true }
    | .long name value, none => r.long name value
    | .short letters, none => r.short letters

/-- Whether an option without a value has been given. -/
def has (r : Reading) (name : String) : Bool := (r.given.lookup name).isSome

def requested (r : Reading) : ActionName → Option Action
  | .flatten => do
    return .flatten (← r.operand) (r.has "stdout") (!r.has "no-save") (r.given.lookup "clipboard")
  | .order => do return .order (← r.operand)
  | .version => some .version
  | .help =>
    match r.operand with
    | none => some (.help none)
    | some name => do return .help (some (← ActionName.named.lookup name))

/-- What all arguments together ask for. -/
def finish (r : Reading) : Option Invocation := do
  if r.waiting.isSome then none
  let action ← match r.topic with
    | some topic => some (Action.help topic)
    | none => r.requested (← r.action)
  return { verbose := r.has "verbose", root := (r.given.lookup "root").getD ".", action }

end Reading

/-- What the arguments after the program's name ask for, if they are in order. -/
def parse (arguments : List String) : Option Invocation := do
  (← arguments.foldlM Reading.step {}).finish

end CommandLine

end ImportFlattening

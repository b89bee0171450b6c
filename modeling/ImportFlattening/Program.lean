import ImportFlattening.CommandLine.Help
import ImportFlattening.LocalHost
import ImportFlattening.Session

/-! # The program

One run of the program: the arguments decide on an action, which reads the configuration and the
event and then flattens the target or lists its files.
-/

namespace ImportFlattening

/-- Why the input of a run cannot be had. -/
inductive LoadError where
  | cannotRead (path : String)
  /-- The configuration makes no sense. -/
  | invalid (path : String)
  | cannotReadEvent (path : String)
  | malformedEvent
  deriving DecidableEq, Repr

namespace LoadError

def message : LoadError → String
  | cannotRead path => "Cannot read " ++ path
  | invalid path => "Invalid " ++ path
  | cannotReadEvent path => "Cannot read compilation event " ++ path
  | malformedEvent => "Malformed compilation event"

end LoadError

variable {m : Type → Type} [Monad m]

namespace Config

def path (root : String) : String := Path.join root "solflat.toml"

/-- The configuration of the project in `root`. Without a file it is the default. -/
def load (storage : Storage m) (root : String) : ExceptT LoadError m Config := do
  match ← storage.readText (path root) with
  | .error .notFound => return {}
  | .error _ => throw (.cannotRead (path root))
  | .ok text =>
    match parse text with
    | none => throw (.invalid (path root))
    | some config => return config

end Config

namespace CompileEvent

def load (storage : Storage m) (path : String) : ExceptT LoadError m CompileEvent := do
  match ← storage.readText path with
  | .error _ => throw (.cannotReadEvent path)
  | .ok text =>
    match parse text with
    | none => throw .malformedEvent
    | some event => return event

end CompileEvent

inductive ProgramError where
  | loading (error : LoadError)
  | command (error : CommandError)
  deriving DecidableEq, Repr

namespace ProgramError

def message : ProgramError → String
  | loading error => error.message
  | command error => error.message

end ProgramError

/-- What a run leaves besides the files. -/
structure Outcome where
  exit : Nat
  output : String := ""
  /-- The message of the error that ended the run. -/
  failure : Option String := none
  deriving DecidableEq, Repr

namespace Program

def versionLine : String := "Solflat v0.1.0\n"

/-- A number in at least three columns. -/
def column (n : Nat) : String :=
  let digits := Nat.toDigits 10 n
  String.ofList (List.replicate (3 - digits.length) ' ' ++ digits)

/-- The lines that list an order: the files by number, then the imports that had no say in it. -/
def lines (order : FlatOrder) : List String :=
  let files := order.names.mapIdx fun n name => column (n + 1) ++ ". " ++ name.text
  let cycles := order.cycles.map fun i =>
    "cycle: " ++ i.importer.text ++ " -> " ++ i.dependee.text ++ " (ignored)"
  let skipped := order.skipped.map fun i =>
    "skipped: " ++ i.importer.text ++ " imports missing " ++ i.dependee.text
  files ++ cycles ++ skipped

def listing (order : FlatOrder) : String := String.join ((lines order).map (· ++ "\n"))

def input (storage : Storage m) (root event : String) :
    ExceptT ProgramError m (Config × CompileEvent) :=
  ExceptT.adapt ProgramError.loading do
    let config ← Config.load storage root
    return (config, ← CompileEvent.load storage event)

/-- List the order of the files without flattening them. -/
def order (storage : Storage m) (root event : String) : ExceptT ProgramError m String := do
  let (config, event) ← input storage root event
  match event.compilation.order config.policy with
  | .ok order => return listing order
  | .error e => throw (.command (.flattening e))

/-- Take over the event and flatten its target, with a local host. -/
def flattenEvent (storage : Storage m) (host : LocalHost) (config : Config)
    (event : CompileEvent) : Session.Run (StateT (List Status) m) Flattened := do
  discard (Session.compilationFinished (host.serve storage) event)
  Session.flatten (host.serve storage) config

/-- Flatten the target of an event. The answer is its text. -/
def flatten (storage : Storage m) (root event : String) (save : Bool) (clipboard : Option String) :
    ExceptT ProgramError m String := do
  let (config, event) ← input storage root event
  let host : LocalHost := { root, clipboard, readOnly := !save }
  let ((result, _), _) ← (((flattenEvent storage host config event).run.run {}).run [] : m _)
  match result with
  | .ok flattened => return flattened.text
  | .error e => throw (.command e)

/-- Perform an action. The answer is what it prints. -/
def perform (storage : Storage m) (root : String) : Action → ExceptT ProgramError m String
  | .flatten event print save clipboard => do
    let text ← flatten storage root event save clipboard
    return if print then text else ""
  | .order event => order storage root event
  | .version => pure versionLine
  | .help topic => pure (CommandLine.Page.ofTopic topic).text

/-- Run the program. Arguments that are not in order end it with the exit code 2. -/
def run (storage : Storage m) (arguments : List String) : m Outcome := do
  match CommandLine.parse arguments with
  | none => return { exit := 2 }
  | some invocation =>
    match ← (perform storage invocation.root invocation.action).run with
    | .ok output => return { exit := 0, output }
    | .error e => return { exit := 1, failure := some e.message }

end Program

end ImportFlattening

import ImportFlattening.CompileEvent
import ImportFlattening.Config
import ImportFlattening.Flattened
import ImportFlattening.Host

/-! # Sessions

A session holds the latest compilation and, once it has been flattened, the result. A command
changes this state first and then calls the host; the first call that fails ends the command. The
failure of a command is reported as a status, and whether that succeeds is of no further concern.
-/

namespace ImportFlattening

inductive CommandError where
  | flattening (error : Error)
  | host (error : HostError)
  deriving DecidableEq, Repr

namespace CommandError

def message : CommandError → String
  | flattening error => error.message
  | host error => error.message

end CommandError

structure Session where
  compilation : Option Compilation := none
  /-- What has been flattened from it. -/
  flattened : Option Flattened := none
  deriving DecidableEq

inductive Command where
  | compiled (event : CompileEvent)
  | flatten
  | save
  deriving DecidableEq

namespace Command

def name : Command → String
  | compiled _ => "compilation-finished"
  | flatten => "flatten"
  | save => "save"

end Command

namespace Session

def target? (s : Session) : Option SourceName := s.compilation.map Compilation.target

def flattenedTitle : String := "Contract flattened"

def deliveries (naming : OutputNaming) (f : Flattened) : List HostCall :=
  [.clipboard f.text, .file (naming.outputPath f.target) f.text,
    .status (.succeeded flattenedTitle), .alert flattenedTitle]

def savings (naming : OutputNaming) (f : Flattened) : List HostCall :=
  let path := naming.outputPath f.target
  [.file path f.text, .status (.saved ("Saved " ++ path))]

/-- The flattened text that can be saved. -/
def saveable (s : Session) : Except Error Flattened :=
  match s.compilation, s.flattened with
  | none, _ => .error .noCompilation
  | some c, none => .error (.notFlattened c.target)
  | some _, some f => .ok f

variable {m : Type → Type} [Monad m]

/-- Run a command of a session: it may fail, and the state that it leaves counts even then. -/
abbrev Run (m : Type → Type) := ExceptT CommandError (StateT Session m)

/-- Make the calls one after the other up to the first that fails. -/
def callAll (host : Host m) (calls : List HostCall) : Run m Unit :=
  calls.forM fun call => do
    match ← (host call).run with
    | .ok _ => pure ()
    | .error e => throw (.host e)

/-- Report the failure of a command as a status. -/
def reporting {α : Type} (host : Host m) (command : Run m α) : Run m α :=
  tryCatch command fun e => do
    let _ ← (host (.status (.failed e.message))).run
    throw e

/-- A result that may be a failure to flatten. -/
def orFail {α : Type} : Except Error α → Run m α
  | .ok a => pure a
  | .error e => throw (.flattening e)

/-- Take over a compilation. The answer is the label of the button that flattens it. -/
def compilationFinished (host : Host m) (event : CompileEvent) : Run m String := do
  set { compilation := some event.compilation : Session }
  callAll host [.status .idle]
  return actionLabel event.file

/-- Flatten the latest compilation and deliver the text. -/
def flatten (host : Host m) (config : Config) : Run m Flattened :=
  reporting host do
    let f ← orFail (flattenLatest (← get).compilation config.policy)
    modify ({ · with flattened := some f })
    callAll host (deliveries config.naming f)
    return f

/-- Save the text that has been flattened. The answer is its path. -/
def save (host : Host m) (config : Config) : Run m String :=
  reporting host do
    let f ← orFail (← get).saveable
    callAll host (savings config.naming f)
    return config.naming.outputPath f.target

def execute (host : Host m) (config : Config) : Command → Run m Unit
  | .compiled event => discard (compilationFinished host event)
  | .flatten => discard (flatten host config)
  | .save => discard (save host config)

/-- Execute commands one after the other. A failure does not keep the next from being executed. -/
def run (host : Host m) (config : Config) (commands : List Command) : StateT Session m Unit :=
  commands.forM fun command => discard (execute host config command).run

end Session

end ImportFlattening

import ImportFlattening.Host
import ImportFlattening.Storage

/-! # Local hosts

A local host keeps files in a directory of a storage. Its clipboard is a file of its own, and
statuses go into a history.
-/

namespace ImportFlattening

structure LocalHost where
  root : String
  /-- The file that stands in for the clipboard; without one, copied text is lost. -/
  clipboard : Option String := none
  /-- Whether files are accepted without being kept. The clipboard is written all the same. -/
  readOnly : Bool := false
  deriving DecidableEq, Repr

namespace LocalHost

variable {m : Type → Type} [Monad m]

def resolve (host : LocalHost) (path : String) : Except HostError String :=
  if Path.escapes path then .error (.refused path) else .ok (Path.join host.root path)

/-- Write a file, making its directory if need be. -/
def keepFile (storage : Storage m) (path text : String) : ExceptT HostError m Unit := do
  if let some directory := Path.parent? path then
    match ← storage.createDirectories directory with
    | .ok _ => pure ()
    | .error _ => throw (.cannotCreate directory)
  match ← storage.writeText path text with
  | .ok _ => pure ()
  | .error _ => throw (.cannotWrite path)

def setFile (host : LocalHost) (storage : Storage m) (path text : String) :
    ExceptT HostError m Unit := do
  let full ← liftExcept (host.resolve path)
  if host.readOnly then return
  keepFile storage full text
where
  liftExcept {α : Type} : Except HostError α → ExceptT HostError m α
    | .ok a => pure a
    | .error e => throw e

def copy (host : LocalHost) (storage : Storage m) (text : String) : ExceptT HostError m Unit := do
  if let some path := host.clipboard then
    match ← storage.writeText path text with
    | .ok _ => pure ()
    | .error _ => throw (.cannotWriteClipboard path)

/-- Answer a call. Statuses are added to the history; alerts leave no trace. -/
def serve (host : LocalHost) (storage : Storage m) : Host (StateT (List Status) m)
  | .status status => modify (· ++ [status])
  | .alert _ => pure ()
  | .clipboard text => ExceptT.mk (StateT.lift (host.copy storage text).run)
  | .file path text => ExceptT.mk (StateT.lift (host.setFile storage path text).run)

end LocalHost

end ImportFlattening

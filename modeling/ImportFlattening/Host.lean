import ImportFlattening.Status

/-! # Hosts

A session acts on the outside only by calls to its host. A call may fail; what it does otherwise is
the host's affair.
-/

namespace ImportFlattening

/-- What a session asks of its host. -/
inductive HostCall where
  | status (status : Status)
  /-- Show a message for a moment. -/
  | alert (message : String)
  | clipboard (text : String)
  /-- Keep a text under a path below the host's root. -/
  | file (path text : String)
  deriving DecidableEq, Repr

namespace HostCall

def kind : HostCall → String
  | status _ => "status"
  | alert _ => "alert"
  | clipboard _ => "clipboard"
  | file _ _ => "file"

end HostCall

/-- Why a host has not done what it was asked. -/
inductive HostError where
  | refused (path : String)
  /-- The directory of a file cannot be made. -/
  | cannotCreate (path : String)
  | cannotWrite (path : String)
  | cannotWriteClipboard (path : String)
  /-- Calls of this kind are not served at present. -/
  | unavailable (kind : String)
  /-- Any other cause, in the host's own words. -/
  | other (message : String)
  deriving DecidableEq, Repr

namespace HostError

def message : HostError → String
  | refused path => "Refusing to write outside the host root: " ++ path
  | cannotCreate path => "Cannot create " ++ path
  | cannotWrite path => "Cannot write " ++ path
  | cannotWriteClipboard path => "Cannot write clipboard file " ++ path
  | unavailable kind => kind ++ " unavailable"
  | other message => message

end HostError

/-- A host answers calls in a monad of its own. -/
abbrev Host (m : Type → Type) := HostCall → ExceptT HostError m Unit

namespace Host

variable {m : Type → Type} [Monad m]

/-- The host that does nothing and never fails. -/
def silent : Host m := fun _ => pure ()

/-- A host that keeps a record of the calls, refuses those of the given kinds and leaves the others
to `inner`. -/
def recording (unavailable : List String) (inner : Host m) : Host (StateT (List HostCall) m) :=
  fun call => do
    modify (· ++ [call])
    if unavailable.contains call.kind then throw (.unavailable call.kind)
    let answer ← (inner call).run
    match answer with
    | .ok _ => return
    | .error e => throw e

end Host

end ImportFlattening

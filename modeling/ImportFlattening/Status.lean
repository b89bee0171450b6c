import ImportFlattening.Compilation.Wire

/-! # Statuses

What a session shows the user after each command.
-/

namespace ImportFlattening

/-- What has happened. -/
inductive StatusKey where
  /-- A compilation has arrived and nothing has been done with it. -/
  | none
  /-- The target has been flattened. -/
  | succeed
  | failed
  | saved
  deriving DecidableEq, Repr

/-- How a status is coloured. -/
inductive StatusTone where
  | success
  | error
  | info
  deriving DecidableEq, Repr

structure Status where
  key : StatusKey
  tone : Option StatusTone := Option.none
  title : Option String := Option.none
  deriving DecidableEq, Repr

namespace StatusKey

/-- The keys by the names they have in documents. -/
def named : List (String × StatusKey) :=
  [("none", none), ("succeed", succeed), ("failed", failed), ("saved", saved)]

def name : StatusKey → String
  | none => "none"
  | succeed => "succeed"
  | failed => "failed"
  | saved => "saved"

end StatusKey

namespace StatusTone

/-- The tones by the names they have in documents. -/
def named : List (String × StatusTone) := [("success", success), ("error", error), ("info", info)]

def name : StatusTone → String
  | success => "success"
  | error => "error"
  | info => "info"

end StatusTone

namespace Status

/-- Nothing has been done yet. -/
def idle : Status := { key := .none }

def succeeded (title : String) : Status := ⟨.succeed, some .success, some title⟩

def failed (title : String) : Status := ⟨.failed, some .error, some title⟩

def saved (title : String) : Status := ⟨.saved, some .info, some title⟩

def toDocument (status : Status) : Document :=
  .record (("key", .text status.key.name) ::
    Document.textMember "type" (status.tone.map StatusTone.name) ++
    Document.textMember "title" status.title)

def ofDocument? (d : Document) : Option Status := do
  let [key, tone, title] ← d.fields .json ["key", "type", "title"] | Option.none
  return {
    key := ← Document.variant? .json StatusKey.named (← key)
    tone := ← Document.optional (Document.variant? .json StatusTone.named) tone
    title := ← Document.optional Document.text? title }

end Status

/-- What the button says that flattens `file`: the file without its directory. -/
def actionLabel (file : String) : String := "Flatten " ++ (SourceName.mk file).fileName

end ImportFlattening

import ImportFlattening.Document.Format
import ImportFlattening.Import
import ImportFlattening.OutputNaming
import ImportFlattening.Toml

/-! # Configuration

The settings of a project. Every one of them may be left out.
-/

namespace ImportFlattening

structure Config where
  policy : Policy := {}
  naming : OutputNaming := {}
  deriving DecidableEq, Repr

namespace UnresolvedPolicy

/-- The policies by the names they have in documents. -/
def named : List (String × UnresolvedPolicy) := [("fail", fail), ("skip", skip)]

def name : UnresolvedPolicy → String
  | fail => "fail"
  | skip => "skip"

end UnresolvedPolicy

namespace CyclePolicy

/-- The policies by the names they have in documents. -/
def named : List (String × CyclePolicy) := [("break", drop), ("keep", keep)]

def name : CyclePolicy → String
  | drop => "break"
  | keep => "keep"

end CyclePolicy

namespace Policy

def toDocument (policy : Policy) : Document :=
  .record [("unresolved_imports", .text policy.unresolved.name), ("cycles", .text policy.cycles.name)]

def ofDocument? (format : Format) (d : Document) : Option Policy := do
  let [unresolved, cycles] ← d.fields format ["unresolved_imports", "cycles"] | none
  let default : Policy := {}
  return {
    unresolved := ← Document.fieldD default.unresolved
      (Document.variant? format UnresolvedPolicy.named) unresolved
    cycles := ← Document.fieldD default.cycles (Document.variant? format CyclePolicy.named) cycles }

end Policy

namespace OutputNaming

def toDocument (naming : OutputNaming) : Document :=
  .record [("directory", .text naming.directory), ("suffix", .text naming.suffix),
    ("extension", .text naming.extension)]

def ofDocument? (format : Format) (d : Document) : Option OutputNaming := do
  let [directory, suffix, extension] ← d.fields format ["directory", "suffix", "extension"] | none
  let default : OutputNaming := {}
  return {
    directory := ← Document.fieldD default.directory Document.text? directory
    suffix := ← Document.fieldD default.suffix Document.text? suffix
    extension := ← Document.fieldD default.extension Document.text? extension }

end OutputNaming

namespace Config

def toDocument (config : Config) : Document :=
  .record [("flatten", config.policy.toDocument), ("output", config.naming.toDocument)]

def ofDocument? (format : Format) (d : Document) : Option Config := do
  let [policy, naming] ← d.fields format ["flatten", "output"] | none
  return {
    policy := ← Document.fieldD {} (Policy.ofDocument? format) policy
    naming := ← Document.fieldD {} (OutputNaming.ofDocument? format) naming }

def parse (text : String) : Option Config := do ofDocument? .toml (← Toml.parse text)

end Config

end ImportFlattening

import ImportFlattening.Discovery
import ImportFlattening.FlatText
import ImportFlattening.ImportGraph.Linearize

/-! # Flattening a compilation

The target's import graph is discovered and linearized, and the texts are joined in that order.
-/

namespace ImportFlattening

/-- The order of a target's files, and the imports that had no say in it. -/
structure FlatOrder where
  /-- Every file after all that it imports, the target last. -/
  names : List SourceName
  /-- The imports that closed a cycle. -/
  cycles : List Import
  /-- The imports of files without a syntax tree. -/
  skipped : List Import
  deriving DecidableEq, Repr

/-- A target's files in one text. -/
structure Flattened where
  target : SourceName
  order : FlatOrder
  text : String
  deriving DecidableEq, Repr

namespace Compilation

def order (c : Compilation) (policy : Policy) : Except Error FlatOrder := do
  let found ← discover c.units policy c.target
  let names ← found.graph.linearize c.target
  return { names, cycles := found.cycles, skipped := found.skipped }

/-- The target and everything it imports as one text. -/
def flatten (c : Compilation) (policy : Policy) : Except Error Flattened := do
  let order ← c.order policy
  let text ← FlatText.concatenate c.texts order.names
  return { target := c.target, order, text }

end Compilation

/-- Flatten the compilation at hand, if there is one. -/
def flattenLatest (latest : Option Compilation) (policy : Policy) : Except Error Flattened :=
  match latest with
  | none => .error .noCompilation
  | some c => c.flatten policy

end ImportFlattening

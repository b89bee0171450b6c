import ImportFlattening.Compilation
import ImportFlattening.SourceName.Resolve

/-! # Imports and the policies on them

An import is one occurrence of an import directive together with the name that it resolves to.
Two policies decide about imports that cannot become part of an order: those of files that the
compilation has no syntax tree of, and those that close a cycle.
-/

namespace ImportFlattening

/-- An import directive of the file `importer`, resolved to the file `dependee`. -/
structure Import where
  importer : SourceName
  dependee : SourceName
  specifier : String
  deriving DecidableEq, Repr

/-- The imports of a file, in source order. -/
def SourceUnit.importsFrom (unit : SourceUnit) (name : SourceName) : List Import :=
  unit.imports.map fun specifier => ⟨name, name.resolve specifier, specifier⟩

/-- What to do about an import of a file without a syntax tree. -/
inductive UnresolvedPolicy where
  /-- Refuse the compilation. -/
  | fail
  /-- Note the import and go on without it. -/
  | skip
  deriving DecidableEq, Repr

/-- What to do about an import of a file that is still being resolved itself. -/
inductive CyclePolicy where
  /-- Leave the import out of the graph. -/
  | drop
  /-- Keep the import, so that the graph has no order. -/
  | keep
  deriving DecidableEq, Repr

structure Policy where
  unresolved : UnresolvedPolicy := .fail
  cycles : CyclePolicy := .drop
  deriving DecidableEq, Repr

end ImportFlattening

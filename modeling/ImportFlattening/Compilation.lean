import ImportFlattening.NameMap

/-! # Compilations

What a compiler hands over: the text of every file it read, and for every file it parsed the
top-level nodes of the syntax tree. A file may have a text without a tree or a tree without a text.
-/

namespace ImportFlattening

/-- A top-level node of a file's syntax tree. -/
structure SyntaxNode where
  /-- The compiler's word for what the node declares. -/
  kind : String
  /-- The specifier of an import as written; other nodes seldom have one. -/
  file : Option String := none
  deriving DecidableEq, Repr

namespace SyntaxNode

def importKind : String := "ImportDirective"

def importing (specifier : String) : SyntaxNode := ⟨importKind, some specifier⟩

def declaring (kind : String) : SyntaxNode := ⟨kind, none⟩

def isImport (node : SyntaxNode) : Bool := node.kind = importKind

end SyntaxNode

/-- The syntax tree of one file, down to its top-level nodes. -/
structure SourceUnit where
  nodes : List SyntaxNode := []
  deriving DecidableEq, Repr

namespace SourceUnit

/-- The unit that only imports the given specifiers. -/
def ofImports (specifiers : List String) : SourceUnit := ⟨specifiers.map SyntaxNode.importing⟩

/-- The specifiers of the unit's imports, in source order. -/
def imports (unit : SourceUnit) : List String :=
  unit.nodes.filterMap fun node => if node.isImport then node.file else none

end SourceUnit

/-- One finished compilation, seen from the file that it was run for. -/
structure Compilation where
  target : SourceName
  texts : NameMap String := ∅
  units : NameMap SourceUnit := ∅
  languageVersion : Option String := none
  deriving DecidableEq

namespace Compilation

/-- Add a file with its text and imports, over an earlier file of the same name. -/
def addFile (c : Compilation) (name : SourceName) (text : String) (specifiers : List String) :
    Compilation :=
  { c with
    texts := c.texts.insert name text
    units := c.units.insert name (SourceUnit.ofImports specifiers) }

/-- The number of files whose text is known. -/
def fileCount (c : Compilation) : Nat := c.texts.size

end Compilation

end ImportFlattening

import ImportFlattening.Compilation
import ImportFlattening.Document.Format

/-! # Compilations as documents -/

namespace ImportFlattening

namespace NameMap

variable {α : Type}

/-- A map as an object with a member for each entry. -/
def toDocument (write : α → Document) (m : NameMap α) : Document :=
  .record (m.entries.map fun e => (e.1.text, write e.2))

/-- Of two members with one name the later counts. -/
def ofDocument? (read : Document → Option α) : Document → Option (NameMap α)
  | .object members => do
    let entries ← members.mapM fun m => do return (⟨← m.1⟩, ← read m.2)
    return ofList entries
  | _ => none

end NameMap

namespace SourceName

def toDocument (name : SourceName) : Document := .text name.text

def ofDocument? (d : Document) : Option SourceName := d.text?.map SourceName.mk

end SourceName

/-- A member for an optional text, left out when there is none. -/
def Document.textMember (name : String) (text : Option String) : List (String × Document) :=
  text.toList.map fun t => (name, .text t)

namespace SyntaxNode

def toDocument (node : SyntaxNode) : Document :=
  .record (("nodeType", .text node.kind) :: Document.textMember "file" node.file)

def ofDocument? (format : Format) (d : Document) : Option SyntaxNode := do
  let [kind, file] ← d.fields format ["nodeType", "file"] | none
  return { kind := ← (← kind).text?, file := ← Document.optional Document.text? file }

end SyntaxNode

namespace SourceUnit

def toDocument (unit : SourceUnit) : Document :=
  .record [("ast", .record [("nodes", .array (unit.nodes.map SyntaxNode.toDocument))])]

def ofDocument? (format : Format) (d : Document) : Option SourceUnit := do
  let [ast] ← d.fields format ["ast"] | none
  let [nodes] ← (← ast).fields format ["nodes"] | none
  return { nodes := ← Document.fieldD [] (Document.items? (SyntaxNode.ofDocument? format)) nodes }

end SourceUnit

/-- A file's text in its wrapping. -/
def textToDocument (text : String) : Document := .record [("content", .text text)]

def textOfDocument? (format : Format) (d : Document) : Option String := do
  let [content] ← d.fields format ["content"] | none
  (← content).text?

namespace Compilation

def toDocument (c : Compilation) : Document :=
  .record ([("target", c.target.toDocument),
    ("sources", c.texts.toDocument textToDocument),
    ("asts", c.units.toDocument SourceUnit.toDocument)] ++
    Document.textMember "language_version" c.languageVersion)

def ofDocument? (format : Format) (d : Document) : Option Compilation := do
  let [target, texts, units, version] ←
    d.fields format ["target", "sources", "asts", "language_version"] | none
  return {
    target := ← SourceName.ofDocument? (← target)
    texts := ← NameMap.ofDocument? (textOfDocument? format) (← texts)
    units := ← NameMap.ofDocument? (SourceUnit.ofDocument? format) (← units)
    languageVersion := ← Document.optional Document.text? version }

end Compilation

end ImportFlattening

import ImportFlattening.Compilation.Wire
import ImportFlattening.Json

/-! # Compile events

The message with which a compiler's host announces a finished compilation. Besides the compilation
it names the file that the user sees, which need not be the target.
-/

namespace ImportFlattening

structure CompileEvent where
  /-- The file that the user sees. -/
  file : String
  compilation : Compilation
  deriving DecidableEq

namespace CompileEvent

/-- The event of a compilation whose user sees its target. -/
def ofCompilation (c : Compilation) : CompileEvent := ⟨c.target.text, c⟩

def toDocument (event : CompileEvent) : Document :=
  let c := event.compilation
  .record ([("file", .text event.file),
    ("source", .record [("target", c.target.toDocument),
      ("sources", c.texts.toDocument textToDocument)])] ++
    Document.textMember "languageVersion" c.languageVersion ++
    [("data", .record [("sources", c.units.toDocument SourceUnit.toDocument)])])

def ofDocument? (d : Document) : Option CompileEvent := do
  let [file, source, version, data] ←
    d.fields .json ["file", "source", "languageVersion", "data"] | none
  let [target, texts] ← (← source).fields .json ["target", "sources"] | none
  let [units] ← (← data).fields .json ["sources"] | none
  return {
    file := ← (← file).text?
    compilation := {
      target := ← SourceName.ofDocument? (← target)
      texts := ← Document.fieldD ∅ (NameMap.ofDocument? (textOfDocument? .json)) texts
      units := ← Document.fieldD ∅ (NameMap.ofDocument? (SourceUnit.ofDocument? .json)) units
      languageVersion := ← Document.optional Document.text? version } }

def write (event : CompileEvent) : String := Json.write event.toDocument

def parse (text : String) : Option CompileEvent := do ofDocument? (← Json.parse text)

end CompileEvent

end ImportFlattening

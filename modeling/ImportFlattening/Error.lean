import ImportFlattening.Import

/-! # Why a compilation cannot be flattened -/

namespace ImportFlattening

/-- The causes for which there is no flattened text. -/
inductive Error where
  /-- A file of the order has no text. -/
  | missingText (name : SourceName)
  | unresolved (directive : Import)
  /-- Files that import each other. -/
  | importCycle (names : List SourceName)
  | noCompilation
  | unknownTarget (name : SourceName)
  /-- The target has not been flattened since it was compiled. -/
  | notFlattened (name : SourceName)
  deriving DecidableEq, Repr

namespace Error

/-- A cycle as a chain that returns to its first member. -/
def chain : List SourceName → String
  | [] => ""
  | first :: rest => " -> ".intercalate (((first :: rest) ++ [first]).map SourceName.text)

def message : Error → String
  | missingText name => "no source text for " ++ name.text
  | unresolved i =>
    i.importer.text ++ ": import \"" ++ i.specifier ++ "\" resolves to " ++ i.dependee.text ++
      ", which is not part of the compilation"
  | importCycle names => "import cycle: " ++ chain names
  | noCompilation => "no compilation result available; compile a file first"
  | unknownTarget name => "target " ++ name.text ++ " is not part of the compilation"
  | notFlattened name => "nothing to save; flatten " ++ name.text ++ " first"

end Error

end ImportFlattening

import ImportFlattening.SourceName

/-! # Where flattened text is kept -/

namespace ImportFlattening

/-- How the path of a flattened file is made from the name of its target. -/
structure OutputNaming where
  directory : String := "browser"
  /-- Stands between the target's own name and the extension. -/
  suffix : String := "_flat"
  /-- Without the point before it. -/
  extension : String := "sol"
  deriving DecidableEq, Repr

namespace OutputNaming

/-- The file name of `target` up to its first point. -/
def stem (target : SourceName) : String :=
  String.ofList (target.fileName.toList.takeWhile (· ≠ '.'))

def trimSlashes (directory : String) : String :=
  String.ofList (directory.toList.reverse.dropWhile (· = '/')).reverse

def outputName (naming : OutputNaming) (target : SourceName) : String :=
  stem target ++ naming.suffix ++ "." ++ naming.extension

def outputPath (naming : OutputNaming) (target : SourceName) : String :=
  let directory := trimSlashes naming.directory
  let name := naming.outputName target
  if directory = "" then name else directory ++ "/" ++ name

end OutputNaming

end ImportFlattening

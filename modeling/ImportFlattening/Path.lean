import ImportFlattening.Text.Split

/-! # Paths

A path is kept as it is spelled. Slashes in a row count as one, and a segment `.` counts only at the
start of a path, where it names the working directory.
-/

namespace ImportFlattening.Path

/-- A path below a directory. A path from the root stays as it is. -/
def join (directory path : String) : String :=
  if Text.isRooted path then path
  else if directory = "" || directory.toList.getLast? = some '/' then directory ++ path
  else directory ++ "/" ++ path

/-- Whether a path can lead out of the directory that it is read in. -/
def escapes (path : String) : Bool := Text.isRooted path || (Text.pieces '/' path).contains ".."

inductive Start where
  | root
  /-- The working directory, spelled out. -/
  | here
  /-- The first segment. -/
  | none
  deriving DecidableEq, Repr

/-- The start of a path and the segments after it. -/
def parts (path : String) : Start × List String :=
  match Text.pieces '/' path with
  | [""] => (.none, [])
  | "" :: segments => (.root, segments)
  | "." :: segments => (.here, segments)
  | segments => (.none, segments)

/-- The spelling of a start with segments after it. -/
def ofParts : Start → List String → String
  | .root, segments => "/" ++ Text.ofPieces '/' segments
  | .here, segments => Text.ofPieces '/' ("." :: segments)
  | .none, segments => Text.ofPieces '/' segments

def isVoid (segment : String) : Bool := segment = "" || segment = "."

/-- Segments without those at the end that name nothing. -/
def trim (segments : List String) : List String := (segments.reverse.dropWhile isVoid).reverse

/-- The path without its last component. The root and the empty path have no parent. -/
def parent? (path : String) : Option String :=
  let (start, segments) := parts path
  match trim segments with
  | [] => if start = .here then some "" else none
  | named => some (ofParts start (trim named.dropLast))

/-- A path followed by its parent, the parent of that and so on, at most `count` times. -/
def ancestorsUpTo : (count : Nat) → String → List String
  | 0, path => [path]
  | count + 1, path =>
    path :: match parent? path with
      | none => []
      | some above => ancestorsUpTo count above

/-- A path followed by all paths above it. -/
def ancestors (path : String) : List String :=
  ancestorsUpTo (Text.pieces '/' path).length path

end ImportFlattening.Path

import ImportFlattening.SourceName

/-! # Resolving import specifiers

A specifier is relative when its first segment is `.` or `..`; it is then read from the directory
of the importing file. Any other specifier is a name already. Either way the result is normalized:
empty segments and `.` are gone, and `..` has removed the segment before it.
-/

namespace ImportFlattening

namespace SourceName

/-- Follow one segment from a directory given by its own segments. Going up from the top stays
there. -/
def follow (dir : List String) (segment : String) : List String :=
  if segment = "" ∨ segment = "." then dir
  else if segment = ".." then dir.dropLast
  else dir ++ [segment]

def walk (start segs : List String) : List String := segs.foldl follow start

/-- The path with only the segments that remain after walking it from the top. -/
def normalize (path : String) : String :=
  let body := Text.ofPieces '/' (walk [] (Text.pieces '/' path))
  if Text.isRooted path then "/" ++ body else body

/-- Whether a specifier is read from the importer's directory. -/
def isRelative (specifier : String) : Bool :=
  match Text.pieces '/' specifier with
  | first :: _ => first = "." || first = ".."
  | [] => false

/-- The name that `specifier` stands for in the file `importer`. -/
def resolve (importer : SourceName) (specifier : String) : SourceName :=
  if isRelative specifier then
    let dir := importer.directory
    ⟨normalize (if dir = "" then specifier else dir ++ "/" ++ specifier)⟩
  else ⟨normalize specifier⟩

end SourceName

end ImportFlattening

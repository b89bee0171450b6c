/-! # Pieces of a text

Lines and path segments are the pieces of a text between single separator characters.
Splitting and joining at one character are inverse to each other, so a text and its list of
pieces carry the same information.
-/

namespace ImportFlattening.Text

/-- Put `c` in front of a split text: a separator opens an empty piece, any other character
extends the first piece. -/
def splitStep (sep c : Char) : List (List Char) → List (List Char)
  | [] => if c = sep then [[], []] else [[c]]
  | piece :: pieces => if c = sep then [] :: piece :: pieces else (c :: piece) :: pieces

/-- The pieces of `cs` between the occurrences of `sep`. There is always at least one: a text
without the separator is its own single piece. -/
def split (sep : Char) (cs : List Char) : List (List Char) :=
  cs.foldr (splitStep sep) [[]]

/-- The pieces with one separator between each two of them. -/
def join (sep : Char) (pieces : List (List Char)) : List Char :=
  [sep].intercalate pieces

def pieces (sep : Char) (s : String) : List String :=
  (split sep s.toList).map String.ofList

def ofPieces (sep : Char) (ps : List String) : String :=
  String.ofList (join sep (ps.map String.toList))

/-- Whether a path starts at the root. -/
def isRooted (path : String) : Bool := path.toList.head? = some '/'

end ImportFlattening.Text

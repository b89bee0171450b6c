import ImportFlattening.Text.Split

/-! # Source names

A compilation knows each of its files by a name: a text of segments separated by slashes, with
or without a leading slash. The text is kept as given; two spellings are two names.
-/

namespace ImportFlattening

/-- The name under which a compilation knows a file. -/
structure SourceName where
  text : String
  deriving DecidableEq, Repr

namespace SourceName

/-- Names are ordered by their characters' code points, which is also the order of their UTF-8
bytes. -/
instance : LT SourceName := ⟨fun a b => a.text < b.text⟩

instance (a b : SourceName) : Decidable (a < b) :=
  inferInstanceAs (Decidable (a.text < b.text))

/-- Whether `a` may stand before `b` in a sorted list. -/
def precedes (a b : SourceName) : Bool := !decide (b < a)

/-- The slash-separated segments of a name, empty ones included. -/
def segments (name : SourceName) : List String := Text.pieces '/' name.text

/-- The last segment: the name of the file without its directory. -/
def fileName (name : SourceName) : String := name.segments.getLastD ""

/-- The text before the last slash. A name directly below the root has the directory `/`, and
one without a slash has the empty directory. -/
def directory (name : SourceName) : String :=
  match name.segments with
  | [_] => ""
  | segs =>
    let above := Text.ofPieces '/' segs.dropLast
    if above = "" then "/" else above

end SourceName

end ImportFlattening

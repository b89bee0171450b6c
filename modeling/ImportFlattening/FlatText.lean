import ImportFlattening.Error
import ImportFlattening.NameMap
import ImportFlattening.Text.Blank
import ImportFlattening.Text.Split

/-! # Flattened text

The texts of the files one after the other, each under a comment with its name and with its import
lines emptied. Lines are never added or removed, so a position inside a file stays a constant
distance from the file's first line.
-/

namespace ImportFlattening

namespace FlatText

/-- Whether a line consists of the word `import` after any white space, alone or followed by white
space and anything. -/
def isImportLine (line : List Char) : Bool :=
  match line.dropWhile Text.isBlank with
  | 'i' :: 'm' :: 'p' :: 'o' :: 'r' :: 't' :: rest =>
    match rest with
    | [] => true
    | c :: _ => Text.isBlank c
  | _ => false

def emptyImportLine (line : List Char) : List Char := if isImportLine line then [] else line

/-- The text with every import line emptied. Only a line feed ends a line. -/
def stripImports (text : String) : String :=
  String.ofList (Text.join '\n' ((Text.split '\n' text.toList).map emptyImportLine))

def chapter (name : SourceName) (text : String) : String :=
  "// File: " ++ name.text ++ "\n\n" ++ stripImports text ++ "\n\n"

/-- The chapters of the files in the given order. The first file without a text is an error. -/
def concatenate (texts : NameMap String) (order : List SourceName) : Except Error String := do
  let chapters ← order.mapM fun name =>
    match texts.get? name with
    | none => .error (.missingText name)
    | some text => .ok (chapter name text)
  return String.join chapters

end FlatText

end ImportFlattening

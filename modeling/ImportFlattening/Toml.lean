import ImportFlattening.Toml.Moment
import ImportFlattening.Toml.Table
import ImportFlattening.Toml.Text

/-! # TOML

A text is a sequence of lines, each with a header, a key and its value, or neither. The statements
are read first and then assembled into one table.
-/

namespace ImportFlattening.Toml

open Reader

inductive Statement where
  | header (path : List String)
  | element (path : List String)
  | pair (path : List String) (value : Document)

def boolean : Reader Bool :=
  (exactly ['t', 'r', 'u', 'e'] *> pure true) <|> (exactly ['f', 'a', 'l', 's', 'e'] *> pure false)

/-- A value without values inside it. -/
def atom : Reader Document :=
  Document.text <$> string <|> Document.boolean <$> boolean <|> Document.moment <$> moment <|>
  Document.number <$> number

def array (item : Reader Document) : Reader Document := do
  exactly ['[']
  let items ← sepBy (filler *> item <* filler) (exactly [','])
  if !items.isEmpty then discard (optional (exactly [',']))
  filler
  exactly [']']
  return .array items

def pair (value : Reader Document) : Reader (List String × Document) := do
  let path ← keyPath
  exactly ['=']
  gap
  return (path, ← value)

/-- A table on one line. Its keys may be dotted; there is no comma after the last pair. -/
def inlineTable (value : Reader Document) : Reader Document := do
  exactly ['{']
  let pairs ← sepBy (pair value <* gap) (exactly [','])
  gap
  exactly ['}']
  let members ← pairs.foldlM (fun ms p => Members.addAt p.1 p.2 ms) []
  return .object (closeMembers members)

/-- A value whose containers nest no deeper than `room` allows. -/
def value : (room : Nat) → Reader Document
  | 0 => atom
  | room + 1 => atom <|> array (value room) <|> inlineTable (value room)

def statement : Reader Statement :=
  Statement.element <$> (exactly ['[', '['] *> keyPath <* exactly [']', ']']) <|>
  Statement.header <$> (exactly ['['] *> keyPath <* exactly [']']) <|>
  (fun p => Statement.pair p.1 p.2) <$> pair (value (depthLimit - 1))

/-- A line that is not the empty rest of the text. -/
def line : Reader (Option Statement) := do
  gap
  if (← get).isEmpty then failure
  let said ← optional statement
  lineEnd
  return said

/-- The lines of a text, after a byte order mark if there is one. -/
def document : Reader (List Statement) := do
  discard (optional (exactly ['\uFEFF']))
  let lines ← many line
  gap
  atEnd
  return lines.filterMap id

/-- The root table so far, and the path of the table that pairs are added to. -/
structure Assembly where
  root : Members := []
  current : List String := []

namespace Assembly

def add (a : Assembly) : Statement → Option Assembly
  | .header path => do return { root := ← a.root.openTable path, current := path }
  | .element path => do return { root := ← a.root.openElement path, current := path }
  | .pair path d => do
    let root ← Members.updateAt .implied (fun _ ms => ms.addAt path d) a.current .header a.root
    return { a with root }

end Assembly

def parse (text : String) : Option Document := do
  let (statements, _) ← document text.toList
  let assembled ← statements.foldlM Assembly.add {}
  return .object (closeMembers assembled.root)

end ImportFlattening.Toml

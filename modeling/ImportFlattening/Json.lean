import ImportFlattening.Document
import ImportFlattening.Json.Token

/-! # JSON

A document is written as its tokens without white space. It is read by a machine that takes one
token at a time and keeps the containers under construction on a stack, so that the depth of a
text is limited by nothing but its length.
-/

namespace ImportFlattening.Json

mutual

/-- The tokens of a document. A moment is written as a string. -/
def tokens : Document → List Token
  | .null => [.null]
  | .boolean value => [.boolean value]
  | .number literal => [.number literal]
  | .moment literal => [.string (some literal)]
  | .string text => [.string text]
  | .array items => .openArray :: itemTokens items ++ [.closeArray]
  | .object members => .openObject :: memberTokens members ++ [.closeObject]

def itemTokens : List Document → List Token
  | [] => []
  | [item] => tokens item
  | item :: next :: rest => tokens item ++ .comma :: itemTokens (next :: rest)

def memberTokens : List (Option String × Document) → List Token
  | [] => []
  | [(name, value)] => .string name :: .colon :: tokens value
  | (name, value) :: next :: rest =>
    .string name :: .colon :: tokens value ++ .comma :: memberTokens (next :: rest)

end

def write (d : Document) : String := String.ofList ((tokens d).flatMap Token.write)

/-- A container that waits for a value. What it holds already is in reverse. -/
inductive Waiting where
  | items (front : List Document)
  | member (front : List (Option String × Document)) (name : Option String)

/-- What a reader expects next, inside the containers that wait, the innermost first. -/
inductive Reading where
  | value (stack : List Waiting)
  /-- The first item of an array, or its end. -/
  | firstItem (stack : List Waiting)
  /-- A comma, or the end of the array. -/
  | afterItem (front : List Document) (stack : List Waiting)
  /-- The first name of an object, or its end. -/
  | firstName (stack : List Waiting)
  /-- The name after a comma. -/
  | name (front : List (Option String × Document)) (stack : List Waiting)
  | colon (front : List (Option String × Document)) (name : Option String) (stack : List Waiting)
  /-- A comma, or the end of the object. -/
  | afterMember (front : List (Option String × Document)) (stack : List Waiting)
  /-- Nothing: the document is complete. -/
  | done (document : Document)

namespace Reading

/-- Hand a complete value to the innermost container. -/
def deliver (v : Document) : List Waiting → Reading
  | [] => .done v
  | .items front :: stack => .afterItem (v :: front) stack
  | .member front n :: stack => .afterMember ((n, v) :: front) stack

/-- Take a token where a value is expected. -/
def startValue (stack : List Waiting) : Token → Option Reading
  | .null => some (deliver .null stack)
  | .boolean b => some (deliver (.boolean b) stack)
  | .number literal => some (deliver (.number literal) stack)
  | .string text => some (deliver (.string text) stack)
  | .openArray => some (.firstItem stack)
  | .openObject => some (.firstName stack)
  | _ => none

def step : Reading → Token → Option Reading
  | .value stack, token => startValue stack token
  | .firstItem stack, .closeArray => some (deliver (.array []) stack)
  | .firstItem stack, token => startValue (.items [] :: stack) token
  | .afterItem front stack, .comma => some (.value (.items front :: stack))
  | .afterItem front stack, .closeArray => some (deliver (.array front.reverse) stack)
  | .firstName stack, .closeObject => some (deliver (.object []) stack)
  | .firstName stack, .string n => some (.colon [] n stack)
  | .name front stack, .string n => some (.colon front n stack)
  | .colon front n stack, .colon => some (.value (.member front n :: stack))
  | .afterMember front stack, .comma => some (.name front stack)
  | .afterMember front stack, .closeObject => some (deliver (.object front.reverse) stack)
  | _, _ => none

end Reading

/-- The document that the tokens make. -/
def ofTokens (ts : List Token) : Option Document :=
  match ts.foldlM Reading.step (.value []) with
  | some (.done document) => some document
  | _ => none

def parse (text : String) : Option Document := do
  ofTokens (← lex text.toList)

end ImportFlattening.Json

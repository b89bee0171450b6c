/-! # Documents

The value of a structured text, whether it was written as JSON or as TOML. Members of an object
keep their order, and a name may occur more than once: what to make of that is for the reader of
the document to say.
-/

namespace ImportFlattening

inductive Document where
  | null
  | boolean (value : Bool)
  /-- A number as written. -/
  | number (literal : String)
  /-- A date or a time of day as written. -/
  | moment (literal : String)
  /-- A string, without a text if its escapes leave a surrogate unpaired. -/
  | string (text : Option String)
  | array (items : List Document)
  /-- Members in the order of writing; a name can lack a text as a string can. -/
  | object (members : List (Option String × Document))

namespace Document

instance : Inhabited Document := ⟨.null⟩

def text (s : String) : Document := .string (some s)

/-- An object whose names have texts. -/
def record (members : List (String × Document)) : Document :=
  .object (members.map fun m => (some m.1, m.2))

end Document

end ImportFlattening

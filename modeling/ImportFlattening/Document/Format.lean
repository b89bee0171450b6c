import ImportFlattening.Document

/-! # Reading structures from documents

A structure is written as an object, whose unknown members are passed over, or as an array of its
fields in their declared order. A field that is left out is absent from the result; whether that
is a fault is for the structure to say. The formats differ in two points, which `Format` holds.
-/

namespace ImportFlattening

/-- Where the formats differ in how a structure is read. -/
structure Format where
  /-- Whether an array may hold more items than the structure has fields. -/
  surplusItems : Bool
  /-- Whether a document can stand for the content of a variant that has none. -/
  isUnit : Document → Bool

namespace Format

/-- In JSON an array holds no surplus items, and `null` stands for nothing. -/
def json : Format where
  surplusItems := false
  isUnit
    | .null => true
    | _ => false

/-- In TOML surplus items are passed over, and an empty container stands for nothing. -/
def toml : Format where
  surplusItems := true
  isUnit
    | .array [] => true
    | .object [] => true
    | _ => false

end Format

namespace Document

def valuesOf (members : List (Option String × Document)) (name : String) : List Document :=
  members.filterMap fun m => if m.1 = some name then some m.2 else none

/-- The value of a field of an object. A field must not occur twice. -/
def fieldOf (members : List (Option String × Document)) (name : String) :
    Option (Option Document) :=
  match valuesOf members name with
  | [] => some none
  | [value] => some (some value)
  | _ => none

/-- The fields called `names`, in that order. A moment has none of them. -/
def fields (format : Format) (names : List String) : Document → Option (List (Option Document))
  | .object members =>
    if members.all (·.1.isSome) then names.mapM (fieldOf members) else none
  | .array items =>
    if format.surplusItems || items.length ≤ names.length then
      some ((List.range names.length).map (items[·]?))
    else none
  | .moment _ => some (names.map fun _ => none)
  | _ => none

def text? : Document → Option String
  | .string text => text
  | _ => none

def items? {α : Type} (read : Document → Option α) : Document → Option (List α)
  | .array items => items.mapM read
  | _ => none

/-- The value with the name that the document gives, alone or with an empty content. -/
def variant? {α : Type} (format : Format) (named : List (String × α)) : Document → Option α
  | .string (some name) => named.lookup name
  | .object [(some name, content)] => if format.isUnit content then named.lookup name else none
  | _ => none

/-- A field that may be left out in favour of `default`. -/
def fieldD {α : Type} (default : α) (read : Document → Option α) : Option Document → Option α
  | none => some default
  | some d => read d

/-- A field that may be left out or `null`. -/
def optional {α : Type} (read : Document → Option α) : Option Document → Option (Option α)
  | none => some none
  | some .null => some none
  | some d => (read d).map some

end Document

end ImportFlattening

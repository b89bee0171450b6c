import ImportFlattening.Document

/-! # Tables of TOML

A document is assembled table by table. How a table came about decides what may still be added to
it: a header defines a table once, and dotted keys extend only tables that dotted keys made.
-/

namespace ImportFlattening.Toml

/-- How a table came about. -/
inductive Origin where
  /-- By a header of its own. -/
  | header
  /-- By a header of a table inside it. -/
  | implied
  | dotted
  deriving DecidableEq, Repr

/-- What a key stands for. -/
inductive Item where
  /-- A value, which nothing can be added to. -/
  | value (d : Document)
  | table (origin : Origin) (members : List (String × Item))
  /-- An array of tables, each with a header. -/
  | tables (elements : List (List (String × Item)))

abbrev Members := List (String × Item)

namespace Members

/-- Put an item in place of the one that `key` stands for. -/
def replace (ms : Members) (key : String) (item : Item) : Members :=
  ms.map fun m => if m.1 = key then (key, item) else m

/-- Change the members of the table at `path`, which is found or made on the way. A new table gets
the origin `made`. An array of tables stands for its last element. Dotted keys do not pass through
a table with a header. -/
def updateAt (made : Origin) (change : Origin → Members → Option Members) :
    (path : List String) → Origin → Members → Option Members
  | [], origin, ms => change origin ms
  | key :: path, _, ms =>
    match ms.lookup key with
    | none => do
      let inner ← updateAt made change path made []
      return ms ++ [(key, .table made inner)]
    | some (.value _) => none
    | some (.table origin inner) =>
      if made = .dotted && origin = .header then none
      else do
        let inner ← updateAt made change path origin inner
        return ms.replace key (.table origin inner)
    | some (.tables elements) => do
      let last ← updateAt made change path .header (elements.getLastD [])
      return ms.replace key (.tables (elements.dropLast ++ [last]))

def add (ms : Members) (key : String) (d : Document) : Option Members :=
  match ms.lookup key with
  | none => some (ms ++ [(key, .value d)])
  | some _ => none

/-- Split a path into the way and the last key. -/
def splitLast : List String → Option (List String × String)
  | [] => none
  | path => (path.getLast?).map fun last => (path.dropLast, last)

/-- Add a value under a dotted key. -/
def addAt (path : List String) (d : Document) (ms : Members) : Option Members := do
  let (way, key) ← splitLast path
  updateAt .dotted
    (fun origin ms => if way.isEmpty || origin = .dotted then ms.add key d else none)
    way .header ms

/-- Open the table of a header. -/
def openTable (path : List String) (ms : Members) : Option Members := do
  let (way, key) ← splitLast path
  let define (ms : Members) : Option Members :=
    match ms.lookup key with
    | none => some (ms ++ [(key, .table .header [])])
    | some (.table .implied inner) => some (ms.replace key (.table .header inner))
    | some _ => none
  updateAt .implied (fun _ ms => define ms) way .header ms

/-- Open the next table of an array of tables. -/
def openElement (path : List String) (ms : Members) : Option Members := do
  let (way, key) ← splitLast path
  let define (ms : Members) : Option Members :=
    match ms.lookup key with
    | none => some (ms ++ [(key, .tables [[]])])
    | some (.tables elements) => some (ms.replace key (.tables (elements ++ [[]])))
    | some _ => none
  updateAt .implied (fun _ ms => define ms) way .header ms

end Members

mutual

/-- The value that an item has once nothing more is added. -/
def Item.close : Item → Document
  | .value d => d
  | .table _ members => .object (closeMembers members)
  | .tables elements => .array (closeElements elements)

def closeMembers : List (String × Item) → List (Option String × Document)
  | [] => []
  | (key, item) :: rest => (some key, item.close) :: closeMembers rest

def closeElements : List (List (String × Item)) → List Document
  | [] => []
  | members :: rest => .object (closeMembers members) :: closeElements rest

end

end ImportFlattening.Toml

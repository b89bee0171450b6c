import ImportFlattening.Path

/-! # Disks

A disk is a tree of directories and files without links, kept as a table of locations. Paths are
followed segment by segment, so that `..` leads to the directory above only where there is one.
-/

namespace ImportFlattening

inductive Entry where
  | file (content : ByteArray)
  | directory

instance : DecidableEq Entry
  | .file a, .file b =>
    match ByteArray.decEq a b with
    | isTrue same => isTrue (by rw [same])
    | isFalse differ => isFalse (by simpa using differ)
  | .directory, .directory => isTrue rfl
  | .file _, .directory | .directory, .file _ => isFalse nofun

/-- The names on the way from the root. -/
abbrev Location := List String

inductive DiskError where
  | notFound
  | notADirectory
  | isADirectory
  | alreadyExists
  | nameTooLong
  /-- The path contains the null character. -/
  | badPath
  /-- The content is not a text in UTF-8. -/
  | notText
  deriving DecidableEq, Repr

structure Disk where
  entries : List (Location × Entry) := []
  /-- Where a path that is not from the root starts. -/
  workingDirectory : Location := []
  deriving DecidableEq

namespace Disk

/-- The greatest length of a name, in bytes. -/
def nameLimit : Nat := 255

/-- The least length of a path, in bytes, that is too long. -/
def pathLimit : Nat := 4096

/-- What stands at a location. The root is always there. -/
def entry? (d : Disk) (location : Location) : Option Entry :=
  if location = [] then some .directory else d.entries.lookup location

def put (d : Disk) (location : Location) (entry : Entry) : Disk :=
  { d with entries := (location, entry) :: d.entries.filter (·.1 ≠ location) }

/-- Follow one segment from a location, which must be that of a directory. -/
def follow (d : Disk) (location : Location) (segment : String) : Except DiskError Location :=
  match d.entry? location with
  | none => .error .notFound
  | some (.file _) => .error .notADirectory
  | some .directory =>
    if Path.isVoid segment then .ok location
    else if segment = ".." then .ok location.dropLast
    else if nameLimit < segment.utf8ByteSize then .error .nameTooLong
    else .ok (location ++ [segment])

/-- The location that a path leads to, whether or not there is something. -/
def locate (d : Disk) (path : String) : Except DiskError Location :=
  if path.toList.contains '\x00' then .error .badPath
  else if path = "" then .error .notFound
  else if pathLimit ≤ path.utf8ByteSize then .error .nameTooLong
  else
    (Text.pieces '/' path).foldlM d.follow (if Text.isRooted path then [] else d.workingDirectory)

def find (d : Disk) (path : String) : Except DiskError Entry := do
  match d.entry? (← d.locate path) with
  | none => .error .notFound
  | some entry => .ok entry

def isDirectory (d : Disk) (path : String) : Bool :=
  match d.find path with
  | .ok .directory => true
  | _ => false

def readText (d : Disk) (path : String) : Except DiskError String := do
  match ← d.find path with
  | .directory => .error .isADirectory
  | .file content =>
    match String.fromUTF8? content with
    | none => .error .notText
    | some text => .ok text

/-- Make a file or replace its content. Its directory must be there. -/
def writeBytes (d : Disk) (path : String) (content : ByteArray) : Except DiskError Disk := do
  let location ← d.locate path
  match d.entry? location with
  | some .directory => .error .isADirectory
  | _ => .ok (d.put location (.file content))

def writeText (d : Disk) (path text : String) : Except DiskError Disk :=
  d.writeBytes path text.toUTF8

/-- Make a directory where there is nothing. -/
def makeDirectory (d : Disk) (path : String) : Except DiskError Disk := do
  let location ← d.locate path
  match d.entry? location with
  | some _ => .error .alreadyExists
  | none => .ok (d.put location .directory)

/-- Make a directory unless it is there. -/
def ensureDirectory (d : Disk) (path : String) : Except DiskError Disk :=
  match d.makeDirectory path with
  | .ok made => .ok made
  | .error e => if d.isDirectory path then .ok d else .error e

/-- Make the first of the paths a directory. Where something on the way to it is missing, the paths
after it are made first. What has been made stays, whatever comes of the rest. -/
def makeFirst (d : Disk) : List String → Except DiskError Unit × Disk
  | [] => (.error .notFound, d)
  | "" :: _ => (.ok (), d)
  | path :: above =>
    match d.ensureDirectory path with
    | .ok made => (.ok (), made)
    | .error .notFound =>
      match d.makeFirst above with
      | (.error e, made) => (.error e, made)
      | (.ok _, made) =>
        match made.ensureDirectory path with
        | .ok complete => (.ok (), complete)
        | .error e => (.error e, made)
    | .error e => (.error e, d)

/-- Make a directory and all that are missing above it. -/
def createDirectories (d : Disk) (path : String) : Except DiskError Unit × Disk :=
  d.makeFirst (Path.ancestors path)

end Disk

end ImportFlattening

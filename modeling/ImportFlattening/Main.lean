import ImportFlattening.Program

/-! # Entry point -/

namespace ImportFlattening

/-- The error of a disk that an error of the system amounts to. -/
def DiskError.ofSystem : IO.Error → DiskError
  | .noFileOrDirectory .. => .notFound
  | .inappropriateType .. => .notADirectory
  | .alreadyExists .. => .alreadyExists
  | _ => .badPath

/-- Perform a request, with an error as a result. -/
def attempt {α : Type} (request : IO α) : IO (Except DiskError α) := do
  match ← request.toBaseIO with
  | .ok a => return .ok a
  | .error e => return .error (.ofSystem e)

/-- The storage of the machine that the program runs on. -/
def systemStorage : Storage IO where
  readText path := do
    match ← attempt (IO.FS.readBinFile path) with
    | .error e => return .error e
    | .ok content =>
      match String.fromUTF8? content with
      | none => return .error .notText
      | some text => return .ok text
  createDirectories path := do
    if path = "" then return .ok ()
    attempt (IO.FS.createDirAll path)
  writeText path text := attempt (IO.FS.writeBinFile path text.toUTF8)

end ImportFlattening

open ImportFlattening in
def main (arguments : List String) : IO UInt32 := do
  let outcome ← Program.run systemStorage arguments
  IO.print outcome.output
  if let some message := outcome.failure then
    IO.eprintln ("Error: " ++ message)
  if outcome.exit = 2 then
    IO.eprintln "usage: solflat [-v] [-r ROOT] (flatten EVENT [--stdout] [--no-save] [--clipboard FILE] | order EVENT | version)"
  return outcome.exit.toUInt32

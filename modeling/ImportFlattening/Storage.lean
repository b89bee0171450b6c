import ImportFlattening.Disk

/-! # Storage

What a program asks of the place where its files are, in any monad that can provide it. On a `Disk`
the requests are pure.
-/

namespace ImportFlattening

/-- Access to files by path. -/
structure Storage (m : Type → Type) where
  readText (path : String) : m (Except DiskError String)
  /-- Make a directory and all that are missing above it. -/
  createDirectories (path : String) : m (Except DiskError Unit)
  writeText (path text : String) : m (Except DiskError Unit)

namespace Disk

/-- The storage of a disk that changes with each request. -/
def storage : Storage (StateM Disk) where
  readText path := fun d => (d.readText path, d)
  createDirectories path := fun d => d.createDirectories path
  writeText path text := fun d =>
    match d.writeText path text with
    | .ok written => (.ok (), written)
    | .error e => (.error e, d)

end Disk

end ImportFlattening

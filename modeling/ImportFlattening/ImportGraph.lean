import ImportFlattening.Import

/-! # Import graphs

A graph lists its files in the order of their discovery and its edges in the order of their
addition. The position of a file in the first list is its rank. Two files may be joined by
several edges.
-/

namespace ImportFlattening

structure ImportGraph where
  names : List SourceName := []
  edges : List Import := []
  deriving DecidableEq, Repr

namespace ImportGraph

def empty : ImportGraph := {}

/-- Add a file, unless it is there already. -/
def addName (g : ImportGraph) (name : SourceName) : ImportGraph :=
  if name ∈ g.names then g else { g with names := g.names ++ [name] }

/-- Add an edge, and its ends where they are new, the importer first. -/
def addEdge (g : ImportGraph) (i : Import) : ImportGraph :=
  let ends := (g.addName i.importer).addName i.dependee
  { ends with edges := ends.edges ++ [i] }

def contains (g : ImportGraph) (name : SourceName) : Bool := name ∈ g.names

/-- The position of a file in the order of discovery. -/
def rank? (g : ImportGraph) (name : SourceName) : Option Nat := g.names.idxOf? name

def hasEdge (g : ImportGraph) (importer dependee : SourceName) : Bool :=
  g.edges.any fun e => e.importer = importer && e.dependee = dependee

def hasEdges (g : ImportGraph) : Bool := !g.edges.isEmpty

/-- The files that `name` imports, once per edge. -/
def dependenciesOf (g : ImportGraph) (name : SourceName) : List SourceName :=
  (g.edges.filter (·.importer = name)).map Import.dependee

/-- The files that import `name`, once per edge. -/
def dependentsOf (g : ImportGraph) (name : SourceName) : List SourceName :=
  (g.edges.filter (·.dependee = name)).map Import.importer

/-- The edges as pairs of ranks, importer first. -/
def links (g : ImportGraph) : List (Nat × Nat) :=
  g.edges.map fun e => (g.names.idxOf e.importer, g.names.idxOf e.dependee)

/-- A one-line account of the graph's size. -/
def summary (g : ImportGraph) : String :=
  "DependencyGraph \x7b node_count: " ++ toString g.names.length ++ ", edge_count: " ++
    toString g.edges.length ++ " \x7d"

end ImportGraph

end ImportFlattening

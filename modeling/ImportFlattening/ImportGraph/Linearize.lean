import ImportFlattening.Error
import ImportFlattening.ImportGraph.Cycle

/-! # Linear order of an import graph

Files are taken from the importing end of the graph: a file is ready once every file that imports
it has been taken, and of the ready files the one discovered last is taken first. Read backwards,
every file then stands after all that it imports, and siblings stand in order of discovery.
-/

namespace ImportFlattening

/-- A graph of which some files have been taken. Files are given by rank. -/
structure Peeling where
  /-- For each rank, how many edges lead to it from files not taken. -/
  degrees : List Nat
  /-- The files not taken that no such edge leads to, greatest rank first. -/
  ready : List Nat
  /-- The files taken, the latest first. -/
  taken : List Nat := []
  deriving DecidableEq, Repr

namespace Peeling

/-- Put a rank in its place in a decreasing list. -/
def insertRank (r : Nat) : List Nat → List Nat
  | [] => [r]
  | x :: xs => if x < r then r :: x :: xs else x :: insertRank r xs

/-- A graph of `size` files of which none has been taken. -/
def start (links : List (Nat × Nat)) (size : Nat) : Peeling :=
  let degrees := (List.range size).map fun v => links.countP (·.2 = v)
  { degrees, ready := (List.range size).reverse.filter fun v => degrees.getD v 0 = 0 }

/-- Discount one edge to `v`, which may make it ready. -/
def discount (p : Peeling) (v : Nat) : Peeling :=
  let degree := p.degrees.getD v 0 - 1
  { p with
    degrees := p.degrees.set v degree
    ready := if degree = 0 then insertRank v p.ready else p.ready }

/-- Take the first ready file, discounting every edge that leaves it. -/
def step (links : List (Nat × Nat)) (p : Peeling) : Option Peeling :=
  match p.ready with
  | [] => none
  | r :: rest =>
    some ((ImportGraph.successors links r).foldl discount
      { p with ready := rest, taken := r :: p.taken })

def run (links : List (Nat × Nat)) : (count : Nat) → Peeling → Peeling
  | 0, p => p
  | count + 1, p =>
    match p.step links with
    | none => p
    | some next => run links count next

end Peeling

namespace ImportGraph

/-- The files of the graph, each after all that it imports. Without any edge the order is the
target alone; a graph with a cycle has none. -/
def linearize (g : ImportGraph) (target : SourceName) : Except Error (List SourceName) :=
  if g.hasEdges then
    let size := g.names.length
    let links := g.links
    let peeled := (Peeling.start links size).run links size
    if peeled.taken.length < size then .error (.importCycle g.firstCycle)
    else .ok (peeled.taken.filterMap (g.names[·]?))
  else .ok [target]

end ImportGraph

end ImportFlattening

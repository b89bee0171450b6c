import ImportFlattening.ImportGraph
import Mathlib.Data.List.Sort

/-! # Import graphs by index

The same graphs, laid out for looking things up. Nodes and edges are numbered in the order of their
addition, and edges join numbers. A table leads from a name to the number of its node, and a node
has the numbers of the edges at it at hand, the newest first, so that its neighbours are found
without going through all the edges.
-/

namespace ImportFlattening

/-- The two ways along an edge: with the import, or against it. -/
inductive Direction where
  | outgoing
  | incoming
  deriving DecidableEq, Repr

/-- An edge between two nodes given by number. -/
structure IndexedEdge where
  importer : Nat
  dependee : Nat
  specifier : String
  deriving DecidableEq, Repr

namespace IndexedEdge

/-- The end where the way along the edge starts. -/
def near (e : IndexedEdge) : Direction → Nat
  | .outgoing => e.importer
  | .incoming => e.dependee

/-- The end that the way along the edge leads to. -/
def far (e : IndexedEdge) : Direction → Nat
  | .outgoing => e.dependee
  | .incoming => e.importer

end IndexedEdge

structure IndexedNode where
  name : SourceName
  /-- The edges of which the node is the importer, the newest first. -/
  outgoing : List Nat := []
  /-- The edges of which it is the dependee, the newest first. -/
  incoming : List Nat := []
  deriving DecidableEq, Repr

namespace IndexedNode

/-- The edges at the node whose ways start there, the newest first. -/
def edges (node : IndexedNode) : Direction → List Nat
  | .outgoing => node.outgoing
  | .incoming => node.incoming

def attach (node : IndexedNode) (e : Nat) : Direction → IndexedNode
  | .outgoing => { node with outgoing := e :: node.outgoing }
  | .incoming => { node with incoming := e :: node.incoming }

@[simp] theorem edges_attach (node : IndexedNode) (e : Nat) (side way : Direction) :
    (node.attach e side).edges way = if side = way then e :: node.edges way else node.edges way := by
  cases side <;> cases way <;> rfl

@[simp] theorem name_attach (node : IndexedNode) (e : Nat) (side : Direction) :
    (node.attach e side).name = node.name := by
  cases side <;> rfl

end IndexedNode

structure IndexedGraph where
  /-- The number of the node of each name. -/
  index : NameMap Nat := {}
  nodes : Array IndexedNode := #[]
  edges : Array IndexedEdge := #[]

namespace IndexedGraph

def empty : IndexedGraph := {}

/-- Add a node for the name, unless it has one. The answer is the number of its node, with the
graph. -/
def addName (x : IndexedGraph) (name : SourceName) : Nat × IndexedGraph :=
  match x.index.get? name with
  | some r => (r, x)
  | none =>
    let r := x.nodes.size
    (r, { x with index := x.index.insert name r, nodes := x.nodes.push { name } })

/-- Add an edge between two nodes and attach it to both. -/
def connect (x : IndexedGraph) (edge : IndexedEdge) : IndexedGraph :=
  let e := x.edges.size
  let outgoing := x.nodes.modify edge.importer (·.attach e .outgoing)
  { x with
    nodes := outgoing.modify edge.dependee (·.attach e .incoming)
    edges := x.edges.push edge }

/-- Add an edge, and nodes for its ends where they have none, the importer first. -/
def addEdge (x : IndexedGraph) (i : Import) : IndexedGraph :=
  let importer := x.addName i.importer
  let dependee := importer.2.addName i.dependee
  dependee.2.connect ⟨importer.1, dependee.1, i.specifier⟩

def rank? (x : IndexedGraph) (name : SourceName) : Option Nat := x.index.get? name

/-- The names in the order of their discovery. -/
def names (x : IndexedGraph) : List SourceName := x.nodes.toList.map IndexedNode.name

def name? (x : IndexedGraph) (r : Nat) : Option SourceName := x.nodes[r]?.map IndexedNode.name

def import? (x : IndexedGraph) (e : IndexedEdge) : Option Import := do
  return ⟨← x.name? e.importer, ← x.name? e.dependee, e.specifier⟩

/-- The edges with the names of their ends, in the order of their addition. -/
def imports (x : IndexedGraph) : List Import := x.edges.toList.filterMap x.import?

/-- The numbers of the edges whose ways start at a node, the newest first. -/
def edgesAt (x : IndexedGraph) (r : Nat) (way : Direction) : List Nat :=
  (x.nodes[r]?.map (·.edges way)).getD []

/-- Whether an edge leads from `importer` to `dependee`, by going through the edges at the first. -/
def hasEdge (x : IndexedGraph) (importer dependee : SourceName) : Bool :=
  match x.index.get? importer, x.index.get? dependee with
  | some a, some b => (x.edgesAt a .outgoing).any fun e => x.edges[e]?.any (·.dependee = b)
  | _, _ => false

/-- Where the edges at `name` lead to, once per edge and in the order of their addition. -/
def neighbours (x : IndexedGraph) (name : SourceName) (way : Direction) : List SourceName :=
  match x.index.get? name with
  | none => []
  | some r =>
    (x.edgesAt r way).mergeSort.filterMap fun e =>
      x.edges[e]?.bind fun edge => x.name? (edge.far way)

def dependenciesOf (x : IndexedGraph) (name : SourceName) : List SourceName :=
  x.neighbours name .outgoing

def dependentsOf (x : IndexedGraph) (name : SourceName) : List SourceName :=
  x.neighbours name .incoming

/-- The numbers of the edges whose ways start at a node, the oldest first, by going through all
edges. -/
def edgesFrom (x : IndexedGraph) (r : Nat) (way : Direction) : List Nat :=
  (x.edges.toList.zipIdx.filter (·.1.near way = r)).map Prod.snd

variable {x : IndexedGraph} {edge : IndexedEdge} {r : Nat}

theorem sorted_edgesFrom (x : IndexedGraph) (r : Nat) (way : Direction) :
    (x.edgesFrom r way).Pairwise (· ≤ ·) := by
  have increasing : (x.edges.toList.zipIdx.map Prod.snd).Pairwise (· < ·) := by
    rw [List.zipIdx_map_snd]
    exact List.pairwise_lt_range'
  rw [List.pairwise_map] at increasing
  exact List.pairwise_map.mpr ((increasing.filter _).imp Nat.le_of_lt)

/-- Looking up the numbers brings back the edges. -/
theorem map_getElem?_edgesFrom (x : IndexedGraph) (r : Nat) (way : Direction) :
    (x.edgesFrom r way).map (x.edges[·]?) = (x.edges.toList.filter (·.near way = r)).map some := by
  have found : ∀ numbered ∈ x.edges.toList.zipIdx.filter (·.1.near way = r),
      x.edges[numbered.2]? = some numbered.1 := by
    intro numbered member
    have place := List.mem_zipIdx_iff_getElem?.mp (List.mem_of_mem_filter member)
    rwa [Array.getElem?_toList] at place
  calc (x.edgesFrom r way).map (x.edges[·]?)
      = (x.edges.toList.zipIdx.filter (·.1.near way = r)).map (some ∘ Prod.fst) := by
        rw [edgesFrom, List.map_map]
        exact List.map_congr_left found
    _ = ((x.edges.toList.zipIdx.map Prod.fst).filter (·.near way = r)).map some := by
        rw [List.filter_map, List.map_map]
        rfl
    _ = (x.edges.toList.filter (·.near way = r)).map some := by
        rw [List.zipIdx_map_fst]

theorem name?_eq (x : IndexedGraph) (r : Nat) : x.name? r = x.names[r]? := by
  simp [name?, names]

theorem names_connect (x : IndexedGraph) (edge : IndexedEdge) : (x.connect edge).names = x.names := by
  apply List.ext_getElem?
  intro r
  rw [← name?_eq, ← name?_eq]
  simp only [name?, connect, Array.getElem?_modify]
  cases x.nodes[r]? <;> split <;> split <;> simp

theorem edgesFrom_connect (x : IndexedGraph) (edge : IndexedEdge) (r : Nat) (way : Direction) :
    (x.connect edge).edgesFrom r way =
      x.edgesFrom r way ++ if edge.near way = r then [x.edges.size] else [] := by
  simp only [edgesFrom, connect, Array.toList_push, List.zipIdx_append, List.filter_append,
    List.map_append]
  congr 1
  split <;> simp_all

/-- The new edge is put before the others at either end, which may be the same node. -/
theorem edges_of_connect {node : IndexedNode} (there : (x.connect edge).nodes[r]? = some node) :
    ∃ before, x.nodes[r]? = some before ∧ ∀ way, node.edges way =
      if edge.near way = r then x.edges.size :: before.edges way else before.edges way := by
  simp only [connect, Array.getElem?_modify] at there
  cases old : x.nodes[r]? with
  | none => simp [old] at there
  | some before =>
      refine ⟨before, rfl, ?_⟩
      intro way
      cases way <;> grind [IndexedEdge.near, IndexedNode.edges_attach]

end IndexedGraph

end ImportFlattening

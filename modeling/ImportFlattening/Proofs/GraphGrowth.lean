import ImportFlattening.Proofs.PeelingOrder

/-! # How a graph grows

A graph is made by adding files and edges to the empty one, in any order and as often as one likes.
Whatever is added, no file is listed twice, and both ends of every edge are files of the graph.
-/

namespace ImportFlattening

/-- Something that is added to a graph. -/
inductive Addition where
  | name (name : SourceName)
  | edge (i : Import)
  deriving DecidableEq, Repr

namespace ImportGraph

def add (g : ImportGraph) : Addition → ImportGraph
  | .name name => g.addName name
  | .edge i => g.addEdge i

/-- The graph that the additions make of the empty one. -/
def ofAdditions (additions : List Addition) : ImportGraph := additions.foldl add empty

/-- Some additions make the graph of the empty one. -/
def Built (g : ImportGraph) : Prop := ∃ additions, ofAdditions additions = g

theorem names_addName_subset (g : ImportGraph) (name : SourceName) :
    g.names ⊆ (g.addName name).names := by
  rw [names_addName]
  split
  · exact List.Subset.refl _
  · exact List.subset_append_left _ _

theorem mem_addName (g : ImportGraph) (name : SourceName) : name ∈ (g.addName name).names := by
  rw [names_addName]
  split
  · assumption
  · exact List.mem_append_right _ (List.mem_singleton.mpr rfl)

structure WellFormed (g : ImportGraph) : Prop where
  nodup : g.names.Nodup
  closed : g.Closed

namespace WellFormed

variable {g : ImportGraph}

theorem addName (h : g.WellFormed) (name : SourceName) : (g.addName name).WellFormed := by
  constructor
  · rw [names_addName]
    split
    case isTrue => exact h.nodup
    case isFalse fresh => exact List.nodup_append.mpr ⟨h.nodup, by simp, by grind⟩
  · intro e member
    rw [edges_addName] at member
    obtain ⟨importer, dependee⟩ := h.closed e member
    exact ⟨names_addName_subset g name importer, names_addName_subset g name dependee⟩

theorem addEdge (h : g.WellFormed) (i : Import) : (g.addEdge i).WellFormed := by
  have ends := (h.addName i.importer).addName i.dependee
  refine ⟨ends.nodup, ?_⟩
  intro e member
  rw [edges_addEdge] at member
  rcases List.mem_append.mp member with old | new
  · exact ends.closed e (by simpa using old)
  · obtain rfl := List.mem_singleton.mp new
    exact ⟨names_addName_subset _ _ (mem_addName g e.importer), mem_addName _ e.dependee⟩

theorem add (h : g.WellFormed) (addition : Addition) : (g.add addition).WellFormed := by
  cases addition with
  | name name => exact h.addName name
  | edge i => exact h.addEdge i

theorem foldl_add (h : g.WellFormed) (additions : List Addition) :
    (additions.foldl ImportGraph.add g).WellFormed := by
  induction additions generalizing g with
  | nil => exact h
  | cons addition rest ih => exact ih (h.add addition)

theorem empty : ImportGraph.empty.WellFormed :=
  ⟨List.nodup_nil, by simp [Closed, ImportGraph.empty]⟩

end WellFormed

theorem Built.wellFormed {g : ImportGraph} (built : g.Built) : g.WellFormed := by
  obtain ⟨additions, rfl⟩ := built
  exact WellFormed.empty.foldl_add additions

end ImportGraph

end ImportFlattening

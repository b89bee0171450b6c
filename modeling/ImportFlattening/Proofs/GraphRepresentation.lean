import ImportFlattening.Proofs.GraphGrowth
import ImportFlattening.Proofs.IndexedGraph

/-! # What an indexed graph represents

The table, the nodes and the edges of an indexed graph are kept in step with each other and with a
graph given by a list of names and a list of edges (`IndexedGraph.Represents`). Both ways of adding
something keep them so. As long as they are in step, the indexed graph gives the answers of the graph
that it represents: the numbers at a node are looked up in the opposite order of their addition, and
sorting them brings that order back.
-/

namespace ImportFlattening

theorem NameMap.get?_insert {α : Type} (m : NameMap α) (name other : SourceName) (value : α) :
    (m.insert name value).get? other = if other = name then some value else m.get? other := by
  obtain ⟨entries, sorted⟩ := m
  simp only [get?, insert]
  clear sorted
  induction entries with
  | nil => by_cases same : other = name <;> simp [insertEntry, same, eq_comm]
  | cons entry rest ih =>
      unfold insertEntry
      split
      case isTrue => by_cases same : other = name <;> simp [List.find?_cons, same, eq_comm]
      case isFalse =>
        split
        case isTrue equal => by_cases same : other = name <;> simp_all [eq_comm]
        case isFalse different =>
          by_cases here : entry.1 = other
          · have unlike : other ≠ name := fun same => different (by rw [here, same])
            simp [here, unlike]
          · simpa [here] using ih

theorem mergeSort_reverse {l : List Nat} (sorted : l.Pairwise (· ≤ ·)) :
    l.reverse.mergeSort = l := by
  have perm : l.reverse.mergeSort.Perm l := (List.mergeSort_perm _ _).trans l.reverse_perm
  exact perm.eq_of_pairwise' (List.pairwise_mergeSort' (· ≤ ·) l.reverse) sorted

namespace Import

/-- The file where the way along the import starts. -/
def near (i : Import) : Direction → SourceName
  | .outgoing => i.importer
  | .incoming => i.dependee

/-- The file that the way along the import leads to. -/
def far (i : Import) : Direction → SourceName
  | .outgoing => i.dependee
  | .incoming => i.importer

end Import

namespace ImportGraph

variable {g h : ImportGraph} {name : SourceName} {e : Import}

section Ranks

theorem rank?_of_mem (known : name ∈ g.names) : g.rank? name = some (g.rank name) := by
  cases found : g.rank? name with
  | none => exact absurd known (List.idxOf?_eq_none_iff.mp found)
  | some r =>
      rw [rank?] at found
      rw [rank, List.idxOf_eq_getD_idxOf?, found, Option.getD_some]

theorem rank?_of_notMem (fresh : name ∉ g.names) : g.rank? name = none :=
  List.idxOf?_eq_none_iff.mpr fresh

theorem mem_of_rank? {r : Nat} (ranked : g.rank? name = some r) : name ∈ g.names := by
  by_contra fresh
  rw [rank?_of_notMem fresh] at ranked
  cases ranked

theorem getElem?_rank (known : name ∈ g.names) : g.names[g.rank name]? = some name := by
  rw [rank, List.getElem?_eq_getElem (List.idxOf_lt_length_of_mem known), List.getElem_idxOf]

theorem names_addName_grown (g : ImportGraph) (name : SourceName) :
    g.names <+: (g.addName name).names := by
  rw [names_addName]
  split
  · exact List.prefix_rfl
  · exact List.prefix_append _ _

theorem rank?_of_grown (grown : g.names <+: h.names) (known : name ∈ g.names) :
    h.rank? name = g.rank? name := by
  rw [rank?_of_mem known, rank?_of_mem (grown.subset known), rank_of_grown grown known]

theorem rank_addName_fresh (fresh : name ∉ g.names) :
    (g.addName name).rank name = g.names.length := by
  rw [rank, names_addName, if_neg fresh, List.idxOf_append_of_notMem fresh, List.idxOf_cons_self,
    Nat.add_zero]

theorem rank?_addName_fresh (fresh : name ∉ g.names) (other : SourceName) :
    (g.addName name).rank? other = if other = name then some g.names.length else g.rank? other := by
  split
  case isTrue same => rw [same, rank?_of_mem (mem_addName g name), rank_addName_fresh fresh]
  case isFalse different =>
    by_cases known : other ∈ g.names
    · exact rank?_of_grown (g.names_addName_grown name) known
    · have unknown : other ∉ (g.addName name).names := by
        rw [names_addName, if_neg fresh]
        simp [known, different]
      rw [rank?_of_notMem known, rank?_of_notMem unknown]

end Ranks

/-- The edge with its ends by rank. -/
def indexed (g : ImportGraph) (e : Import) : IndexedEdge :=
  ⟨g.rank e.importer, g.rank e.dependee, e.specifier⟩

theorem near_indexed (g : ImportGraph) (e : Import) (way : Direction) :
    (g.indexed e).near way = g.rank (e.near way) := by
  cases way <;> rfl

theorem far_indexed (g : ImportGraph) (e : Import) (way : Direction) :
    (g.indexed e).far way = g.rank (e.far way) := by
  cases way <;> rfl

theorem Closed.near (closed : g.Closed) (member : e ∈ g.edges) (way : Direction) :
    e.near way ∈ g.names := by
  cases way
  · exact (closed e member).1
  · exact (closed e member).2

theorem Closed.far (closed : g.Closed) (member : e ∈ g.edges) (way : Direction) :
    e.far way ∈ g.names := by
  cases way
  · exact (closed e member).2
  · exact (closed e member).1

theorem Closed.map_indexed (closed : g.Closed) (grown : g.names <+: h.names) :
    g.edges.map h.indexed = g.edges.map g.indexed := by
  apply List.map_congr_left
  intro e member
  obtain ⟨importer, dependee⟩ := closed e member
  rw [indexed, rank_of_grown grown importer, rank_of_grown grown dependee, indexed]

end ImportGraph

namespace IndexedGraph

variable {x : IndexedGraph} {g : ImportGraph} {name : SourceName}

/-- The parts of an indexed graph are in step with each other and with the graph: numbers are ranks,
and a node has the edges that start there, the newest first. -/
structure Represents (x : IndexedGraph) (g : ImportGraph) : Prop extends g.WellFormed where
  names : x.names = g.names
  index : ∀ name, x.index.get? name = g.rank? name
  edges : x.edges.toList = g.edges.map g.indexed
  attached : ∀ r node, x.nodes[r]? = some node →
    ∀ way, node.edges way = (x.edgesFrom r way).reverse

namespace Represents

section Growth

theorem empty : Represents empty ImportGraph.empty where
  toWellFormed := .empty
  names := rfl
  index := fun _ => rfl
  edges := rfl
  attached := by
    intro r node there
    simp [IndexedGraph.empty] at there

theorem size_nodes (h : x.Represents g) : x.nodes.size = g.names.length := by
  rw [← h.names, IndexedGraph.names, List.length_map, Array.length_toList]

theorem addName_known (h : x.Represents g) (known : name ∈ g.names) :
    x.addName name = (g.rank name, x) := by
  simp only [addName, h.index, ImportGraph.rank?_of_mem known]

theorem addName_fresh (h : x.Represents g) (fresh : name ∉ g.names) :
    x.addName name = (g.names.length,
      { x with
        index := x.index.insert name g.names.length
        nodes := x.nodes.push { name } }) := by
  simp only [addName, h.index, ImportGraph.rank?_of_notMem fresh, h.size_nodes]

/-- No edge is at a number that is still to be given. -/
theorem edgesFrom_length (h : x.Represents g) (way : Direction) :
    x.edgesFrom g.names.length way = [] := by
  have none : x.edges.toList.zipIdx.filter (·.1.near way = g.names.length) = [] := by
    rw [List.filter_eq_nil_iff]
    intro numbered member
    have edge := List.fst_mem_of_mem_zipIdx member
    rw [h.edges] at edge
    obtain ⟨e, added, same⟩ := List.mem_map.mp edge
    have bound : g.rank (e.near way) < g.names.length :=
      List.idxOf_lt_length_of_mem (h.closed.near added way)
    rw [← same, g.near_indexed, decide_eq_true_eq]
    omega
  rw [edgesFrom, none, List.map_nil]

theorem addName (h : x.Represents g) (name : SourceName) :
    (x.addName name).2.Represents (g.addName name) := by
  by_cases known : name ∈ g.names
  · rw [h.addName_known known, ImportGraph.addName_known known]
    exact h
  · rw [h.addName_fresh known]
    refine ⟨h.toWellFormed.addName name, ?_, ?_, ?_, ?_⟩
    · rw [ImportGraph.names_addName, if_neg known, ← h.names]
      simp [IndexedGraph.names]
    · intro other
      rw [NameMap.get?_insert, h.index, ImportGraph.rank?_addName_fresh known]
    · rw [ImportGraph.edges_addName, h.closed.map_indexed (g.names_addName_grown name)]
      exact h.edges
    · intro r node there way
      rw [Array.getElem?_push, h.size_nodes] at there
      split at there
      case isTrue last =>
        -- the new node has no edges, and no edge is at its number yet
        obtain rfl : { name } = node := Option.some.inj there
        have none : x.edgesFrom r way = [] := last ▸ h.edgesFrom_length way
        change _ = (x.edgesFrom r way).reverse
        rw [none]
        cases way <;> rfl
      case isFalse => exact h.attached r node there way

theorem fst_addName (h : x.Represents g) (name : SourceName) :
    (x.addName name).1 = (g.addName name).rank name := by
  by_cases known : name ∈ g.names
  · rw [h.addName_known known, ImportGraph.addName_known known]
  · rw [h.addName_fresh known, ImportGraph.rank_addName_fresh known]

theorem connect (h : x.Represents g) {i : Import} (importer : i.importer ∈ g.names)
    (dependee : i.dependee ∈ g.names) :
    (x.connect (g.indexed i)).Represents { g with edges := g.edges ++ [i] } := by
  refine ⟨⟨h.nodup, ?_⟩, ?_, h.index, ?_, ?_⟩
  · intro e member
    rcases List.mem_append.mp member with old | new
    · exact h.closed e old
    · obtain rfl := List.mem_singleton.mp new
      exact ⟨importer, dependee⟩
  · rw [names_connect]
    exact h.names
  · rw [List.map_append]
    simp only [IndexedGraph.connect, Array.toList_push, h.edges]
    rfl
  · intro r node there way
    obtain ⟨before, old, edges⟩ := edges_of_connect there
    rw [edges, edgesFrom_connect, h.attached r before old way]
    split <;> simp

theorem addEdge (h : x.Represents g) (i : Import) : (x.addEdge i).Represents (g.addEdge i) := by
  have first := h.addName i.importer
  have second := first.addName i.dependee
  have importer := ImportGraph.mem_addName g i.importer
  have grown := (g.addName i.importer).names_addName_grown i.dependee
  have joined := second.connect (grown.subset importer) (ImportGraph.mem_addName _ i.dependee)
  -- the importer has got its number before the dependee was added, and has kept it
  rw [ImportGraph.indexed, ImportGraph.rank_of_grown grown importer, ← h.fst_addName,
    ← first.fst_addName] at joined
  exact joined

end Growth

section Answers

theorem name?_rank (h : x.Represents g) (known : name ∈ g.names) :
    x.name? (g.rank name) = some name := by
  rw [name?_eq, h.names, ImportGraph.getElem?_rank known]

theorem imports_eq (h : x.Represents g) : x.imports = g.edges := by
  have resolved : ∀ e ∈ g.edges, x.import? (g.indexed e) = some e := by
    intro e member
    obtain ⟨importer, dependee⟩ := h.closed e member
    simp [import?, ImportGraph.indexed, h.name?_rank importer, h.name?_rank dependee]
  rw [imports, h.edges, List.filterMap_map]
  exact (List.filterMap_congr resolved).trans List.filterMap_some

theorem edgesAt_rank (h : x.Represents g) (known : name ∈ g.names) (way : Direction) :
    x.edgesAt (g.rank name) way = (x.edgesFrom (g.rank name) way).reverse := by
  obtain ⟨node, there, -⟩ := Option.map_eq_some_iff.mp (h.name?_rank known)
  simp only [edgesAt, there, Option.map_some, Option.getD_some, h.attached _ node there way]

/-- Looking up the numbers at the node of `name` brings back the edges that start at `name`. -/
theorem map_getElem?_edgesFrom (h : x.Represents g) (known : name ∈ g.names) (way : Direction) :
    (x.edgesFrom (g.rank name) way).map (x.edges[·]?) =
      (g.edges.filter (·.near way = name)).map (some ∘ g.indexed) := by
  have starts (e : Import) : (g.indexed e).near way = g.rank name ↔ e.near way = name := by
    rw [g.near_indexed]
    exact ⟨fun equal => (ImportGraph.rank_inj known equal.symm).symm, congrArg g.rank⟩
  rw [IndexedGraph.map_getElem?_edgesFrom, h.edges, List.filter_map, List.map_map]
  congr 1
  apply List.filter_congr
  intro e _
  simp only [Function.comp_apply, starts]

theorem neighbours_eq (h : x.Represents g) (name : SourceName) (way : Direction) :
    x.neighbours name way = (g.edges.filter (·.near way = name)).map (·.far way) := by
  by_cases known : name ∈ g.names
  · have resolved : ∀ e ∈ g.edges.filter (·.near way = name),
        x.name? ((g.indexed e).far way) = some (e.far way) := by
      intro e member
      rw [g.far_indexed]
      exact h.name?_rank (h.closed.far (List.mem_of_mem_filter member) way)
    simp only [neighbours, h.index, ImportGraph.rank?_of_mem known]
    -- the numbers at the node decrease, so that sorting turns them round
    rw [h.edgesAt_rank known, mergeSort_reverse (sorted_edgesFrom _ _ _)]
    calc (x.edgesFrom (g.rank name) way).filterMap
          (fun e => x.edges[e]?.bind fun edge => x.name? (edge.far way))
        = ((x.edgesFrom (g.rank name) way).map (x.edges[·]?)).filterMap
            (·.bind fun edge => x.name? (edge.far way)) := by
          rw [List.filterMap_map]
          rfl
      _ = (g.edges.filter (·.near way = name)).filterMap
            (fun e => x.name? ((g.indexed e).far way)) := by
          rw [h.map_getElem?_edgesFrom known, List.filterMap_map]
          rfl
      _ = (g.edges.filter (·.near way = name)).map (·.far way) := by
          rw [List.filterMap_congr resolved]
          exact congrFun List.filterMap_eq_map _
  · have none : g.edges.filter (·.near way = name) = [] := by
      rw [List.filter_eq_nil_iff]
      intro e member here
      exact known (of_decide_eq_true here ▸ h.closed.near member way)
    simp only [neighbours, h.index, ImportGraph.rank?_of_notMem known, none, List.map_nil]

theorem hasEdge_eq (h : x.Represents g) (a b : SourceName) : x.hasEdge a b = g.hasEdge a b := by
  rw [Bool.eq_iff_iff, ImportGraph.hasEdge_iff]
  by_cases known : a ∈ g.names ∧ b ∈ g.names
  · obtain ⟨importer, dependee⟩ := known
    have leads (e : Import) : (g.indexed e).dependee = g.rank b ↔ e.dependee = b :=
      ⟨fun equal => (ImportGraph.rank_inj dependee equal.symm).symm, congrArg g.rank⟩
    have looked : (x.edgesFrom (g.rank a) .outgoing).any
          (fun e => x.edges[e]?.any (·.dependee = g.rank b)) =
        ((x.edgesFrom (g.rank a) .outgoing).map (x.edges[·]?)).any
          (·.any (·.dependee = g.rank b)) := by
      rw [List.any_map]
      rfl
    simp only [hasEdge, h.index, ImportGraph.rank?_of_mem importer,
      ImportGraph.rank?_of_mem dependee, h.edgesAt_rank importer, List.any_reverse]
    rw [looked, h.map_getElem?_edgesFrom importer]
    simp only [List.any_map, List.any_filter, Function.comp_apply, Option.any_some, leads,
      List.any_eq_true, Bool.and_eq_true, decide_eq_true_eq]
    rfl
  · constructor
    · intro found
      simp only [hasEdge, h.index] at found
      split at found
      case h_1 importer dependee =>
        exact absurd ⟨ImportGraph.mem_of_rank? importer, ImportGraph.mem_of_rank? dependee⟩ known
      case h_2 => cases found
    · rintro ⟨e, member, rfl, rfl⟩
      exact absurd (h.closed e member) known

end Answers

end Represents

/-- The indexed graph gives the same answers as the graph, and a name that is added gets the number
which is then its rank. -/
structure AnswersAs (x : IndexedGraph) (g : ImportGraph) : Prop where
  names : x.names = g.names
  rank? : ∀ name, x.rank? name = g.rank? name
  addName : ∀ name, (g.addName name).rank? name = some (x.addName name).1
  imports : x.imports = g.edges
  edgeCount : x.edges.size = g.edges.length
  hasEdge : ∀ a b, x.hasEdge a b = g.hasEdge a b
  dependenciesOf : ∀ name, x.dependenciesOf name = g.dependenciesOf name
  dependentsOf : ∀ name, x.dependentsOf name = g.dependentsOf name

theorem Represents.answersAs (h : x.Represents g) : x.AnswersAs g where
  names := h.names
  rank? := h.index
  addName := fun name => by
    rw [h.fst_addName, ImportGraph.rank?_of_mem (ImportGraph.mem_addName g name)]
  imports := h.imports_eq
  edgeCount := by rw [← Array.length_toList, h.edges, List.length_map]
  hasEdge := h.hasEdge_eq
  dependenciesOf := fun name => h.neighbours_eq name .outgoing
  dependentsOf := fun name => h.neighbours_eq name .incoming

def add (x : IndexedGraph) : Addition → IndexedGraph
  | .name name => (x.addName name).2
  | .edge i => x.addEdge i

/-- The indexed graph that the additions make of the empty one. -/
def ofAdditions (additions : List Addition) : IndexedGraph := additions.foldl add empty

theorem Represents.add (h : x.Represents g) (addition : Addition) :
    (x.add addition).Represents (g.add addition) := by
  cases addition with
  | name name => exact h.addName name
  | edge i => exact h.addEdge i

theorem Represents.foldl_add (h : x.Represents g) (additions : List Addition) :
    (additions.foldl IndexedGraph.add x).Represents (additions.foldl ImportGraph.add g) := by
  induction additions generalizing x g with
  | nil => exact h
  | cons addition rest ih => exact ih (h.add addition)

end IndexedGraph

end ImportFlattening

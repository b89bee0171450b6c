import ImportFlattening.Proofs.GraphRepresentation
import Mathlib.Algebra.BigOperators.Group.Finset.Basic
import Mathlib.Algebra.GroupWithZero.Nat

/-! # A graph and its history

What a graph says is settled by what has been added, in order and with its repetitions: which names
are mentioned first and which edges are added (`ImportGraph.Recounts`). A graph forgets nothing, and
ranks stay as they are.
-/

namespace ImportFlattening

theorem eraseDups_concat {α : Type} [DecidableEq α] (l : List α) (a : α) :
    (l ++ [a]).eraseDups = if a ∈ l then l.eraseDups else l.eraseDups ++ [a] := by
  rw [List.eraseDups_append]
  by_cases known : a ∈ l <;> simp [List.removeAll, List.eraseDups_cons, known]

namespace Addition

/-- The names that are mentioned, the importer of an edge before its dependee. -/
def mentions : Addition → List SourceName
  | .name file => [file]
  | .edge i => [i.importer, i.dependee]

def edge? : Addition → Option Import
  | .name _ => none
  | .edge i => some i

end Addition

namespace ImportGraph

variable {g : ImportGraph} {additions : List Addition}

theorem names_addName_eraseDups {mentioned : List SourceName}
    (listed : g.names = mentioned.eraseDups) (name : SourceName) :
    (g.addName name).names = (mentioned ++ [name]).eraseDups := by
  rw [names_addName, eraseDups_concat, listed]
  simp only [List.mem_eraseDups]

/-- The graph lists the names in the order in which the additions first mention them, and the edges
in the order in which they are added. -/
structure Recounts (g : ImportGraph) (additions : List Addition) : Prop where
  names : g.names = (additions.flatMap Addition.mentions).eraseDups
  edges : g.edges = additions.filterMap Addition.edge?

namespace Recounts

theorem add (recounts : g.Recounts additions) (addition : Addition) :
    (g.add addition).Recounts (additions ++ [addition]) := by
  constructor
  · rw [List.flatMap_append, List.flatMap_singleton]
    cases addition with
    | name name => exact names_addName_eraseDups recounts.names name
    | edge i =>
        have first := names_addName_eraseDups recounts.names i.importer
        have second := names_addName_eraseDups first i.dependee
        rw [List.append_assoc] at second
        exact second
  · rw [List.filterMap_append, ← recounts.edges]
    cases addition with
    | name name => simp [ImportGraph.add, Addition.edge?]
    | edge i => simp [ImportGraph.add, Addition.edge?]

theorem foldl_add (recounts : g.Recounts additions) (later : List Addition) :
    (later.foldl ImportGraph.add g).Recounts (additions ++ later) := by
  induction later generalizing g additions with
  | nil => rwa [List.append_nil]
  | cons addition later ih =>
      rw [List.append_cons]
      exact ih (recounts.add addition)

theorem empty : ImportGraph.empty.Recounts [] := ⟨rfl, rfl⟩

end Recounts

theorem names_add_grown (g : ImportGraph) (addition : Addition) :
    g.names <+: (g.add addition).names := by
  cases addition with
  | name name => exact g.names_addName_grown name
  | edge i => exact (g.names_addName_grown i.importer).trans (names_addName_grown _ i.dependee)

theorem names_foldl_grown (g : ImportGraph) (later : List Addition) :
    g.names <+: (later.foldl add g).names := by
  induction later generalizing g with
  | nil => exact List.prefix_rfl
  | cons addition later ih => exact (g.names_add_grown addition).trans (ih _)

theorem rank?_eq_some_iff (nodup : g.names.Nodup) {name : SourceName} {r : Nat} :
    g.rank? name = some r ↔ g.names[r]? = some name := by
  constructor
  · intro ranked
    have known := mem_of_rank? ranked
    rw [rank?_of_mem known] at ranked
    obtain rfl := Option.some.inj ranked
    exact getElem?_rank known
  · intro place
    obtain ⟨bound, rfl⟩ := List.getElem?_eq_some_iff.mp place
    rw [rank?_of_mem (List.getElem_mem bound), rank, nodup.idxOf_getElem r bound]

/-- Each edge is counted at its importer and nowhere else. -/
theorem sum_length_dependenciesOf (wellFormed : g.WellFormed) :
    (g.names.map fun name => (g.dependenciesOf name).length).sum = g.edges.length := by
  have counted (name : SourceName) :
      (g.dependenciesOf name).length = (g.edges.map Import.importer).count name := by
    rw [dependenciesOf, List.length_map, ← List.countP_eq_length_filter, List.count,
      List.countP_map]
    rfl
  have inside : ∀ name ∈ (↑(g.edges.map Import.importer) : Multiset SourceName),
      name ∈ g.names.toFinset := by
    intro name member
    obtain ⟨e, added, rfl⟩ := List.mem_map.mp (Multiset.mem_coe.mp member)
    exact List.mem_toFinset.mpr (wellFormed.closed e added).1
  simp only [counted]
  rw [← List.sum_toFinset _ wellFormed.nodup]
  simpa using Multiset.sum_count_eq_card inside

/-- However a graph has been made, it lists every name that has been mentioned, once and in the order
of the first mention; the rank of a name is its place in that list, and stays so whatever is added
later. There is one edge for each that has been added, in the same order, and an edge leads from one
file to another if and only if such an edge has been added. The dependencies and the dependents of a
file are those that the added edges have at their other end, in order and with repetitions, so that
the numbers of dependencies add up to the number of edges. The indexed graph that is made in the same
way gives the same answers. -/
theorem graph_recounts_additions (additions : List Addition) :
    let g := ofAdditions additions
    let added := additions.filterMap Addition.edge?
    (g.names.Nodup ∧ g.names = (additions.flatMap Addition.mentions).eraseDups) ∧
    ((∀ name, (g.rank? name).isSome ↔ name ∈ g.names) ∧
      (∀ name r, g.rank? name = some r ↔ g.names[r]? = some name) ∧
      ∀ later, ∀ name ∈ g.names, (ofAdditions (additions ++ later)).rank? name = g.rank? name) ∧
    g.edges = added ∧
    (∀ a b, g.hasEdge a b ↔ ∃ e ∈ added, e.importer = a ∧ e.dependee = b) ∧
    (∀ name, g.dependenciesOf name = (added.filter (·.importer = name)).map Import.dependee ∧
      g.dependentsOf name = (added.filter (·.dependee = name)).map Import.importer) ∧
    (g.names.map fun name => (g.dependenciesOf name).length).sum = g.edges.length ∧
    (IndexedGraph.ofAdditions additions).AnswersAs g := by
  intro g added
  have wellFormed : g.WellFormed := Built.wellFormed ⟨additions, rfl⟩
  have recounts : g.Recounts additions := Recounts.empty.foldl_add additions
  have edges : g.edges = added := recounts.edges
  have represents : (IndexedGraph.ofAdditions additions).Represents g :=
    IndexedGraph.Represents.empty.foldl_add additions
  refine ⟨⟨wellFormed.nodup, recounts.names⟩, ⟨?_, ?_, ?_⟩, edges, ?_, ?_,
    sum_length_dependenciesOf wellFormed, represents.answersAs⟩
  · intro name
    rw [Option.isSome_iff_exists]
    exact ⟨fun ⟨_, ranked⟩ => mem_of_rank? ranked, fun known => ⟨_, rank?_of_mem known⟩⟩
  · exact fun name r => rank?_eq_some_iff wellFormed.nodup
  · intro later name known
    have grown : g.names <+: (ofAdditions (additions ++ later)).names := by
      rw [ofAdditions, List.foldl_append]
      exact g.names_foldl_grown later
    exact rank?_of_grown grown known
  · intro a b
    rw [hasEdge_iff, Edge, edges]
  · intro name
    rw [dependenciesOf, dependentsOf, edges]
    exact ⟨rfl, rfl⟩

/-- `B` is added before any edge is, `A` imports it twice, and `C` imports itself. -/
def knotted : List Addition := [
  .name ⟨"B"⟩, .edge ⟨⟨"A"⟩, ⟨"B"⟩, "./B"⟩, .edge ⟨⟨"C"⟩, ⟨"C"⟩, "./C"⟩, .name ⟨"A"⟩,
  .edge ⟨⟨"A"⟩, ⟨"B"⟩, "B"⟩, .edge ⟨⟨"B"⟩, ⟨"C"⟩, "./C"⟩]

theorem knotted_recounts :
    let g := ofAdditions knotted
    g.names = [⟨"B"⟩, ⟨"A"⟩, ⟨"C"⟩] ∧
    ⟨"A"⟩ ∈ g.names ∧ (ofAdditions (knotted ++ [.name ⟨"D"⟩])).rank? ⟨"A"⟩ = some 1 ∧
    (IndexedGraph.ofAdditions knotted).dependenciesOf ⟨"A"⟩ = [⟨"B"⟩, ⟨"B"⟩] ∧
    (IndexedGraph.ofAdditions knotted).dependentsOf ⟨"C"⟩ = [⟨"C"⟩, ⟨"B"⟩] := by
  intro g
  have known : ⟨"A"⟩ ∈ g.names := by decide
  obtain ⟨⟨-, names⟩, ⟨-, -, kept⟩, -, -, neighbours, -, answers⟩ := graph_recounts_additions knotted
  refine ⟨names.trans (by decide), known, (kept _ _ known).trans (by decide), ?_, ?_⟩
  · rw [answers.dependenciesOf, (neighbours _).1]
    decide
  · rw [answers.dependentsOf, (neighbours _).2]
    decide

end ImportGraph

end ImportFlattening

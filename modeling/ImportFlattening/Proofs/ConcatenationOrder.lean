import ImportFlattening.Flattened
import ImportFlattening.Proofs.CycleClosing
import ImportFlattening.Proofs.PeelingOrder

/-! # The order of concatenation

Discovery and peeling together give the finishing order of a depth-first walk. So the order holds
every file that the target leads to, once, and each import of a file leads to an earlier file, has
closed a cycle, or was skipped.
-/

namespace ImportFlattening

open Relation

/-- One of three statements holds, and only one. -/
def ExactlyOne (p q r : Prop) : Prop :=
  (p ∧ ¬ q ∧ ¬ r) ∨ (¬ p ∧ q ∧ ¬ r) ∨ (¬ p ∧ ¬ q ∧ r)

theorem map_rank_names {g : ImportGraph} (nodup : g.names.Nodup) :
    g.names.map g.rank = List.range g.names.length := by
  apply List.ext_getElem
  · simp
  · intro i bound _
    rw [List.getElem_map, List.getElem_range]
    exact nodup.idxOf_getElem i _

namespace Traversal

variable {units : NameMap SourceUnit} {policy : CyclePolicy} {target : SourceName} {d : Discovery}
  {order : List SourceName}

theorem closed (traversal : Traversal units policy target d order) : d.graph.Closed := by
  intro e member
  have among := traversal.edge_among ⟨e, member, rfl, rfl⟩
  rw [traversal.names.mem_iff, traversal.names.mem_iff, traversal.reached, traversal.reached]
  exact ⟨among.1, among.2.1⟩

theorem peels (traversal : Traversal units policy target d order)
    (forward : ∀ a b, d.graph.Edge a b → order.idxOf b < order.idxOf a) :
    Peeling.Peels d.graph.links d.graph.names.length (order.map d.graph.rank) where
  perm := by
    rw [← map_rank_names (traversal.names.nodup_iff.mpr traversal.nodup)]
    exact traversal.names.symm.map _
  importers := by
    apply InOrder.map
    intro before file after cut u link member
    obtain ⟨e, edge, rfl, same⟩ := ImportGraph.mem_links.mp link
    obtain ⟨importer, dependee⟩ := traversal.closed e edge
    obtain rfl := ImportGraph.rank_inj dependee same
    have lower := forward _ _ ⟨e, edge, rfl, rfl⟩
    rcases List.mem_append.mp member with earlier | here
    · obtain ⟨other, inside, same⟩ := List.mem_map.mp earlier
      obtain rfl := ImportGraph.rank_inj importer same.symm
      have higher := (InOrder.idxOf_lt_iff _ traversal.nodup cut).mpr inside
      omega
    · have same := ImportGraph.rank_inj importer (List.mem_singleton.mp here)
      rw [same] at lower
      exact Nat.lt_irrefl _ lower
  nested := by
    apply InOrder.map
    intro before file after cut rank member
    obtain ⟨other, earlier, rfl⟩ := List.mem_map.mp member
    rcases traversal.nested _ _ _ cut other earlier with lower | ⟨importer, inside, edge⟩
    · exact .inl lower
    · refine .inr ⟨d.graph.rank importer, ?_, ImportGraph.link_of_edge edge⟩
      have mapped := List.mem_map_of_mem (f := d.graph.rank) inside
      rwa [List.map_append] at mapped

/-- Where every edge leads to a file finished before, the finishing order is peeled off. -/
theorem linearize (traversal : Traversal units policy target d order)
    (forward : ∀ a b, d.graph.Edge a b → order.idxOf b < order.idxOf a) :
    d.graph.linearize target = .ok order := by
  cases edges : d.graph.hasEdges with
  | true =>
      refine ImportGraph.linearize_of_peels traversal.closed edges ?_ (traversal.peels forward)
      exact fun file member => traversal.names.mem_iff.mpr member
  | false =>
      obtain ⟨others, last⟩ := traversal.last
      have alone : others = [] := by
        rw [List.eq_nil_iff_forall_not_mem]
        intro other member
        rcases traversal.nested _ _ _ last other member with lower | ⟨importer, -, edge⟩
        · rw [traversal.first] at lower
          exact Nat.not_lt_zero _ lower
        · obtain ⟨e, member, -⟩ := edge
          rw [ImportGraph.hasEdges_of_mem member] at edges
          contradiction
      simp [ImportGraph.linearize, edges, last, alone]

/-- A graph that has been put in order has only edges to files finished before. -/
theorem forward_of_linearize (traversal : Traversal units policy target d order)
    {names : List SourceName} (linear : d.graph.linearize target = .ok names) :
    ∀ a b, d.graph.Edge a b → order.idxOf b < order.idxOf a := by
  rintro a b ⟨e, member, rfl, rfl⟩
  obtain ⟨-, -, lower | ⟨-, back⟩⟩ := traversal.edge_import member
  · exact lower
  · have cycle : TransGen d.graph.Edge e.importer e.importer := .head' ⟨e, member, rfl, rfl⟩ back
    exact absurd cycle (ImportGraph.linearize_acyclic traversal.closed linear e.importer)

theorem mem_skipped_iff (traversal : Traversal units policy target d order) {i : Import}
    (member : i.importer ∈ order) (own : i ∈ importsOf units i.importer) :
    i ∈ d.skipped ↔ ¬ units.contains i.dependee := by
  obtain ⟨before, -, settled, -⟩ := traversal.settled_at member
  have noted : i ∈ d.skipped ↔ i ∈ (d.account i.importer).skipped := by simp [Discovery.account]
  rw [noted, settled.account, Account.ofImports, Account.skipped_foldl_note]
  simp [own]

theorem import_cases (traversal : Traversal units policy target d order) {i : Import}
    (member : i.importer ∈ order) (own : i ∈ importsOf units i.importer) :
    ExactlyOne (order.idxOf i.dependee < order.idxOf i.importer) (i ∈ d.cycles)
      (i ∈ d.skipped) := by
  have known : order.idxOf i.dependee < order.idxOf i.importer → units.contains i.dependee := by
    intro lower
    obtain ⟨before, inside, -, position⟩ := traversal.settled_at member
    exact ((traversal.reached _).mp (inside ((position _).mp lower))).1
  rw [traversal.mem_cycles_iff member own, traversal.mem_skipped_iff member own, ExactlyOne]
  tauto

end Traversal

namespace Compilation

variable {c : Compilation} {policy : Policy} {o : FlatOrder}

theorem order_cases (ordered : c.order policy = .ok o) : ∃ d,
    discover c.units policy c.target = .ok d ∧ d.graph.linearize c.target = .ok o.names ∧
      o.cycles = d.cycles ∧ o.skipped = d.skipped := by
  unfold order at ordered
  cases discovered : discover c.units policy c.target with
  | error e => simp [discovered, bind, Except.bind] at ordered
  | ok d =>
      cases linear : d.graph.linearize c.target with
      | error e => simp [discovered, linear, bind, Except.bind] at ordered
      | ok names =>
          simp only [discovered, linear, bind, Except.bind, pure, Except.pure,
            Except.ok.injEq] at ordered
          subst ordered
          exact ⟨d, rfl, linear, rfl, rfl⟩

theorem names_of_linearize {d : Discovery} {names : List SourceName}
    (discovered : discover c.units policy c.target = .ok d)
    (linear : d.graph.linearize c.target = .ok names) : names = postOrder c.units c.target := by
  have traversal := traversal_of_discover discovered
  rw [traversal.linearize (traversal.forward_of_linearize linear)] at linear
  exact (Except.ok.inj linear).symm

theorem mem_order_names (ordered : c.order policy = .ok o) (file : SourceName) :
    file ∈ o.names ↔ Reached c.units c.target file := by
  obtain ⟨d, discovered, linear, -, -⟩ := order_cases ordered
  rw [names_of_linearize discovered linear]
  exact (traversal_of_discover discovered).reached file

/-- Building the graph and peeling it gives the finishing order of a plain depth-first walk. -/
theorem order_names_eq_postOrder (ordered : c.order policy = .ok o) :
    o.names = postOrder c.units c.target := by
  obtain ⟨d, discovered, linear, -, -⟩ := order_cases ordered
  exact names_of_linearize discovered linear

/-- The compilation of `tangledUnits` for `A`. -/
def tangled : Compilation where
  target := ⟨"A"⟩
  units := tangledUnits

theorem order_tangled : tangled.order ⟨.skip, .drop⟩ = .ok
    { names := [⟨"D"⟩, ⟨"B"⟩, ⟨"C"⟩, ⟨"A"⟩]
      cycles := [⟨⟨"D"⟩, ⟨"B"⟩, "./B"⟩, ⟨⟨"C"⟩, ⟨"A"⟩, "./A"⟩]
      skipped := [⟨⟨"A"⟩, ⟨"Gone"⟩, "./Gone"⟩] } := by
  simp only [order, tangled, discover_tangledUnits]
  decide

theorem order_tangled_eq_postOrder : ∃ o, tangled.order ⟨.skip, .drop⟩ = .ok o ∧
    o.names = postOrder tangled.units tangled.target :=
  ⟨_, order_tangled, order_names_eq_postOrder order_tangled⟩

/-- The order holds the files that the target leads to, once each and the target last. Each import
leads to an earlier file, has closed a cycle, or was skipped. -/
theorem order_places_every_import (ordered : c.order policy = .ok o) :
    o.names.Nodup ∧ (∀ file, file ∈ o.names ↔ Reached c.units c.target file) ∧
    o.names.getLast? = some c.target ∧
    ∀ file ∈ o.names, ∀ unit, c.units.get? file = some unit → ∀ specifier ∈ unit.imports,
      ∀ dependee, file.resolve specifier = dependee →
        ExactlyOne (o.names.idxOf dependee < o.names.idxOf file)
          (⟨file, dependee, specifier⟩ ∈ o.cycles) (⟨file, dependee, specifier⟩ ∈ o.skipped) := by
  obtain ⟨d, discovered, linear, cycles, skipped⟩ := order_cases ordered
  have traversal := traversal_of_discover discovered
  rw [← names_of_linearize discovered linear] at traversal
  refine ⟨traversal.nodup, traversal.reached, ?_, ?_⟩
  · obtain ⟨others, last⟩ := traversal.last
    simp [last]
  · rintro file member unit found specifier written dependee rfl
    have own : ⟨file, file.resolve specifier, specifier⟩ ∈ importsOf c.units file := by
      rw [importsOf_found found]
      exact List.mem_map_of_mem written
    rw [cycles, skipped]
    exact traversal.import_cases (i := ⟨file, _, specifier⟩) member own

theorem order_tangled_places_imports : ∃ o, tangled.order ⟨.skip, .drop⟩ = .ok o ∧
    Reached tangled.units tangled.target ⟨"D"⟩ ∧
    ExactlyOne (o.names.idxOf ⟨"A"⟩ < o.names.idxOf ⟨"C"⟩) (⟨⟨"C"⟩, ⟨"A"⟩, "./A"⟩ ∈ o.cycles)
      (⟨⟨"C"⟩, ⟨"A"⟩, "./A"⟩ ∈ o.skipped) := by
  obtain ⟨-, reached, -, placed⟩ := order_places_every_import order_tangled
  have found : tangled.units.get? ⟨"C"⟩ = some (.ofImports ["./D", "./A"]) := by decide
  have written : "./A" ∈ (SourceUnit.ofImports ["./D", "./A"]).imports := by decide
  have resolved : SourceName.resolve ⟨"C"⟩ "./A" = ⟨"A"⟩ := by decide
  refine ⟨_, order_tangled, (reached _).mp (by simp), ?_⟩
  exact placed _ (by simp) _ found _ written _ resolved

end Compilation

end ImportFlattening

import ImportFlattening.Proofs.ConcatenationOrder
import ImportFlattening.Proofs.GraphGrowth
import ImportFlattening.Proofs.LinkSearch
import Mathlib.Data.Fintype.EquivFin
import Mathlib.Data.List.Infix
import Mathlib.Data.List.Lex
import Mathlib.Order.WellFounded

/-! # The greatest order of a graph

A graph without a cycle can be peeled to the end, since among the files not taken there is always one
that none of the others imports. Each step takes the ready file of greatest rank, so where another
order departs from the one peeled off, it has a file of lower rank. Read from last to first, the
order peeled off is the greatest of all orders of the graph, which makes it a matter of the graph's
files and of which of them are joined, and of nothing else.
-/

namespace ImportFlattening

open Relation

namespace Peeling

/-- Every rank once, and each after all that it is linked to. -/
structure Respects (links : List (Nat × Nat)) (size : Nat) (order : List Nat) : Prop where
  perm : order.Perm (List.range size)
  forward : ∀ link ∈ links, order.idxOf link.2 < order.idxOf link.1

section Progress

variable {links : List (Nat × Nat)} {size v : Nat} {p : Peeling}

theorem run_succ_none {count : Nat} (step : p.step links = none) :
    p.run links (count + 1) = p := by
  simp only [run, step]

theorem run_succ_some {count : Nat} {q : Peeling} (step : p.step links = some q) :
    p.run links (count + 1) = q.run links count := by
  simp only [run, step]

theorem step_eq_none_iff : p.step links = none ↔ p.ready = [] := by
  unfold Peeling.step
  split <;> simp_all

theorem taken_step {q : Peeling} (step : p.step links = some q) :
    ∃ r rest, p.ready = r :: rest ∧ q.taken = r :: p.taken := by
  obtain ⟨r, rest, ready, rfl⟩ := step_cases step
  exact ⟨r, rest, ready, taken_foldl_discount _ _⟩

/-- A run of so many steps takes a file in each of them or ends with nothing ready. -/
theorem run_ends (links : List (Nat × Nat)) (count : Nat) (p : Peeling) :
    (p.run links count).ready = [] ∨
      (p.run links count).taken.length = p.taken.length + count := by
  induction count generalizing p with
  | zero => exact .inr rfl
  | succ count ih =>
      cases step : p.step links with
      | none =>
          rw [run_succ_none step]
          exact .inl (step_eq_none_iff.mp step)
      | some q =>
          rw [run_succ_some step]
          obtain ⟨r, rest, -, taken⟩ := taken_step step
          rcases ih q with stuck | length
          · exact .inl stuck
          · rw [taken, List.length_cons] at length
            exact .inr (by omega)

theorem taken_suffix_run (links : List (Nat × Nat)) (count : Nat) (p : Peeling) :
    p.taken <:+ (p.run links count).taken := by
  induction count generalizing p with
  | zero => exact List.suffix_rfl
  | succ count ih =>
      cases step : p.step links with
      | none =>
          rw [run_succ_none step]
      | some q =>
          rw [run_succ_some step]
          obtain ⟨r, rest, -, taken⟩ := taken_step step
          exact (taken ▸ List.suffix_cons r p.taken).trans (ih q)

theorem exists_untaken (short : p.taken.length < size) : ∃ v < size, v ∉ p.taken := by
  by_contra all
  push Not at all
  have inside : List.range size ⊆ p.taken := fun v member => all v (List.mem_range.mp member)
  have long := (List.subperm_of_subset List.nodup_range inside).length_le
  rw [List.length_range] at long
  omega

/-- Without a cycle, some file is ready until all have been taken. -/
theorem Balanced.ready_ne_nil (h : Balanced links size p)
    (inside : ∀ link ∈ links, link.1 < size ∧ link.2 < size)
    (acyclic : ∀ u, ¬ TransGen (ImportGraph.Linked links) u u) (bound : v < size)
    (untaken : v ∉ p.taken) : p.ready ≠ [] := by
  let above : Fin size → Fin size → Prop :=
    fun a b => TransGen (ImportGraph.Linked links) a.1 b.1
  have : IsTrans (Fin size) above := ⟨fun _ _ _ first second => first.trans second⟩
  have : Std.Irrefl above := ⟨fun u => acyclic u.1⟩
  have wellFounded : WellFounded above := Finite.wellFounded_of_trans_of_irrefl above
  -- a file not taken that no other such file leads to
  obtain ⟨top, open_, least⟩ :=
    wellFounded.has_min {u : Fin size | u.1 ∉ p.taken} ⟨⟨v, bound⟩, untaken⟩
  have closed : openLinks links p.taken top.1 = 0 := by
    rw [openLinks_eq_zero_iff]
    intro a link
    by_contra early
    exact least ⟨a, (inside _ link).1⟩ early (.single link)
  have ready : top.1 ∈ p.ready :=
    (h.ready top.1).mpr ⟨top.2, open_, (h.degrees top.1 top.2).trans closed⟩
  exact List.ne_nil_of_mem ready

theorem run_complete (inside : ∀ link ∈ links, link.1 < size ∧ link.2 < size)
    (acyclic : ∀ u, ¬ TransGen (ImportGraph.Linked links) u u) :
    size ≤ ((start links size).run links size).taken.length := by
  have balanced := (Balanced.start links size).run inside size
  rcases run_ends links size (start links size) with stuck | length
  · by_contra short
    obtain ⟨v, bound, untaken⟩ := exists_untaken (Nat.lt_of_not_le short)
    exact balanced.ready_ne_nil inside acyclic bound untaken stuck
  · omega

end Progress

section Greedy

variable {links : List (Nat × Nat)} {size r u : Nat} {p q : Peeling} {order before rest : List Nat}

theorem Balanced.respects (h : Balanced links size p) (complete : size ≤ p.taken.length)
    (inside : ∀ link ∈ links, link.1 < size ∧ link.2 < size) : Respects links size p.taken := by
  have perm := h.taken_perm complete
  refine ⟨perm, ?_⟩
  intro link member
  have taken : link.2 ∈ p.taken :=
    perm.mem_iff.mpr (List.mem_range.mpr (inside link member).2)
  exact (h.importers link member taken).2

/-- Where an order agrees with the files taken so far, the file it has before them is ready. -/
theorem Respects.mem_ready (respects : Respects links size order) (h : Balanced links size p)
    (inside : ∀ link ∈ links, link.1 < size ∧ link.2 < size)
    (cut : order = before ++ u :: p.taken) : u ∈ p.ready := by
  have nodup : order.Nodup := respects.perm.nodup_iff.mpr List.nodup_range
  have bound : u < size := by
    rw [← List.mem_range, ← respects.perm.mem_iff, cut]
    simp
  have untaken : u ∉ p.taken := by
    rw [cut] at nodup
    exact (List.nodup_cons.mp (List.nodup_append.mp nodup).2.1).1
  rw [h.ready, h.degrees u bound, openLinks_eq_zero_iff]
  refine ⟨bound, untaken, ?_⟩
  intro a link
  have lower : order.idxOf u < order.idxOf a := respects.forward _ link
  have member : a ∈ order :=
    respects.perm.mem_iff.mpr (List.mem_range.mpr (inside _ link).1)
  -- of what stands in the order, only the files taken stand after `u`
  have notBefore : a ∉ before := by
    intro earlier
    have := (InOrder.idxOf_lt_iff a nodup cut).mpr earlier
    omega
  have different : a ≠ u := by
    rintro rfl
    exact Nat.lt_irrefl _ lower
  rw [cut] at member
  simpa [notBefore, different] using member

/-- Where all files have been taken, no other order agrees with those taken. -/
theorem Respects.eq_taken (respects : Respects links size order)
    (complete : size ≤ p.taken.length) (cut : order = before ++ p.taken) : order = p.taken := by
  have length : order.length = size := by simpa using respects.perm.length_eq
  rw [cut, List.length_append] at length
  have none : before = [] := List.eq_nil_of_length_eq_zero (by omega)
  rw [cut, none, List.nil_append]

/-- An order that agrees with the files taken so far is the one that the run leads to, or it is
smaller where it departs from it. -/
theorem Respects.run_greatest (respects : Respects links size order)
    (inside : ∀ link ∈ links, link.1 < size ∧ link.2 < size) (count : Nat)
    (h : Balanced links size p) (complete : size ≤ (p.run links count).taken.length)
    (cut : order = before ++ p.taken) :
    order = (p.run links count).taken ∨ order.reverse < (p.run links count).taken.reverse := by
  have length : order.length = size := by simpa using respects.perm.length_eq
  induction count generalizing p before with
  | zero => exact .inl (respects.eq_taken complete cut)
  | succ count ih =>
      cases step : p.step links with
      | none =>
          rw [run_succ_none step] at complete ⊢
          exact .inl (respects.eq_taken complete cut)
      | some q =>
          rw [run_succ_some step] at complete ⊢
          obtain ⟨r, rest, ready, taken⟩ := taken_step step
          have balanced := h.step inside step
          rcases List.eq_nil_or_concat before with rfl | ⟨front, u, rfl⟩
          · -- nothing is left to take, but `r` is
            have fits := balanced.length_taken_le
            rw [taken, List.length_cons, ← length, cut, List.nil_append] at fits
            omega
          · rw [List.concat_eq_append, List.append_assoc, List.singleton_append] at cut
            by_cases same : u = r
            · exact ih balanced complete (by rw [cut, taken, same])
            · right
              have lower : u < r := by
                have member := respects.mem_ready h inside cut
                rw [ready] at member
                have tail := (List.mem_cons.mp member).resolve_left same
                exact (List.pairwise_cons.mp (ready ▸ h.sorted)).1 u tail
              obtain ⟨later, run⟩ := taken_suffix_run links count q
              rw [cut, ← run, taken]
              simp only [List.reverse_append, List.reverse_cons, List.append_assoc]
              apply List.append_left_lt
              exact List.Lex.rel lower

end Greedy

end Peeling

namespace ImportGraph

/-- Every file of the graph once, and each after all that it imports. -/
structure Linearizes (g : ImportGraph) (order : List SourceName) : Prop where
  perm : order.Perm g.names
  forward : ∀ importer dependee, g.Edge importer dependee →
    order.idxOf dependee < order.idxOf importer

section Ranks

variable {g : ImportGraph} {order : List SourceName}

theorem idxOf_map_rank (inside : order ⊆ g.names) (a : SourceName) :
    (order.map g.rank).idxOf (g.rank a) = order.idxOf a :=
  idxOf_map_of_inj fun _ member same => rank_inj (inside member) same

/-- What links lead from and to are ranks of files, between which the edges lead likewise. -/
theorem exists_path_of_links (closed : g.Closed) {u v : Nat}
    (path : TransGen (Linked g.links) u v) :
    ∃ a ∈ g.names, ∃ b ∈ g.names, TransGen g.Edge a b ∧ g.rank a = u ∧ g.rank b = v := by
  induction path with
  | single link =>
      obtain ⟨e, member, importer, dependee⟩ := mem_links.mp link
      obtain ⟨known, known'⟩ := closed e member
      exact ⟨_, known, _, known', .single ⟨e, member, rfl, rfl⟩, importer, dependee⟩
  | tail _ link ih =>
      obtain ⟨a, known, b, known', path, first, middle⟩ := ih
      obtain ⟨e, member, importer, dependee⟩ := mem_links.mp link
      obtain rfl : b = e.importer := rank_inj known' (middle.trans importer.symm)
      exact ⟨a, known, _, (closed e member).2, path.tail ⟨e, member, rfl, rfl⟩, first, dependee⟩

theorem acyclic_links (closed : g.Closed) (acyclic : ∀ file, ¬ TransGen g.Edge file file) (u : Nat) :
    ¬ TransGen (Linked g.links) u u := by
  intro path
  obtain ⟨a, known, b, -, path, first, last⟩ := exists_path_of_links closed path
  obtain rfl : a = b := rank_inj known (first.trans last.symm)
  exact acyclic a path

theorem map_rank_filterMap (nodup : g.names.Nodup) {ranks : List Nat}
    (bounded : ∀ v ∈ ranks, v < g.names.length) :
    (ranks.filterMap (g.names[·]?)).map g.rank = ranks := by
  rw [List.map_filterMap]
  conv_rhs => rw [← List.filterMap_some (l := ranks)]
  refine List.filterMap_congr fun v member => ?_
  have bound := bounded v member
  rw [List.getElem?_eq_getElem bound, Option.map_some, rank, nodup.idxOf_getElem v bound]

theorem Linearizes.respects (linear : g.Linearizes order) (wellFormed : g.WellFormed) :
    Peeling.Respects g.links g.names.length (order.map g.rank) where
  perm := by
    rw [← map_rank_names wellFormed.nodup]
    exact linear.perm.map _
  forward := by
    rintro ⟨u, v⟩ link
    obtain ⟨e, member, rfl, rfl⟩ := mem_links.mp link
    have inside : order ⊆ g.names := linear.perm.subset
    rw [idxOf_map_rank inside, idxOf_map_rank inside]
    exact linear.forward _ _ ⟨e, member, rfl, rfl⟩

end Ranks

section Linearize

variable {g h : ImportGraph} {target : SourceName} {order other : List SourceName}

/-- The graph peeled as far as it goes. -/
def peeled (g : ImportGraph) : Peeling :=
  (Peeling.start g.links g.names.length).run g.links g.names.length

theorem balanced_peeled (closed : g.Closed) :
    Peeling.Balanced g.links g.names.length g.peeled :=
  (Peeling.Balanced.start g.links g.names.length).run closed.links g.names.length

theorem linearize_eq_ok_iff (edges : g.hasEdges) : g.linearize target = .ok order ↔
    g.names.length ≤ g.peeled.taken.length ∧
      g.peeled.taken.filterMap (g.names[·]?) = order := by
  have unfolded : g.linearize target =
      if g.peeled.taken.length < g.names.length then .error (.importCycle g.firstCycle)
      else .ok (g.peeled.taken.filterMap (g.names[·]?)) := by
    rw [linearize, if_pos edges]
    rfl
  rw [unfolded]
  split
  case isTrue short => simp [Nat.not_le_of_lt short]
  case isFalse complete => simp [Nat.le_of_not_lt complete]

/-- The ranks of the order are those taken, in the order of their taking. -/
theorem map_rank_of_linearize (wellFormed : g.WellFormed) (edges : g.hasEdges)
    (linear : g.linearize target = .ok order) : order.map g.rank = g.peeled.taken := by
  obtain ⟨-, rfl⟩ := (linearize_eq_ok_iff edges).mp linear
  exact map_rank_filterMap wellFormed.nodup (balanced_peeled wellFormed.closed).bounded

theorem linearizes_of_linearize (wellFormed : g.WellFormed) (edges : g.hasEdges)
    (linear : g.linearize target = .ok order) : g.Linearizes order := by
  have ranks := map_rank_of_linearize wellFormed edges linear
  obtain ⟨complete, names⟩ := (linearize_eq_ok_iff edges).mp linear
  have balanced := balanced_peeled wellFormed.closed
  have perm : order.Perm g.names := by
    have taken := balanced.taken_perm complete
    rw [← map_rank_names wellFormed.nodup] at taken
    have named := taken.filterMap (g.names[·]?)
    rwa [names, filterMap_map_rank (List.Subset.refl _)] at named
  refine ⟨perm, ?_⟩
  intro a b edge
  have lower := (balanced.respects complete wellFormed.closed.links).forward _ (link_of_edge edge)
  rwa [← ranks, idxOf_map_rank perm.subset, idxOf_map_rank perm.subset] at lower

theorem linearize_of_acyclic (wellFormed : g.WellFormed) (edges : g.hasEdges)
    (acyclic : ∀ file, ¬ TransGen g.Edge file file) (target : SourceName) :
    ∃ order, g.linearize target = .ok order := by
  have complete := Peeling.run_complete wellFormed.closed.links
    (acyclic_links wellFormed.closed acyclic)
  exact ⟨_, (linearize_eq_ok_iff edges).mpr ⟨complete, rfl⟩⟩

theorem greatest_of_linearize (wellFormed : g.WellFormed) (edges : g.hasEdges)
    (linear : g.linearize target = .ok order) (linearizes : g.Linearizes other)
    (different : other ≠ order) : (other.map g.rank).reverse < (order.map g.rank).reverse := by
  obtain ⟨complete, names⟩ := (linearize_eq_ok_iff edges).mp linear
  have cut : other.map g.rank =
      other.map g.rank ++ (Peeling.start g.links g.names.length).taken := by
    simp [Peeling.start]
  have compared := (linearizes.respects wellFormed).run_greatest wellFormed.closed.links
    g.names.length (.start _ _) complete cut
  rw [map_rank_of_linearize wellFormed edges linear]
  refine compared.resolve_left fun same => different ?_
  rw [← filterMap_map_rank linearizes.perm.subset, same]
  exact names

theorem hasEdges_iff : g.hasEdges ↔ ∃ a b, g.Edge a b := by
  constructor
  · intro edges
    obtain ⟨e, member⟩ := List.exists_mem_of_ne_nil g.edges (by simpa [hasEdges] using edges)
    exact ⟨_, _, e, member, rfl, rfl⟩
  · rintro ⟨_, _, e, member, -⟩
    exact hasEdges_of_mem member

/-- Graphs with the same files that are joined alike are put in the same order, or report the same
cycle. -/
theorem linearize_congr (wellFormed : g.WellFormed) (wellFormed' : h.WellFormed)
    (edges : g.hasEdges) (names : g.names = h.names) (joined : ∀ a b, g.Edge a b ↔ h.Edge a b)
    (target target' : SourceName) : g.linearize target = h.linearize target' := by
  have edges' : h.hasEdges := by
    obtain ⟨a, b, edge⟩ := hasEdges_iff.mp edges
    exact hasEdges_iff.mpr ⟨a, b, (joined a b).mp edge⟩
  have relation : g.Edge = h.Edge := by
    funext a b
    exact propext (joined a b)
  cases linear : g.linearize target with
  | error e =>
      cases linear' : h.linearize target' with
      | error e' =>
          rw [linearize_error linear, linearize_error linear',
            firstCycle_congr wellFormed.closed names joined]
      | ok order' =>
          have acyclic := linearize_acyclic wellFormed'.closed linear'
          rw [← relation] at acyclic
          obtain ⟨order, done⟩ := linearize_of_acyclic wellFormed edges acyclic target
          rw [linear] at done
          cases done
  | ok order =>
      have acyclic := linearize_acyclic wellFormed.closed linear
      rw [relation] at acyclic
      obtain ⟨order', linear'⟩ := linearize_of_acyclic wellFormed' edges' acyclic target'
      have linearizes := linearizes_of_linearize wellFormed edges linear
      have linearizes' := linearizes_of_linearize wellFormed' edges' linear'
      rw [linear']
      refine congrArg Except.ok ?_
      by_contra different
      -- each of the two would be greater than the other
      have less := greatest_of_linearize wellFormed edges linear
        ⟨names ▸ linearizes'.perm, relation ▸ linearizes'.forward⟩ (Ne.symm different)
      have greater := greatest_of_linearize wellFormed' edges' linear'
        ⟨names ▸ linearizes.perm, relation ▸ linearizes.forward⟩ different
      have ranks : g.rank = h.rank := by
        funext file
        simp only [rank, names]
      rw [ranks] at less
      exact List.lt_asymm less greater

/-- A graph with edges can be put in order exactly when it has no cycle. The order then is, read
from last to first by rank, greater than all others that put every file after its imports. It
depends on nothing but the graph's files in their order of discovery and on which of them are
joined. -/
theorem linearize_finds_greatest_order (built : g.Built) (edges : g.hasEdges)
    (target : SourceName) :
    ((∃ order, g.linearize target = .ok order) ↔ ∀ file, ¬ TransGen g.Edge file file) ∧
    (∀ order, g.linearize target = .ok order →
      g.Linearizes order ∧ ∀ other, g.Linearizes other → other ≠ order →
        (other.map g.rank).reverse < (order.map g.rank).reverse) ∧
    ∀ h : ImportGraph, h.Built → g.names = h.names → (∀ a b, g.Edge a b ↔ h.Edge a b) →
      ∀ target', g.linearize target = h.linearize target' := by
  have wellFormed := built.wellFormed
  refine ⟨⟨?_, ?_⟩, ?_, ?_⟩
  · rintro ⟨order, linear⟩
    exact linearize_acyclic wellFormed.closed linear
  · intro acyclic
    exact linearize_of_acyclic wellFormed edges acyclic target
  · intro order linear
    refine ⟨linearizes_of_linearize wellFormed edges linear, ?_⟩
    intro other linearizes different
    exact greatest_of_linearize wellFormed edges linear linearizes different
  · intro h builtOther names joined target'
    exact linearize_congr wellFormed builtOther.wellFormed edges names joined target target'

/-- Two files between `A` and `D`, one of them imported twice, and `E` on its own. -/
def branching : ImportGraph := ofAdditions [
  .edge ⟨⟨"A"⟩, ⟨"B"⟩, "./B"⟩, .edge ⟨⟨"A"⟩, ⟨"C"⟩, "./C"⟩, .edge ⟨⟨"B"⟩, ⟨"D"⟩, "./D"⟩,
  .edge ⟨⟨"A"⟩, ⟨"B"⟩, "B"⟩, .edge ⟨⟨"C"⟩, ⟨"D"⟩, "./D"⟩, .name ⟨"E"⟩]

/-- The same files joined alike, but found and joined in another way. -/
def branchingOnce : ImportGraph := ofAdditions [
  .name ⟨"A"⟩, .name ⟨"B"⟩, .name ⟨"C"⟩, .name ⟨"D"⟩, .name ⟨"E"⟩,
  .edge ⟨⟨"C"⟩, ⟨"D"⟩, "D"⟩, .edge ⟨⟨"B"⟩, ⟨"D"⟩, "D"⟩, .edge ⟨⟨"A"⟩, ⟨"C"⟩, "C"⟩,
  .edge ⟨⟨"A"⟩, ⟨"B"⟩, "B"⟩]

theorem branching_order_is_greatest : branching.Built ∧ branching.hasEdges ∧
    branching.linearize ⟨"A"⟩ = .ok [⟨"D"⟩, ⟨"B"⟩, ⟨"C"⟩, ⟨"A"⟩, ⟨"E"⟩] ∧
    (∀ file, ¬ TransGen branching.Edge file file) ∧
    branching.Linearizes [⟨"E"⟩, ⟨"D"⟩, ⟨"C"⟩, ⟨"B"⟩, ⟨"A"⟩] ∧
    ([⟨"E"⟩, ⟨"D"⟩, ⟨"C"⟩, ⟨"B"⟩, ⟨"A"⟩].map branching.rank).reverse <
      ([⟨"D"⟩, ⟨"B"⟩, ⟨"C"⟩, ⟨"A"⟩, ⟨"E"⟩].map branching.rank).reverse ∧
    branching.linearize ⟨"A"⟩ = branchingOnce.linearize ⟨"E"⟩ := by
  have built : branching.Built := ⟨_, rfl⟩
  have edges : branching.hasEdges := by decide
  have linear : branching.linearize ⟨"A"⟩ = .ok [⟨"D"⟩, ⟨"B"⟩, ⟨"C"⟩, ⟨"A"⟩, ⟨"E"⟩] := by decide
  have other : branching.Linearizes [⟨"E"⟩, ⟨"D"⟩, ⟨"C"⟩, ⟨"B"⟩, ⟨"A"⟩] := by
    refine ⟨by decide, ?_⟩
    have forward : ∀ e ∈ branching.edges,
        [(⟨"E"⟩ : SourceName), ⟨"D"⟩, ⟨"C"⟩, ⟨"B"⟩, ⟨"A"⟩].idxOf e.dependee <
          [(⟨"E"⟩ : SourceName), ⟨"D"⟩, ⟨"C"⟩, ⟨"B"⟩, ⟨"A"⟩].idxOf e.importer := by decide
    rintro _ _ ⟨e, member, rfl, rfl⟩
    exact forward e member
  have joined : ∀ a b, branching.Edge a b ↔ branchingOnce.Edge a b := by
    have into : ∀ e ∈ branching.edges, branchingOnce.hasEdge e.importer e.dependee := by decide
    have back : ∀ e ∈ branchingOnce.edges, branching.hasEdge e.importer e.dependee := by decide
    intro a b
    constructor
    · rintro ⟨e, member, rfl, rfl⟩
      exact hasEdge_iff.mp (into e member)
    · rintro ⟨e, member, rfl, rfl⟩
      exact hasEdge_iff.mp (back e member)
  obtain ⟨acyclic, greatest, same⟩ := linearize_finds_greatest_order built edges ⟨"A"⟩
  exact ⟨built, edges, linear, acyclic.mp ⟨_, linear⟩, other,
    (greatest _ linear).2 _ other (by decide), same branchingOnce ⟨_, rfl⟩ (by decide) joined _⟩

end Linearize

end ImportGraph

end ImportFlattening

import ImportFlattening.Proofs.CycleClosing
import Mathlib.Data.List.Chain
import Mathlib.Data.List.Nodup

/-! # The state of a walk between its steps

A walk keeps a stack, the set of the files on it, the set of the files visited and a graph, and
updates them at different points of a step. `Consistent` is how they belong together before every
step. A dropped import leaves no edge to a file under way, so an edge leads to such a file only from
the file that it was entered from; once a file has been left, its edges lead to files that have been
left.
-/

namespace ImportFlattening

open Relation

namespace Walk

/-- The walk goes on from `w` to `next` by one step. -/
def Next (units : NameMap SourceUnit) (policy : Policy) (w next : Walk) : Prop :=
  w.step units policy = .ok (some next)

/-- The walk that has taken the next import of the innermost file off the stack. -/
def consume (w : Walk) (name : SourceName) (rest : List Import) (outer : List Frame) : Walk :=
  { w with stack := ⟨name, rest⟩ :: outer }

/-- The ways in which a walk can go on by one step. -/
inductive Advance (units : NameMap SourceUnit) (policy : Policy) (w : Walk) : Walk → Prop where
  | leave {name : SourceName} {outer : List Frame} (stack : w.stack = ⟨name, []⟩ :: outer) :
      Advance units policy w (w.leave name outer)
  | enter {name : SourceName} {i : Import} {rest : List Import} {outer : List Frame}
      {unit : SourceUnit} (stack : w.stack = ⟨name, i :: rest⟩ :: outer)
      (unvisited : i.dependee ∉ w.visited) (found : units.get? i.dependee = some unit) :
      Advance units policy w (((w.consume name rest outer).addEdge i).enter i.dependee unit)
  | skip {name : SourceName} {i : Import} {rest : List Import} {outer : List Frame}
      (stack : w.stack = ⟨name, i :: rest⟩ :: outer) :
      Advance units policy w ((w.consume name rest outer).addSkipped i)
  | drop {name : SourceName} {i : Import} {rest : List Import} {outer : List Frame}
      (stack : w.stack = ⟨name, i :: rest⟩ :: outer) :
      Advance units policy w ((w.consume name rest outer).addCycle i)
  | keep {name : SourceName} {i : Import} {rest : List Import} {outer : List Frame}
      (stack : w.stack = ⟨name, i :: rest⟩ :: outer) (visited : i.dependee ∈ w.visited)
      (kept : policy.cycles = .keep) :
      Advance units policy w (((w.consume name rest outer).addEdge i).addCycle i)
  | pass {name : SourceName} {i : Import} {rest : List Import} {outer : List Frame}
      (stack : w.stack = ⟨name, i :: rest⟩ :: outer) :
      Advance units policy w (w.consume name rest outer)
  | join {name : SourceName} {i : Import} {rest : List Import} {outer : List Frame}
      (stack : w.stack = ⟨name, i :: rest⟩ :: outer) (visited : i.dependee ∈ w.visited)
      (left : i.dependee ∉ w.active) :
      Advance units policy w ((w.consume name rest outer).addEdge i)

variable {units : NameMap SourceUnit} {policy : Policy} {target name : SourceName}
  {unit : SourceUnit} {w next : Walk} {i : Import} {pending rest : List Import} {outer : List Frame}

theorem meet_eq_active (met : w.meet units name = .active) : name ∈ w.visited ∧ name ∈ w.active := by
  unfold meet at met
  split at met
  case isTrue visited =>
    split at met
    case isTrue active => exact ⟨visited, active⟩
    case isFalse => cases met
  case isFalse => split at met <;> cases met

theorem meet_eq_finished (met : w.meet units name = .finished) :
    name ∈ w.visited ∧ name ∉ w.active := by
  unfold meet at met
  split at met
  case isTrue visited =>
    split at met
    case isTrue => cases met
    case isFalse left => exact ⟨visited, left⟩
  case isFalse => split at met <;> cases met

theorem advance_of_follow (stack : w.stack = ⟨name, i :: rest⟩ :: outer)
    (followed : (w.consume name rest outer).follow units policy i = .ok next) :
    Advance units policy w next := by
  unfold follow at followed
  split at followed
  case h_1 =>
    split at followed
    case h_1 => cases followed
    case h_2 =>
      cases followed
      exact .skip stack
  case h_2 met =>
    cases followed
    obtain ⟨unvisited, found⟩ := meet_eq_fresh met
    exact .enter stack unvisited found
  case h_3 met =>
    split at followed
    case h_1 =>
      cases followed
      exact .drop stack
    case h_2 kept =>
      cases followed
      exact .keep stack (meet_eq_active met).1 kept
  case h_4 met =>
    obtain ⟨visited, left⟩ := meet_eq_finished met
    split at followed
    case isTrue =>
      cases followed
      exact .pass stack
    case isFalse =>
      cases followed
      exact .join stack visited left

theorem Next.advance (step : Next units policy w next) : Advance units policy w next := by
  unfold Next Walk.step at step
  split at step
  case h_1 => cases step
  case h_2 stack =>
    cases step
    exact .leave stack
  case h_3 name i rest outer stack =>
    cases followed : (w.consume name rest outer).follow units policy i with
    | error e =>
        simp only [consume] at followed
        simp [followed, Except.map] at step
    | ok last =>
        have same : last = next := by
          simp only [consume] at followed
          simpa [followed, Except.map] using step
        exact same ▸ advance_of_follow stack followed

theorem mem_addEdge {e : Import} :
    e ∈ (w.addEdge i).found.graph.edges ↔ e ∈ w.found.graph.edges ∨ e = i := by
  simp [Walk.addEdge]

/-- How the parts of a walk from `target` belong together between two steps. -/
structure Consistent (units : NameMap SourceUnit) (policy : Policy) (target : SourceName)
    (w : Walk) : Prop where
  active : w.active = w.stack.map Frame.name
  distinct : w.active.Nodup
  bottom : ∀ name ∈ w.active.getLast?, name = target
  entered : w.active ⊆ w.visited
  visitedOnce : w.visited.Nodup
  known : ∀ name ∈ w.visited, units.contains name
  /-- Files are discovered in the order in which they are visited. -/
  names : w.found.graph.names = w.visited.reverse
  edges : ∀ e ∈ w.found.graph.edges, e.importer ∈ w.visited ∧ e.dependee ∈ w.visited
  own : ∀ f ∈ w.stack, ∀ i ∈ f.pending, i.importer = f.name
  chain : w.active.IsChain fun inner outer => w.found.graph.Edge outer inner
  /-- Of the files under way, an edge leads only from one to another above it. -/
  inward : policy.cycles = .drop → ∀ e ∈ w.found.graph.edges, e.dependee ∈ w.active →
    [e.dependee, e.importer].Sublist w.active

namespace Consistent

theorem start (policy : Policy) (found : units.get? target = some unit) :
    Consistent units policy target (Walk.start target unit) where
  active := rfl
  distinct := List.nodup_singleton _
  bottom := by simp [Walk.start]
  entered := List.Subset.refl _
  visitedOnce := List.nodup_singleton _
  known := by simp [Walk.start, contains_found found]
  names := by simp [Walk.start, ImportGraph.empty, ImportGraph.addName]
  edges := by simp [Walk.start, ImportGraph.empty]
  own := List.forall_mem_singleton.mpr fun _ member => importer_of_mem_importsFrom member
  chain := List.isChain_singleton _
  inward := by simp [Walk.start, ImportGraph.empty]

theorem mem_names (h : Consistent units policy target w) :
    name ∈ w.found.graph.names ↔ name ∈ w.visited := by
  rw [h.names, List.mem_reverse]

theorem active_cons (h : Consistent units policy target w)
    (stack : w.stack = ⟨name, pending⟩ :: outer) : w.active = name :: outer.map Frame.name := by
  rw [h.active, stack, List.map_cons]

theorem own_head (h : Consistent units policy target w)
    (stack : w.stack = ⟨name, i :: rest⟩ :: outer) : i.importer = name :=
  h.own _ (stack ▸ List.mem_cons_self) i List.mem_cons_self

theorem mem_visited (h : Consistent units policy target w)
    (stack : w.stack = ⟨name, i :: rest⟩ :: outer) : i.importer ∈ w.visited := by
  rw [h.own_head stack]
  exact h.entered (h.active_cons stack ▸ List.mem_cons_self)

theorem consume (h : Consistent units policy target w)
    (stack : w.stack = ⟨name, i :: rest⟩ :: outer) :
    Consistent units policy target (w.consume name rest outer) where
  __ := h
  active := h.active_cons stack
  own := by
    have own := h.own
    rw [stack] at own
    obtain ⟨first, others⟩ := List.forall_mem_cons.mp own
    refine List.forall_mem_cons.mpr ⟨?_, others⟩
    exact fun j member => first j (List.mem_cons_of_mem _ member)

/-- An edge may be added between files that have been visited. -/
theorem addEdge (h : Consistent units policy target w) (importer : i.importer ∈ w.visited)
    (dependee : i.dependee ∈ w.visited) (left : policy.cycles = .drop → i.dependee ∉ w.active) :
    Consistent units policy target (w.addEdge i) where
  __ := h
  names := (ImportGraph.names_addEdge_known (h.mem_names.mpr importer)
    (h.mem_names.mpr dependee)).trans h.names
  edges := by
    intro e member
    rcases mem_addEdge.mp member with old | rfl
    · exact h.edges e old
    · exact ⟨importer, dependee⟩
  chain := h.chain.imp fun _ _ edge => edge.mono (by simp [Walk.addEdge])
  inward := by
    intro dropped e member under
    rcases mem_addEdge.mp member with old | rfl
    · exact h.inward dropped e old under
    · exact absurd under (left dropped)

theorem enter (h : Consistent units policy target w) (stack : w.stack = ⟨name, rest⟩ :: outer)
    (own : i.importer = name) (unvisited : i.dependee ∉ w.visited)
    (found : units.get? i.dependee = some unit) :
    Consistent units policy target ((w.addEdge i).enter i.dependee unit) := by
  have active := h.active_cons stack
  have importer : i.importer ∈ w.visited := h.entered (active ▸ own ▸ List.mem_cons_self)
  exact
    { active := congrArg (i.dependee :: ·) h.active
      distinct := List.nodup_cons.mpr ⟨fun under => unvisited (h.entered under), h.distinct⟩
      bottom := by
        intro file last
        refine h.bottom file ?_
        simp only [Walk.enter, Walk.addEdge, active] at last ⊢
        rwa [List.getLast?_cons_cons] at last
      entered := List.cons_subset_cons _ h.entered
      visitedOnce := List.nodup_cons.mpr ⟨unvisited, h.visitedOnce⟩
      known := List.forall_mem_cons.mpr ⟨contains_found found, h.known⟩
      names := by
        have fresh : i.dependee ∉ w.found.graph.names := fun member =>
          unvisited (h.mem_names.mp member)
        have grown := ImportGraph.names_addEdge_fresh (h.mem_names.mpr importer) fresh
        rwa [h.names, ← List.reverse_cons] at grown
      edges := by
        intro e member
        rcases mem_addEdge.mp member with old | rfl
        · obtain ⟨known, known'⟩ := h.edges e old
          exact ⟨List.mem_cons_of_mem _ known, List.mem_cons_of_mem _ known'⟩
        · exact ⟨List.mem_cons_of_mem _ importer, List.mem_cons_self⟩
      own := List.forall_mem_cons.mpr ⟨fun _ member => importer_of_mem_importsFrom member, h.own⟩
      chain := by
        have old : w.active.IsChain fun inner outer => (w.addEdge i).found.graph.Edge outer inner :=
          h.chain.imp fun _ _ edge => edge.mono (by simp [Walk.addEdge])
        change (i.dependee :: w.active).IsChain _
        rw [active] at old ⊢
        exact .cons_cons ⟨i, mem_addEdge.mpr (.inr rfl), own, rfl⟩ old
      inward := by
        intro dropped e member under
        change [e.dependee, e.importer].Sublist (i.dependee :: w.active)
        rcases mem_addEdge.mp member with old | rfl
        · -- the file entered is new, so no older edge leads to it
          have other : e.dependee ≠ i.dependee := fun same => unvisited (same ▸ (h.edges e old).2)
          exact (h.inward dropped e old ((List.mem_cons.mp under).resolve_left other)).cons _
        · rw [active, own]
          exact .cons_cons _ (.cons_cons _ (List.nil_sublist _)) }

theorem leave (h : Consistent units policy target w) (stack : w.stack = ⟨name, []⟩ :: outer) :
    Consistent units policy target (w.leave name outer) := by
  have active := h.active_cons stack
  have distinct := h.distinct
  rw [active, List.nodup_cons] at distinct
  have remaining : (w.leave name outer).active = outer.map Frame.name := by
    rw [Walk.leave, active, filter_ne_cons distinct.1]
  have fewer : outer.map Frame.name ⊆ w.active := active ▸ List.subset_cons_self _ _
  exact
    { h with
      active := remaining
      distinct := remaining ▸ distinct.2
      bottom := by
        intro file last
        refine h.bottom file ?_
        rw [remaining] at last
        rw [active]
        exact List.mem_getLast?_cons last
      entered := by
        rw [remaining]
        exact List.Subset.trans fewer h.entered
      own := fun f member => h.own f (stack ▸ List.mem_cons_of_mem _ member)
      chain := by
        have chain := h.chain
        rw [active] at chain
        rw [remaining]
        exact chain.tail
      inward := by
        intro dropped e member under
        rw [remaining] at under ⊢
        have above := h.inward dropped e member (fewer under)
        rw [active] at above
        have other : e.dependee ≠ name := fun same => distinct.1 (same ▸ under)
        exact .of_cons_of_ne other above }

theorem step (h : Consistent units policy target w) (step : Next units policy w next) :
    Consistent units policy target next := by
  cases step.advance with
  | leave stack => exact h.leave stack
  | enter stack unvisited found =>
      exact (h.consume stack).enter rfl (h.own_head stack) unvisited found
  | skip stack | drop stack => exact { h.consume stack with }
  | pass stack => exact h.consume stack
  | keep stack visited kept =>
      have joined := (h.consume stack).addEdge (h.mem_visited stack) visited (by simp [kept])
      exact { joined with }
  | join stack visited left =>
      exact (h.consume stack).addEdge (h.mem_visited stack) visited fun _ => left

theorem reached (h : Consistent units policy target w)
    (steps : ReflTransGen (Next units policy) w next) : Consistent units policy target next := by
  induction steps with
  | refl => exact h
  | tail _ step ih => exact ih.step step

/-- Under the policy to drop them, no edge leads from a file that has been left to one under way. -/
theorem left_of_edge (h : Consistent units policy target w) (dropped : policy.cycles = .drop)
    {importer dependee : SourceName} (edge : w.found.graph.Edge importer dependee)
    (left : importer ∉ w.active) : dependee ∈ w.visited ∧ dependee ∉ w.active := by
  obtain ⟨e, member, rfl, rfl⟩ := edge
  refine ⟨(h.edges e member).2, fun under => left ?_⟩
  exact (h.inward dropped e member under).subset (by simp)

end Consistent

/-- Before every step of a walk, the files under way are those on the stack, once each and the target
at the bottom. The files visited are those of the graph, and each has a syntax tree. Every file on the
stack has an edge to the one above it. If imports that close a cycle are dropped, the edges of a file
that has been left lead to files that have been left. -/
theorem stack_and_graph_agree (found : units.get? target = some unit)
    (steps : ReflTransGen (Next units policy) (Walk.start target unit) w) :
    ((∀ name, name ∈ w.active ↔ name ∈ w.stack.map Frame.name) ∧
      (w.stack.map Frame.name).Nodup ∧
      ∀ frame, w.stack.getLast? = some frame → frame.name = target) ∧
    ((∀ name, name ∈ w.visited ↔ name ∈ w.found.graph.names) ∧
      ∀ name ∈ w.visited, units.contains name) ∧
    (w.stack.IsChain fun above below => w.found.graph.Edge below.name above.name) ∧
    (policy.cycles = .drop → ∀ importer dependee, w.found.graph.Edge importer dependee →
      importer ∈ w.visited → importer ∉ w.active → dependee ∈ w.visited ∧ dependee ∉ w.active) := by
  have h := (Consistent.start policy found).reached steps
  refine ⟨⟨fun name => by rw [h.active], h.active ▸ h.distinct, ?_⟩,
    ⟨fun name => h.mem_names.symm, h.known⟩, ?_, ?_⟩
  · intro frame last
    refine h.bottom frame.name ?_
    rw [h.active, List.getLast?_map, last]
    rfl
  · have chain := h.chain
    rwa [h.active, List.isChain_map] at chain
  · intro dropped importer dependee edge _ left
    exact h.left_of_edge dropped edge left

/-- The walk of four tangled files after six steps: `B` and `D` have been left, and `C` has just been
entered from `A`. -/
def midway : Walk where
  stack := [⟨⟨"C"⟩, [⟨⟨"C"⟩, ⟨"D"⟩, "./D"⟩, ⟨⟨"C"⟩, ⟨"A"⟩, "./A"⟩]⟩,
    ⟨⟨"A"⟩, [⟨⟨"A"⟩, ⟨"B"⟩, "B"⟩, ⟨⟨"A"⟩, ⟨"Gone"⟩, "./Gone"⟩]⟩]
  visited := [⟨"C"⟩, ⟨"D"⟩, ⟨"B"⟩, ⟨"A"⟩]
  active := [⟨"C"⟩, ⟨"A"⟩]
  found :=
    { graph :=
        { names := [⟨"A"⟩, ⟨"B"⟩, ⟨"D"⟩, ⟨"C"⟩]
          edges := [⟨⟨"A"⟩, ⟨"B"⟩, "./B"⟩, ⟨⟨"B"⟩, ⟨"D"⟩, "./D"⟩, ⟨⟨"A"⟩, ⟨"C"⟩, "./C"⟩] }
      cycles := [⟨⟨"D"⟩, ⟨"B"⟩, "./B"⟩] }

theorem midway_agrees :
    let unit := SourceUnit.ofImports ["./B", "./C", "B", "./Gone"]
    tangledUnits.get? ⟨"A"⟩ = some unit ∧
    ReflTransGen (Next tangledUnits ⟨.skip, .drop⟩) (Walk.start ⟨"A"⟩ unit) midway ∧
    (midway.stack.IsChain fun above below => midway.found.graph.Edge below.name above.name) ∧
    midway.found.graph.Edge ⟨"B"⟩ ⟨"D"⟩ ∧ ⟨"B"⟩ ∉ midway.active ∧ ⟨"D"⟩ ∉ midway.active := by
  intro unit
  have found : tangledUnits.get? ⟨"A"⟩ = some unit := by decide
  have steps : ReflTransGen (Next tangledUnits ⟨.skip, .drop⟩) (Walk.start ⟨"A"⟩ unit) midway := by
    iterate 6 refine .head rfl ?_
    exact .refl
  have edge : midway.found.graph.Edge ⟨"B"⟩ ⟨"D"⟩ := ImportGraph.hasEdge_iff.mp (by decide)
  obtain ⟨-, -, chain, left⟩ := stack_and_graph_agree found steps
  exact ⟨found, steps, chain, edge, by decide, (left rfl _ _ edge (by decide) (by decide)).2⟩

end Walk

end ImportFlattening

import ImportFlattening.Proofs.FinishingOrder
import ImportFlattening.Proofs.PeelingOrder

/-! # Ranks in a depth-first search

A search that goes into depth finds all that it finds between a file and one of its imports while the
file is under way. So whatever has its rank between the two is led to by the file, through files whose
ranks are in between as well (`DepthFirst.path`). Any other order of search would lack this.
-/

namespace ImportFlattening

open Relation

namespace ImportGraph

/-- `b` is imported by a file that was found before it, but not before `a`. -/
def JoinedSince (g : ImportGraph) (a b : SourceName) : Prop :=
  ∃ importer, g.Edge importer b ∧ g.rank a ≤ g.rank importer ∧ g.rank importer < g.rank b

/-- What was found after a file, and before one that it imports, is imported by a file found in
between or by the file itself. -/
def DepthFirst (g : ImportGraph) : Prop :=
  ∀ a b c, g.Edge a c → g.rank a < g.rank b → g.rank b < g.rank c → g.JoinedSince a b

section Growth

variable {g h : ImportGraph} {a b : SourceName} {i : Import}

theorem mem_of_rank_lt (grown : g.names <+: h.names) (lower : h.rank b < g.names.length) :
    b ∈ g.names := by
  by_contra new
  exact Nat.not_le_of_lt lower (length_le_rank grown new)

theorem JoinedSince.mono (joined : g.JoinedSince a b) (names : g.names <+: h.names)
    (edges : g.edges ⊆ h.edges) (first : a ∈ g.names) (second : b ∈ g.names) :
    h.JoinedSince a b := by
  obtain ⟨importer, edge, since, earlier⟩ := joined
  have bound : g.rank b < g.names.length := List.idxOf_lt_length_of_mem second
  have known : importer ∈ g.names :=
    mem_of_rank_lt List.prefix_rfl (Nat.lt_trans earlier bound)
  refine ⟨importer, edge.mono edges, ?_, ?_⟩
  · rwa [rank_of_grown names first, rank_of_grown names known]
  · rwa [rank_of_grown names known, rank_of_grown names second]

theorem names_addEdge_grown (importer : i.importer ∈ g.names) :
    g.names <+: (g.addEdge i).names := by
  by_cases known : i.dependee ∈ g.names
  · exact ⟨[], by rw [names_addEdge_known importer known, List.append_nil]⟩
  · exact ⟨[i.dependee], by rw [names_addEdge_fresh importer known]⟩

theorem rank_dependee_le (importer : i.importer ∈ g.names) :
    (g.addEdge i).rank i.dependee ≤ g.names.length := by
  by_cases known : i.dependee ∈ g.names
  · rw [rank_of_grown (names_addEdge_grown importer) known]
    exact Nat.le_of_lt (List.idxOf_lt_length_of_mem known)
  · rw [rank, names_addEdge_fresh importer known, List.idxOf_append_of_notMem known]
    simp

theorem edge_addEdge : (g.addEdge i).Edge a b ↔ g.Edge a b ∨ i.importer = a ∧ i.dependee = b := by
  simp [Edge, or_and_right, exists_or]

/-- An edge may be added from a file that leads to all that was found after it. -/
theorem DepthFirst.addEdge (depthFirst : g.DepthFirst) (closed : g.Closed)
    (importer : i.importer ∈ g.names)
    (since : ∀ b ∈ g.names, g.rank i.importer < g.rank b → g.JoinedSince i.importer b) :
    (g.addEdge i).DepthFirst := by
  have grown := names_addEdge_grown importer
  have edges : g.edges ⊆ (g.addEdge i).edges := by simp
  intro a b c edge after before
  rcases edge_addEdge.mp edge with old | ⟨rfl, rfl⟩
  · obtain ⟨e, member, rfl, rfl⟩ := old
    obtain ⟨first, last⟩ := closed e member
    rw [rank_of_grown grown last] at before
    have second : b ∈ g.names :=
      mem_of_rank_lt grown (Nat.lt_trans before (List.idxOf_lt_length_of_mem last))
    rw [rank_of_grown grown second] at after before
    rw [rank_of_grown grown first] at after
    exact (depthFirst _ _ _ ⟨e, member, rfl, rfl⟩ after before).mono grown edges first second
  · have second : b ∈ g.names :=
      mem_of_rank_lt grown (Nat.lt_of_lt_of_le before (rank_dependee_le importer))
    rw [rank_of_grown grown importer, rank_of_grown grown second] at after
    exact (since b second after).mono grown edges importer second

/-- A file leads to all that was found between it and one that it imports. -/
theorem DepthFirst.path (depthFirst : g.DepthFirst) (closed : g.Closed) {c : SourceName}
    (edge : g.Edge a c) (since : g.rank a ≤ g.rank b) (before : g.rank b < g.rank c) :
    ReflTransGen g.Edge a b := by
  have known : a ∈ g.names := by
    obtain ⟨e, member, rfl, -⟩ := edge
    exact (closed e member).1
  induction rank : g.rank b using Nat.strongRecOn generalizing b with
  | ind n ih =>
      rcases Nat.eq_or_lt_of_le since with same | after
      · rw [rank_inj known same]
      · obtain ⟨importer, last, since, earlier⟩ := depthFirst a b c edge after before
        exact (ih _ (rank ▸ earlier) since (Nat.lt_trans earlier before) rfl).tail last

end Growth

/-- A graph in the middle of a search, where the call for `name` is the innermost of `calls`. -/
structure Searched (g : ImportGraph) (calls : List SourceName) (name : SourceName) : Prop where
  depthFirst : g.DepthFirst
  since : ∀ call ∈ calls, ∀ b ∈ g.names, g.rank call < g.rank b → g.JoinedSince call b
  innermost : ∀ call ∈ calls, g.rank call ≤ g.rank name

namespace Searched

variable {g h : ImportGraph} {calls : List SourceName} {name : SourceName} {i : Import}

theorem start (target : SourceName) : (empty.addName target).Searched [target] target where
  depthFirst := by
    rintro a b c ⟨e, member, -⟩
    simp [empty] at member
  since := by
    intro call member b found later
    rw [List.mem_singleton.mp member] at later
    have same : b = target := by simpa [empty, addName] using found
    rw [same] at later
    exact absurd later (Nat.lt_irrefl _)
  innermost := by
    intro call member
    exact Nat.le_of_eq (congrArg _ (List.mem_singleton.mp member))

/-- A further edge to a file that is there changes no rank. -/
theorem join (searched : g.Searched calls i.importer) (closed : g.Closed)
    (current : i.importer ∈ calls) (entered : calls ⊆ g.names) (dependee : i.dependee ∈ g.names) :
    (g.addEdge i).Searched calls i.importer := by
  have importer := entered current
  have names := names_addEdge_known importer dependee
  have ranks : (g.addEdge i).rank = g.rank := by
    funext file
    rw [rank, names, rank]
  refine ⟨searched.depthFirst.addEdge closed importer (searched.since _ current), ?_, ?_⟩
  · intro call member b found later
    rw [names] at found
    rw [ranks] at later
    exact (searched.since call member b found later).mono (names_addEdge_grown importer) (by simp)
      (entered member) found
  · rw [ranks]
    exact searched.innermost

/-- The file that is entered has the greatest rank, and the edge to it comes from a file that was
entered after all others under way. -/
theorem enter (searched : g.Searched calls i.importer) (closed : g.Closed)
    (current : i.importer ∈ calls) (entered : calls ⊆ g.names) (fresh : i.dependee ∉ g.names) :
    (g.addEdge i).Searched (i.dependee :: calls) i.dependee := by
  have importer := entered current
  have grown := names_addEdge_grown importer
  have names := names_addEdge_fresh importer fresh
  have last : ∀ b ∈ (g.addEdge i).names, (g.addEdge i).rank b ≤ (g.addEdge i).rank i.dependee := by
    intro b found
    rw [names, List.mem_append, List.mem_singleton] at found
    rcases found with old | rfl
    · exact Nat.le_of_lt (rank_lt_of_grown grown old fresh)
    · exact Nat.le_refl _
  refine ⟨searched.depthFirst.addEdge closed importer (searched.since _ current), ?_, ?_⟩
  · intro call member b found later
    rcases List.mem_cons.mp member with rfl | outer
    · exact absurd (last b found) (Nat.not_le_of_lt later)
    · rw [names, List.mem_append, List.mem_singleton] at found
      rcases found with old | rfl
      · rw [rank_of_grown grown (entered outer), rank_of_grown grown old] at later
        exact (searched.since call outer b old later).mono grown (by simp) (entered outer) old
      · refine ⟨i.importer, edge_addEdge.mpr (.inr ⟨rfl, rfl⟩), ?_, ?_⟩
        · rw [rank_of_grown grown (entered outer), rank_of_grown grown importer]
          exact searched.innermost call outer
        · exact rank_lt_of_grown grown importer fresh
  · intro call member
    rcases List.mem_cons.mp member with rfl | outer
    · exact Nat.le_refl _
    · exact last call (grown.subset (entered outer))

theorem resume {inner : SourceName} (searched : g.Searched calls name)
    (returned : h.Searched (inner :: calls) inner) (grown : g.names <+: h.names)
    (entered : calls ⊆ g.names) (current : name ∈ calls) : h.Searched calls name where
  depthFirst := returned.depthFirst
  since := fun call member => returned.since call (List.mem_cons_of_mem _ member)
  innermost := by
    intro call member
    rw [rank_of_grown grown (entered member), rank_of_grown grown (entered current)]
    exact searched.innermost call member

end Searched

end ImportGraph

namespace Survey

variable {units : NameMap SourceUnit} {policy : Policy} {calls finished : List SourceName}
  {pending : List Import} {name : SourceName} {s t : Survey}

theorem Underway.closed (underway : Underway units calls name s) : s.found.graph.Closed := by
  intro e member
  rw [underway.mem_names, underway.mem_names]
  exact underway.edges e member

theorem Underway.entered_names (underway : Underway units calls name s) :
    calls ⊆ s.found.graph.names :=
  fun call member => underway.mem_names.mpr (underway.entered call member)

theorem Underway.searched_join {i : Import} (underway : Underway units calls name s)
    (own : i ∈ importsOf units name) (visited : i.dependee ∈ s.visited)
    (searched : s.found.graph.Searched calls name) :
    (s.found.graph.addEdge i).Searched calls name := by
  obtain rfl := importer_of_mem own
  exact searched.join underway.closed underway.current underway.entered_names
    (underway.mem_names.mpr visited)

theorem Visits.searched (visits : Visits units policy calls name pending s finished t)
    (searched : s.found.graph.Searched calls name) : t.found.graph.Searched calls name := by
  induction visits with
  | done => exact searched
  | close underway own active _ ih =>
      apply ih
      cases keeping : policy.cycles with
      | drop => exact searched
      | keep => exact underway.searched_join own (underway.entered _ active) searched
  | @settle _ _ i _ s _ _ underway own visited _ _ ih =>
      apply ih
      cases joined : s.found.graph.hasEdge i.importer i.dependee with
      | true => simpa [Survey.settle, joined] using searched
      | false => simpa [Survey.settle, joined] using underway.searched_join own visited searched
  | skip _ _ _ _ _ ih => exact ih searched
  | enter underway own fresh found call _ ihCall ihTail =>
      obtain rfl := importer_of_mem own
      have undiscovered := mt underway.mem_names.mp fresh
      have inner := ihCall (searched.enter underway.closed underway.current underway.entered_names
        undiscovered)
      have grown := (ImportGraph.names_addEdge_grown
        (underway.mem_names.mpr underway.member)).trans call.names_grown
      exact ihTail (searched.resume inner grown underway.entered_names underway.current)

end Survey

theorem depthFirst_of_discover {units : NameMap SourceUnit} {policy : Policy} {target : SourceName}
    {d : Discovery} (discovered : discover units policy target = .ok d) : d.graph.DepthFirst := by
  obtain ⟨unit, finished, t, -, rfl, visits⟩ := visits_of_discover discovered
  exact (visits.searched (.start target)).depthFirst

end ImportFlattening

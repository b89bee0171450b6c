import ImportFlattening.Proofs.ImportRelation
import ImportFlattening.Proofs.RecursiveVisit

/-! # Traces of a visit

`Visits` is the derivation of a visit that succeeds: which calls were made, in which order they
returned, and that the survey was consistent at every point. The facts about depth-first search
follow by induction on it: what the visit saw, that the files under way form a chain of edges, and
how the orders of entering and of returning nest.
-/

namespace ImportFlattening

open Relation

namespace Survey

@[simp] theorem edges_enter (s : Survey) (i : Import) :
    (s.enter i).found.graph.edges = s.found.graph.edges ++ [i] := by
  simp [enter]

theorem edge_enter (s : Survey) {i : Import} {name : SourceName} (own : i.importer = name) :
    (s.enter i).found.graph.Edge name i.dependee :=
  ⟨i, by simp, own, rfl⟩

/-- A survey in the middle of the call for `name`, inside the calls `calls`. -/
structure Underway (units : NameMap SourceUnit) (calls : List SourceName) (name : SourceName)
    (s : Survey) : Prop where
  distinct : s.visited.Nodup
  known : ∀ file ∈ s.visited, units.contains file
  /-- Files are discovered in the order in which they are visited. -/
  names : s.found.graph.names = s.visited.reverse
  edges : ∀ e ∈ s.found.graph.edges, e.importer ∈ s.visited ∧ e.dependee ∈ s.visited
  cycles : ∀ i ∈ s.found.cycles, i.importer ∈ s.visited
  skipped : ∀ i ∈ s.found.skipped, i.importer ∈ s.visited
  current : name ∈ calls
  entered : ∀ call ∈ calls, call ∈ s.visited
  /-- Edges lead from every file under way to the innermost one. -/
  chain : ∀ call ∈ calls, ReflTransGen s.found.graph.Edge call name

namespace Underway

theorem start {units : NameMap SourceUnit} {target : SourceName} {unit : SourceUnit}
    (found : units.get? target = some unit) :
    Underway units [target] target (Survey.start target) where
  distinct := by simp [Survey.start]
  known := by simp [Survey.start, contains_found found]
  names := by simp [Survey.start, ImportGraph.empty, ImportGraph.addName]
  edges := by simp [Survey.start, ImportGraph.empty]
  cycles := by simp [Survey.start]
  skipped := by simp [Survey.start]
  current := by simp
  entered := by simp [Survey.start]
  chain := by simp [ReflTransGen.refl]

variable {units : NameMap SourceUnit} {calls : List SourceName} {name : SourceName}
  {s t : Survey} {i : Import}

theorem member (h : Underway units calls name s) : name ∈ s.visited := h.entered name h.current

theorem mem_names (h : Underway units calls name s) {file : SourceName} :
    file ∈ s.found.graph.names ↔ file ∈ s.visited := by
  rw [h.names, List.mem_reverse]

theorem unjoined (h : Underway units calls name s) {importer file : SourceName}
    (unvisited : file ∉ s.visited) : ¬ s.found.graph.Edge importer file := by
  rintro ⟨e, member, -, rfl⟩
  exact unvisited (h.edges e member).2

theorem importers_append (h : Underway units calls name s) (own : i.importer = name)
    {recorded : List Import} (importers : ∀ j ∈ recorded, j.importer ∈ s.visited) :
    ∀ j ∈ recorded ++ [i], j.importer ∈ s.visited := by
  intro j member
  rcases List.mem_append.mp member with member | member
  · exact importers j member
  · rw [List.mem_singleton.mp member, own]
    exact h.member

theorem skip (h : Underway units calls name s) (own : i.importer = name) :
    Underway units calls name (s.skip i) where
  __ := h
  skipped := h.importers_append own h.skipped

theorem join (h : Underway units calls name s) (own : i.importer = name)
    (visited : i.dependee ∈ s.visited) :
    Underway units calls name
      { s with found := { s.found with graph := s.found.graph.addEdge i } } where
  __ := h
  names := by
    have importer : i.importer ∈ s.found.graph.names := h.mem_names.mpr (own ▸ h.member)
    rw [← h.names]
    exact ImportGraph.names_addEdge_known importer (h.mem_names.mpr visited)
  edges := by
    intro e member
    rw [ImportGraph.edges_addEdge] at member
    rcases List.mem_append.mp member with member | member
    · exact h.edges e member
    · rw [List.mem_singleton.mp member, own]
      exact ⟨h.member, visited⟩
  chain := fun call member => ImportGraph.path_mono (by simp) (h.chain call member)

theorem settle (h : Underway units calls name s) (own : i.importer = name)
    (visited : i.dependee ∈ s.visited) : Underway units calls name (s.settle i) := by
  cases joined : s.found.graph.hasEdge i.importer i.dependee with
  | true => simpa [Survey.settle, joined] using h
  | false => simpa [Survey.settle, joined] using h.join own visited

theorem close (h : Underway units calls name s) (own : i.importer = name)
    (visited : i.dependee ∈ s.visited) (policy : CyclePolicy) :
    Underway units calls name (s.close policy i) := by
  have recorded := h.importers_append own h.cycles
  cases policy with
  | drop => exact { h with cycles := recorded }
  | keep => exact { h.join own visited with cycles := recorded }

theorem enter (h : Underway units calls name s) (own : i.importer = name)
    (fresh : i.dependee ∉ s.visited) (known : units.contains i.dependee) :
    Underway units (i.dependee :: calls) i.dependee (s.enter i) where
  distinct := List.nodup_cons.mpr ⟨fresh, h.distinct⟩
  known := List.forall_mem_cons.mpr ⟨known, h.known⟩
  names := by
    have importer : i.importer ∈ s.found.graph.names := h.mem_names.mpr (own ▸ h.member)
    have undiscovered : i.dependee ∉ s.found.graph.names :=
      fun found => fresh (h.mem_names.mp found)
    simp only [Survey.enter, ImportGraph.names_addEdge_fresh importer undiscovered, h.names,
      List.reverse_cons]
  edges := by
    intro e member
    rw [edges_enter] at member
    rcases List.mem_append.mp member with member | member
    · obtain ⟨importer, dependee⟩ := h.edges e member
      exact ⟨List.mem_cons_of_mem _ importer, List.mem_cons_of_mem _ dependee⟩
    · rw [List.mem_singleton.mp member, own]
      exact ⟨List.mem_cons_of_mem _ h.member, List.mem_cons_self⟩
  cycles := fun j member => List.mem_cons_of_mem _ (h.cycles j member)
  skipped := fun j member => List.mem_cons_of_mem _ (h.skipped j member)
  current := List.mem_cons_self
  entered := List.cons_subset_cons _ h.entered
  chain := by
    -- every file under way reaches the importer, and the new edge goes on from there
    intro call member
    rcases List.mem_cons.mp member with rfl | member
    · exact .refl
    · have path : ReflTransGen (s.enter i).found.graph.Edge call name :=
        ImportGraph.path_mono (by simp) (h.chain call member)
      exact path.tail (s.edge_enter own)

/-- After an inner call has returned, the outer one goes on. -/
theorem resume {inner : SourceName} (h : Underway units calls name s)
    (returned : Underway units (inner :: calls) inner t)
    (grown : s.found.graph.edges ⊆ t.found.graph.edges) : Underway units calls name t where
  __ := returned
  current := h.current
  entered := fun call member => returned.entered call (List.mem_cons_of_mem _ member)
  chain := fun call member => ImportGraph.path_mono grown (h.chain call member)

end Underway

/-- `Visits units policy calls name pending s finished t`: in the call for `name`, following the
imports `pending` leads from `s` to `t`, and the calls made meanwhile are those for the files
`finished`, in the order of their returns. -/
inductive Visits (units : NameMap SourceUnit) (policy : Policy) :
    (calls : List SourceName) → (name : SourceName) → (pending : List Import) → Survey →
      (finished : List SourceName) → Survey → Prop where
  | done {calls name s} (underway : Underway units calls name s) :
      Visits units policy calls name [] s [] s
  | close {calls name i rest s finished t} (underway : Underway units calls name s)
      (own : i ∈ importsOf units name) (active : i.dependee ∈ calls)
      (tail : Visits units policy calls name rest (s.close policy.cycles i) finished t) :
      Visits units policy calls name (i :: rest) s finished t
  | settle {calls name i rest s finished t} (underway : Underway units calls name s)
      (own : i ∈ importsOf units name) (visited : i.dependee ∈ s.visited)
      (returned : i.dependee ∉ calls)
      (tail : Visits units policy calls name rest (s.settle i) finished t) :
      Visits units policy calls name (i :: rest) s finished t
  | skip {calls name i rest s finished t} (underway : Underway units calls name s)
      (own : i ∈ importsOf units name) (missing : units.get? i.dependee = none)
      (lenient : policy.unresolved = .skip)
      (tail : Visits units policy calls name rest (s.skip i) finished t) :
      Visits units policy calls name (i :: rest) s finished t
  | enter {calls name i rest s inner middle finished t} (underway : Underway units calls name s)
      (own : i ∈ importsOf units name) (fresh : i.dependee ∉ s.visited)
      (found : units.contains i.dependee)
      (call : Visits units policy (i.dependee :: calls) i.dependee (importsOf units i.dependee)
        (s.enter i) inner middle)
      (tail : Visits units policy calls name rest middle finished t) :
      Visits units policy calls name (i :: rest) s (inner ++ i.dependee :: finished) t

namespace Visits

variable {units : NameMap SourceUnit} {policy : Policy} {calls finished : List SourceName}
  {pending : List Import} {name : SourceName} {s t : Survey} {i : Import}

theorem before (visits : Visits units policy calls name pending s finished t) :
    Underway units calls name s := by
  cases visits <;> assumption

theorem after (visits : Visits units policy calls name pending s finished t) :
    Underway units calls name t := by
  induction visits with
  | done underway => exact underway
  | close _ _ _ _ ih | settle _ _ _ _ _ ih | skip _ _ _ _ _ ih | enter _ _ _ _ _ _ _ ih => exact ih

theorem edges_subset (visits : Visits units policy calls name pending s finished t) :
    s.found.graph.edges ⊆ t.found.graph.edges := by
  induction visits with
  | done => exact List.Subset.refl _
  | @close _ _ i _ s _ _ _ _ _ _ ih =>
      refine List.Subset.trans ?_ ih
      cases closing : policy.cycles <;> simp [Survey.close]
  | @settle _ _ i _ s _ _ _ _ _ _ _ ih =>
      refine List.Subset.trans ?_ ih
      cases joined : s.found.graph.hasEdge i.importer i.dependee <;> simp [Survey.settle, joined]
  | skip _ _ _ _ _ ih => exact ih
  | enter _ _ _ _ _ _ ihCall ihTail =>
      refine List.Subset.trans ?_ (List.Subset.trans ihCall ihTail)
      simp

theorem resume (call : Visits units policy (i.dependee :: calls) i.dependee pending (s.enter i)
    finished t) (underway : Underway units calls name s) : Underway units calls name t := by
  have grown : s.found.graph.edges ⊆ t.found.graph.edges :=
    List.Subset.trans (by simp) call.edges_subset
  exact underway.resume call.after grown

/-- Every file that a visit comes to see is one of those whose calls it makes. -/
theorem visited_perm (visits : Visits units policy calls name pending s finished t) :
    t.visited.Perm (finished ++ s.visited) := by
  induction visits with
  | done => exact .refl _
  | close _ _ _ _ ih | settle _ _ _ _ _ ih | skip _ _ _ _ _ ih => exact ih
  | @enter _ _ i _ s inner middle finished t _ _ _ _ _ _ ihCall ihTail =>
      calc
        t.visited.Perm (finished ++ middle.visited) := ihTail
        _ |>.Perm (finished ++ (inner ++ i.dependee :: s.visited)) := ihCall.append_left finished
        _ |>.Perm ((inner ++ i.dependee :: s.visited) ++ finished) := List.perm_append_comm
        _ |>.Perm (inner ++ i.dependee :: finished ++ s.visited) := by
          simp only [List.append_assoc, List.cons_append]
          exact (List.perm_append_comm.cons _).append_left inner

theorem mem_visited (visits : Visits units policy calls name pending s finished t)
    {file : SourceName} : file ∈ t.visited ↔ file ∈ finished ∨ file ∈ s.visited := by
  rw [visits.visited_perm.mem_iff, List.mem_append]

theorem finished_fresh (visits : Visits units policy calls name pending s finished t)
    {file : SourceName} (returned : file ∈ finished) : file ∉ s.visited := by
  intro visited
  have distinct := visits.visited_perm.nodup visits.after.distinct
  exact (List.nodup_append.mp distinct).2.2 file returned file visited rfl

theorem pending_visited (visits : Visits units policy calls name pending s finished t) :
    ∀ i ∈ pending, units.contains i.dependee → i.dependee ∈ t.visited := by
  induction visits with
  | done => simp
  | @close _ _ i _ s _ _ underway _ active tail ih =>
      refine List.forall_mem_cons.mpr ⟨fun _ => ?_, ih⟩
      exact tail.mem_visited.mpr (.inr (underway.entered _ active))
  | @settle _ _ i _ s _ _ _ _ visited _ tail ih =>
      refine List.forall_mem_cons.mpr ⟨fun _ => ?_, ih⟩
      exact tail.mem_visited.mpr (.inr visited)
  | skip _ _ missing _ _ ih =>
      refine List.forall_mem_cons.mpr ⟨fun known => ?_, ih⟩
      rw [contains_missing missing] at known
      contradiction
  | enter _ _ _ _ call tail _ ihTail =>
      refine List.forall_mem_cons.mpr ⟨fun _ => ?_, ihTail⟩
      exact tail.mem_visited.mpr (.inr call.after.member)

theorem finished_reached (visits : Visits units policy calls name pending s finished t) :
    ∀ file ∈ finished, ReflTransGen (Imports units) name file := by
  induction visits with
  | done => simp
  | close _ _ _ _ ih | settle _ _ _ _ _ ih | skip _ _ _ _ _ ih => exact ih
  | @enter _ name i _ _ _ _ _ _ _ own _ _ _ _ ihCall ihTail =>
      have step : Imports units name i.dependee := ⟨i, own, rfl⟩
      intro file member
      rcases List.mem_append.mp member with member | member
      · exact .head step (ihCall file member)
      · rcases List.mem_cons.mp member with rfl | member
        · exact .single step
        · exact ihTail file member

theorem finished_joined (visits : Visits units policy calls name pending s finished t) :
    ∀ file ∈ finished, ∃ importer ∈ finished ++ [name], t.found.graph.Edge importer file := by
  induction visits with
  | done => simp
  | close _ _ _ _ ih | settle _ _ _ _ _ ih | skip _ _ _ _ _ ih => exact ih
  | @enter _ name i _ s inner middle finished t _ own _ _ call tail ihCall ihTail =>
      intro file member
      rcases List.mem_append.mp member with member | member
      · obtain ⟨importer, inside, edge⟩ := ihCall file member
        refine ⟨importer, ?_, edge.mono tail.edges_subset⟩
        grind
      · rcases List.mem_cons.mp member with rfl | member
        · have edge := s.edge_enter (importer_of_mem own)
          exact ⟨name, by simp, (edge.mono call.edges_subset).mono tail.edges_subset⟩
        · obtain ⟨importer, inside, edge⟩ := ihTail file member
          refine ⟨importer, ?_, edge⟩
          grind

theorem names_grown (visits : Visits units policy calls name pending s finished t) :
    s.found.graph.names <+: t.found.graph.names := by
  rw [visits.before.names, visits.after.names, List.reverse_prefix]
  induction visits with
  | done => exact List.suffix_rfl
  | close _ _ _ _ ih | settle _ _ _ _ _ ih | skip _ _ _ _ _ ih => exact ih
  | enter _ _ _ _ _ _ ihCall ihTail => exact (List.suffix_cons _ _).trans (ihCall.trans ihTail)

end Visits

/-- Of two files, the one that returned first was discovered first, or the other was still under
way when it was entered; then its call was made for an import of a file that returned meanwhile. -/
def Nested (g : ImportGraph) (before : List SourceName) (file : SourceName) : Prop :=
  ∀ other ∈ before, g.rank other < g.rank file ∨
    ∃ importer ∈ before ++ [file], g.Edge importer other

theorem Nested.mono {g h : ImportGraph} {before : List SourceName} {file : SourceName}
    (nested : Nested g before file) (names : g.names <+: h.names) (edges : g.edges ⊆ h.edges)
    (inside : ∀ other ∈ before ++ [file], other ∈ g.names) : Nested h before file := by
  intro other member
  rcases nested other member with earlier | ⟨importer, returned, edge⟩
  · left
    rwa [ImportGraph.rank_of_grown names (inside other (by simp [member])),
      ImportGraph.rank_of_grown names (inside file (by simp))]
  · exact .inr ⟨importer, returned, edge.mono edges⟩

namespace Visits

variable {units : NameMap SourceUnit} {policy : Policy} {calls finished : List SourceName}
  {pending : List Import} {name : SourceName} {s t : Survey}

theorem finished_discovered (visits : Visits units policy calls name pending s finished t) :
    ∀ file ∈ finished, file ∈ t.found.graph.names :=
  fun _ returned => visits.after.mem_names.mpr (visits.mem_visited.mpr (.inl returned))

theorem rank_lt (visits : Visits units policy calls name pending s finished t)
    {file later : SourceName} (visited : file ∈ s.visited) (returned : later ∈ finished) :
    t.found.graph.rank file < t.found.graph.rank later := by
  refine ImportGraph.rank_lt_of_grown visits.names_grown (visits.before.mem_names.mpr visited) ?_
  exact fun found => visits.finished_fresh returned (visits.before.mem_names.mp found)

theorem call_nested (visits : Visits units policy calls name pending s finished t) :
    Nested t.found.graph finished name := by
  intro other member
  exact .inr (visits.finished_joined other member)

theorem nested (visits : Visits units policy calls name pending s finished t) :
    InOrder (Nested t.found.graph) finished := by
  induction visits with
  | done => exact .nil
  | close _ _ _ _ ih | settle _ _ _ _ _ ih | skip _ _ _ _ _ ih => exact ih
  | @enter _ name i _ s inner middle finished t _ _ _ _ call tail ihCall ihTail =>
      have discovered : ∀ file ∈ inner ++ [i.dependee], file ∈ middle.found.graph.names := by
        intro file member
        rcases List.mem_append.mp member with member | member
        · exact call.finished_discovered file member
        · rw [List.mem_singleton.mp member]
          exact call.after.mem_names.mpr call.after.member
      have lift : ∀ before file, before ++ [file] ⊆ inner ++ [i.dependee] →
          Nested middle.found.graph before file → Nested t.found.graph before file :=
        fun before file inside nested => nested.mono tail.names_grown tail.edges_subset
          (fun other member => discovered other (inside member))
      rw [List.append_cons]
      refine .append (.append (ihCall.imp ?_) (.single ?_)) (ihTail.imp ?_)
      · intro before file member inside nested
        refine lift before file ?_ nested
        grind
      · rw [List.append_nil]
        exact lift inner i.dependee (List.Subset.refl _) call.call_nested
      · -- what returned before the tail was discovered before all that the tail enters
        intro before file member _ nested other earlier
        rcases List.mem_append.mp earlier with earlier | earlier
        · have visited := call.after.mem_names.mp (discovered other earlier)
          exact .inl (tail.rank_lt visited member)
        · rcases nested other earlier with lower | ⟨importer, returned, edge⟩
          · exact .inl lower
          · exact .inr ⟨importer, by grind, edge⟩

end Visits

theorem visits_of_visit {units : NameMap SourceUnit} {policy : Policy} {calls : List SourceName}
    {pending : List Import} {name : SourceName} {s : Survey} {t : s.Later}
    (visited : visit units policy calls pending s = .ok t) (underway : Underway units calls name s)
    (own : pending ⊆ importsOf units name) :
    ∃ finished, Visits units policy calls name pending s finished t.1 := by
  fun_induction visit units policy calls pending s generalizing name with
  | case1 =>
      cases visited
      exact ⟨[], .done underway⟩
  | case2 calls i rest s known active ih =>
      obtain ⟨first, others⟩ := List.cons_subset.mp own
      obtain ⟨finished, tail⟩ :=
        ih visited (underway.close (importer_of_mem first) known policy.cycles) others
      exact ⟨finished, .close underway first active tail⟩
  | case3 calls i rest s known returned ih =>
      obtain ⟨first, others⟩ := List.cons_subset.mp own
      obtain ⟨finished, tail⟩ := ih visited (underway.settle (importer_of_mem first) known) others
      exact ⟨finished, .settle underway first known returned tail⟩
  | case4 => cases visited
  | case5 calls i rest s unvisited missing lenient ih =>
      obtain ⟨first, others⟩ := List.cons_subset.mp own
      obtain ⟨finished, tail⟩ := ih visited (underway.skip (importer_of_mem first)) others
      exact ⟨finished, .skip underway first missing lenient tail⟩
  | case6 calls i rest s unvisited unit found ihCall ihRest =>
      obtain ⟨first, others⟩ := List.cons_subset.mp own
      cases called : visit units policy (i.dependee :: calls) (unit.importsFrom i.dependee)
          (s.enter i) with
      | error e => simp [called, bind, Except.bind] at visited
      | ok middle =>
          cases followed : visit units policy calls rest middle.1 with
          | error e => simp [called, followed, bind, Except.bind] at visited
          | ok last =>
              have same : last.1 = t.1 := by
                simp only [called, followed, bind, Except.bind, pure, Except.pure] at visited
                cases visited
                rfl
              have known := contains_found found
              rw [← importsOf_found found] at called ihCall
              obtain ⟨inner, call⟩ := ihCall called
                (underway.enter (importer_of_mem first) unvisited known) (List.Subset.refl _)
              obtain ⟨finished, tail⟩ := ihRest middle followed (call.resume underway) others
              rw [← same]
              exact ⟨_, .enter underway first unvisited known call tail⟩

theorem visits_of_outcome {units : NameMap SourceUnit} {policy : Policy} {calls : List SourceName}
    {pending : List Import} {name : SourceName} {s t : Survey}
    (done : outcome units policy calls pending s = .ok t) (underway : Underway units calls name s)
    (own : pending ⊆ importsOf units name) :
    ∃ finished, Visits units policy calls name pending s finished t := by
  obtain ⟨later, visited⟩ := visit_of_outcome done
  exact visits_of_visit visited underway own

end Survey

end ImportFlattening

import ImportFlattening.Proofs.ImportAccount

/-! # The finishing order

The files of a target in the order in which a plain depth-first walk finishes them. A discovery
that succeeds has made that walk: `Traversal` collects what it then holds, with every file's
account settled by the files that stand before it.
-/

namespace ImportFlattening

open Relation

/-- The files that a plain depth-first walk has met, and those that it has finished, in order. -/
structure PostOrder where
  visited : List SourceName
  finished : List SourceName

namespace PostOrder

def unseen (units : NameMap SourceUnit) (p : PostOrder) : Nat :=
  Survey.unseen units ⟨p.visited, {}⟩

/-- Visit the files of a list in their order, each with all that it imports before itself. Files
that have been visited or have no syntax tree are passed over. -/
def visit (units : NameMap SourceUnit) :
    (files : List SourceName) → (p : PostOrder) → { q : PostOrder // p.visited <:+ q.visited }
  | [], p => ⟨p, List.suffix_rfl⟩
  | file :: rest, p =>
    if _known : file ∈ p.visited then visit units rest p
    else
      match _found : units.get? file with
      | none => visit units rest p
      | some unit =>
        let inner := visit units (unit.imports.map file.resolve)
          { p with visited := file :: p.visited }
        let outer := visit units rest { inner.1 with finished := inner.1.finished ++ [file] }
        ⟨outer.1, (List.suffix_cons _ _).trans (inner.2.trans outer.2)⟩
termination_by files p => (p.unseen units, files.length)
decreasing_by
  · exact Prod.Lex.right _ (Nat.lt_succ_self _)
  · exact Prod.Lex.right _ (Nat.lt_succ_self _)
  · exact Prod.Lex.left _ _
      (Survey.unseen_enter (s := ⟨p.visited, {}⟩) (i := ⟨file, file, ""⟩) _known _found)
  · exact Prod.Lex.right' _ (Survey.unseen_mono ((List.suffix_cons _ _).trans inner.2))
      (Nat.lt_succ_self _)

variable {units : NameMap SourceUnit} {file : SourceName} {p : PostOrder}

theorem visit_known (rest : List SourceName) (known : file ∈ p.visited) :
    visit units (file :: rest) p = visit units rest p := by
  rw [visit, dif_pos known]

theorem visit_missing (rest : List SourceName) (missing : units.get? file = none) :
    visit units (file :: rest) p = visit units rest p := by
  rw [visit]
  split
  · rfl
  · split <;> simp_all

theorem visit_fresh (rest : List SourceName) {unit : SourceUnit} (fresh : file ∉ p.visited)
    (found : units.get? file = some unit) {q : PostOrder}
    (inner : (visit units (unit.imports.map file.resolve)
      { p with visited := file :: p.visited }).1 = q) :
    (visit units (file :: rest) p).1 =
      (visit units rest { q with finished := q.finished ++ [file] }).1 := by
  rw [visit, dif_neg fresh]
  split
  · simp_all
  · rename_i other found'
    obtain rfl : unit = other := by simpa [found] using found'
    subst inner
    rfl

end PostOrder

/-- The finishing order of the files that `target` leads to. -/
def postOrder (units : NameMap SourceUnit) (target : SourceName) : List SourceName :=
  (PostOrder.visit units [target] ⟨[], []⟩).1.finished

theorem map_dependee_importsOf {units : NameMap SourceUnit} {name : SourceName} {unit : SourceUnit}
    (found : units.get? name = some unit) :
    (importsOf units name).map Import.dependee = unit.imports.map name.resolve := by
  simp [importsOf_found found, SourceUnit.importsFrom]

/-- The plain walk meets and finishes the same files as a visit. -/
theorem Survey.Visits.postOrder {units : NameMap SourceUnit} {policy : Policy}
    {calls finished : List SourceName} {pending : List Import} {name : SourceName} {s t : Survey}
    (visits : Visits units policy calls name pending s finished t) (done : List SourceName) :
    (PostOrder.visit units (pending.map Import.dependee) ⟨s.visited, done⟩).1 =
      ⟨t.visited, done ++ finished⟩ := by
  induction visits generalizing done with
  | done => simp [PostOrder.visit]
  | close underway _ active _ ih =>
      rw [List.map_cons, PostOrder.visit_known _ (underway.entered _ active)]
      exact ih done
  | settle _ _ visited _ _ ih =>
      rw [List.map_cons, PostOrder.visit_known _ visited]
      exact ih done
  | skip _ _ missing _ _ ih =>
      rw [List.map_cons, PostOrder.visit_missing _ missing]
      exact ih done
  | @enter _ _ i _ s inner middle finished t _ _ fresh found _ _ ihCall ihTail =>
      obtain ⟨unit, found⟩ := Option.isSome_iff_exists.mp found
      have call := ihCall done
      rw [map_dependee_importsOf found] at call
      rw [List.map_cons, PostOrder.visit_fresh (p := ⟨s.visited, done⟩) _ fresh found call, ihTail]
      simp

/-- What a discovery holds, in terms of the order in which its files were finished. -/
structure Traversal (units : NameMap SourceUnit) (policy : CyclePolicy) (target : SourceName)
    (d : Discovery) (order : List SourceName) : Prop where
  nodup : order.Nodup
  last : ∃ others, order = others ++ [target]
  reached : ∀ file, file ∈ order ↔ Reached units target file
  names : d.graph.names.Perm order
  first : d.graph.rank target = 0
  edges : ∀ e ∈ d.graph.edges, e.importer ∈ order
  cycles : ∀ i ∈ d.cycles, i.importer ∈ order
  skipped : ∀ i ∈ d.skipped, i.importer ∈ order
  settled : InOrder (Survey.Settled units policy d) order
  nested : InOrder (Survey.Nested d.graph) order

theorem Survey.Settled.dependee_mem {units : NameMap SourceUnit} {policy : CyclePolicy}
    {d : Discovery} {order before : List SourceName} {file : SourceName} {i : Import}
    (settled : Settled units policy d before file) (inside : before ⊆ order) (member : file ∈ order)
    (edges : ∀ e ∈ d.graph.edges, e.importer ∈ order) (own : i ∈ importsOf units file)
    (known : units.contains i.dependee) : i.dependee ∈ order := by
  by_cases returned : i.dependee ∈ before
  · exact inside returned
  · rcases ReflTransGen.cases_head (settled.closing i own known returned) with same | ⟨_, edge, _⟩
    · rwa [same]
    · obtain ⟨e, member, importer, -⟩ := edge
      rw [← importer]
      exact edges e member

theorem mem_of_reached {units : NameMap SourceUnit} {policy : CyclePolicy} {target : SourceName}
    {d : Discovery} {order : List SourceName} (start : target ∈ order)
    (edges : ∀ e ∈ d.graph.edges, e.importer ∈ order)
    (settled : InOrder (Survey.Settled units policy d) order) {file : SourceName}
    (reached : Reached units target file) : file ∈ order := by
  obtain ⟨known, path⟩ := reached
  induction path with
  | refl => exact start
  | tail _ step ih =>
      obtain ⟨i, own, rfl⟩ := step
      have member := ih (contains_of_mem own)
      obtain ⟨before, after, cut⟩ := List.append_of_mem member
      have inside : before ⊆ order := by simp [cut]
      exact (settled _ _ _ cut).dependee_mem inside member edges own known

section Target

variable {units : NameMap SourceUnit} {policy : Policy} {target : SourceName}
  {finished : List SourceName} {t : Survey}

theorem postOrder_of_visits {unit : SourceUnit} (found : units.get? target = some unit)
    (visits : Survey.Visits units policy [target] target (importsOf units target)
      (.start target) finished t) :
    postOrder units target = finished ++ [target] := by
  have inner := visits.postOrder []
  rw [map_dependee_importsOf found] at inner
  rw [postOrder, PostOrder.visit_fresh (p := ⟨[], []⟩) _ (by simp) found inner]
  simp [PostOrder.visit]

theorem traversal_of_visits
    (visits : Survey.Visits units policy [target] target (importsOf units target)
      (.start target) finished t) :
    Traversal units policy.cycles target t.found (finished ++ [target]) := by
  have mem_order : ∀ file, file ∈ finished ++ [target] ↔ file ∈ t.visited := by
    intro file
    rw [visits.mem_visited, List.mem_append]
    rfl
  have edges : ∀ e ∈ t.found.graph.edges, e.importer ∈ finished ++ [target] :=
    fun e member => (mem_order _).mpr (visits.after.edges e member).1
  have returned : ∀ file, file ∈ ([] : List SourceName) ↔
      file ∈ (Survey.start target).visited ∧ file ∉ [target] := by
    simp [Survey.start]
  have settled : InOrder (Survey.Settled units policy.cycles t.found) (finished ++ [target]) := by
    refine .append ?_ (.single ?_)
    · simpa only [List.nil_append] using visits.settled returned
    · simpa only [List.append_nil, List.nil_append] using
        Survey.Settled.of_call visits (Survey.account_start target) returned
  refine
    { nodup := ?_
      last := ⟨finished, rfl⟩
      reached := ?_
      names := ?_
      first := ?_
      edges := edges
      cycles := fun i member => (mem_order _).mpr (visits.after.cycles i member)
      skipped := fun i member => (mem_order _).mpr (visits.after.skipped i member)
      settled := settled
      nested := ?_ }
  · exact visits.visited_perm.nodup visits.after.distinct
  · intro file
    constructor
    · intro member
      refine ⟨visits.after.known file ((mem_order file).mp member), ?_⟩
      rcases List.mem_append.mp member with member | member
      · exact visits.finished_reached file member
      · rw [List.mem_singleton.mp member]
    · exact mem_of_reached (by simp) edges settled
  · rw [visits.after.names]
    exact (List.reverse_perm _).trans visits.visited_perm
  · have started : (Survey.start target).found.graph.names = [target] := by
      simp [Survey.start, ImportGraph.empty, ImportGraph.addName]
    rw [ImportGraph.rank_of_grown visits.names_grown (by simp [started]), ImportGraph.rank, started]
    exact List.idxOf_cons_self
  · refine .append visits.nested (.single ?_)
    simpa only [List.append_nil] using visits.call_nested

end Target

/-- A discovery that succeeds is the visit of its target. -/
theorem visits_of_discover {units : NameMap SourceUnit} {policy : Policy} {target : SourceName}
    {d : Discovery} (discovered : discover units policy target = .ok d) :
    ∃ unit finished t, units.get? target = some unit ∧ t.found = d ∧
      Survey.Visits units policy [target] target (importsOf units target) (.start target)
        finished t := by
  cases found : units.get? target with
  | none => simp [discover, found] at discovered
  | some unit =>
      rw [discover_eq_visit policy found, ← importsOf_found found] at discovered
      cases visited : Survey.visit units policy [target] (importsOf units target)
          (.start target) with
      | error e => simp [visited, Except.map] at discovered
      | ok last =>
          simp only [visited, Except.map, Except.ok.injEq] at discovered
          obtain ⟨finished, visits⟩ :=
            Survey.visits_of_visit visited (.start found) (List.Subset.refl _)
          exact ⟨unit, finished, last.1, rfl, discovered, visits⟩

/-- The discovery of a target finishes its files in the finishing order. -/
theorem traversal_of_discover {units : NameMap SourceUnit} {policy : Policy} {target : SourceName}
    {d : Discovery} (discovered : discover units policy target = .ok d) :
    Traversal units policy.cycles target d (postOrder units target) := by
  obtain ⟨unit, finished, t, found, rfl, visits⟩ := visits_of_discover discovered
  rw [postOrder_of_visits found visits]
  exact traversal_of_visits visits

end ImportFlattening

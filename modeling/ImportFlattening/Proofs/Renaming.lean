import ImportFlattening.Proofs.ImportClosure

/-! # Renaming files

Discovery and peeling use names in two ways only: they compare them, and they resolve imports from
them. So a renaming that keeps different names different, and that the imports of the files at hand
respect, renames whatever comes of a compilation and changes nothing else.
-/

namespace ImportFlattening

open Relation

section Definitions

variable (f : SourceName → SourceName)

def Import.rename (i : Import) : Import := ⟨f i.importer, f i.dependee, i.specifier⟩

def ImportGraph.rename (g : ImportGraph) : ImportGraph :=
  ⟨g.names.map f, g.edges.map (Import.rename f)⟩

def Discovery.rename (d : Discovery) : Discovery :=
  ⟨d.graph.rename f, d.cycles.map (Import.rename f), d.skipped.map (Import.rename f)⟩

def Survey.rename (s : Survey) : Survey := ⟨s.visited.map f, s.found.rename f⟩

def FlatOrder.rename (o : FlatOrder) : FlatOrder :=
  ⟨o.names.map f, o.cycles.map (Import.rename f), o.skipped.map (Import.rename f)⟩

def Error.rename : Error → Error
  | .missingText name => .missingText (f name)
  | .unresolved i => .unresolved (i.rename f)
  | .importCycle names => .importCycle (names.map f)
  | .noCompilation => .noCompilation
  | .unknownTarget name => .unknownTarget (f name)
  | .notFlattened name => .notFlattened (f name)

/-- A result or an error with its files renamed. -/
def renameOutcome {α : Type} (rename : α → α) : Except Error α → Except Error α
  | .ok a => .ok (rename a)
  | .error e => .error (e.rename f)

end Definitions

/-- The other collection holds the same syntax trees under the new names, and the imports of the
files in a set lead to the new names of what they led to. -/
structure RenamedUnits (f : SourceName → SourceName) (units units' : NameMap SourceUnit)
    (members : SourceName → Prop) : Prop where
  injective : Function.Injective f
  found : ∀ name, units'.get? (f name) = units.get? name
  resolved : ∀ name unit, members name → units.get? name = some unit →
    ∀ specifier ∈ unit.imports, (f name).resolve specifier = f (name.resolve specifier)

section Graph

variable {f : SourceName → SourceName}

namespace ImportGraph

theorem rename_addName (injective : Function.Injective f) (g : ImportGraph) (name : SourceName) :
    (g.addName name).rename f = (g.rename f).addName (f name) := by
  have known : f name ∈ g.names.map f ↔ name ∈ g.names := List.mem_map_of_injective injective
  by_cases member : name ∈ g.names
  · rw [addName_known member, addName_known (known.mpr member)]
  · have fresh : f name ∉ (g.rename f).names := fun renamed => member (known.mp renamed)
    simp only [addName, if_neg member, if_neg fresh]
    simp [rename]

theorem rename_addEdge (injective : Function.Injective f) (g : ImportGraph) (i : Import) :
    (g.addEdge i).rename f = (g.rename f).addEdge (i.rename f) := by
  have ends : ((g.addName i.importer).addName i.dependee).rename f =
      ((g.rename f).addName (f i.importer)).addName (f i.dependee) := by
    rw [rename_addName injective, rename_addName injective]
  simp only [addEdge, Import.rename, ← ends]
  simp [rename, Import.rename]

theorem hasEdge_rename (injective : Function.Injective f) (g : ImportGraph) (i : Import) :
    (g.rename f).hasEdge (i.rename f).importer (i.rename f).dependee =
      g.hasEdge i.importer i.dependee := by
  simp [hasEdge, rename, Import.rename, List.any_map, Function.comp_def, injective.eq_iff]

theorem links_rename (injective : Function.Injective f) (g : ImportGraph) :
    (g.rename f).links = g.links := by
  have position : ∀ name, (g.names.map f).idxOf (f name) = g.names.idxOf name :=
    fun name => idxOf_map_of_inj fun _ _ same => injective same
  simp [links, rename, Import.rename, Function.comp_def, position]

theorem filterMap_names_rename (g : ImportGraph) (ranks : List Nat) :
    ranks.filterMap ((g.rename f).names[·]?) = (ranks.filterMap (g.names[·]?)).map f := by
  rw [List.map_filterMap]
  simp [rename]

theorem firstCycle_rename (injective : Function.Injective f) (g : ImportGraph) :
    (g.rename f).firstCycle = g.firstCycle.map f := by
  have size : (g.rename f).names.length = g.names.length := List.length_map f
  simp only [firstCycle, links_rename injective, size, filterMap_names_rename]
  split <;> rfl

theorem linearize_rename (injective : Function.Injective f) (g : ImportGraph) (target : SourceName) :
    (g.rename f).linearize (f target) = renameOutcome f (List.map f) (g.linearize target) := by
  have size : (g.rename f).names.length = g.names.length := List.length_map f
  have edges : (g.rename f).hasEdges = g.hasEdges := by simp [hasEdges, rename]
  simp only [linearize, edges, links_rename injective, size, filterMap_names_rename,
    firstCycle_rename injective]
  split
  · split <;> rfl
  · rfl

end ImportGraph

namespace Survey

theorem rename_enter (injective : Function.Injective f) (s : Survey) (i : Import) :
    (s.enter i).rename f = (s.rename f).enter (i.rename f) := by
  simp [rename, enter, Discovery.rename, ImportGraph.rename_addEdge injective, Import.rename]

theorem rename_skip (s : Survey) (i : Import) :
    (s.skip i).rename f = (s.rename f).skip (i.rename f) := by
  simp [rename, skip, Discovery.rename]

theorem rename_close (injective : Function.Injective f) (policy : CyclePolicy) (s : Survey)
    (i : Import) : (s.close policy i).rename f = (s.rename f).close policy (i.rename f) := by
  cases policy <;>
    simp [rename, close, Discovery.rename, ImportGraph.rename_addEdge injective]

theorem rename_settle (injective : Function.Injective f) (s : Survey) (i : Import) :
    (s.settle i).rename f = (s.rename f).settle (i.rename f) := by
  have joined := ImportGraph.hasEdge_rename injective s.found.graph i
  simp only [rename, settle, Discovery.rename, joined]
  split
  · rfl
  · rw [ImportGraph.rename_addEdge injective]

end Survey

end Graph

namespace RenamedUnits

variable {f : SourceName → SourceName} {units units' : NameMap SourceUnit}
  {members : SourceName → Prop} {name : SourceName} {unit : SourceUnit}

theorem importsFrom_rename (renamed : RenamedUnits f units units' members) (member : members name)
    (found : units.get? name = some unit) :
    unit.importsFrom (f name) = (unit.importsFrom name).map (Import.rename f) := by
  simp only [SourceUnit.importsFrom, List.map_map]
  apply List.map_congr_left
  intro specifier written
  simp [Import.rename, renamed.resolved name unit member found specifier written]

/-- A visit that starts inside a set closed under imports is renamed as a whole. -/
theorem outcome_rename (renamed : RenamedUnits f units units' members)
    (closed : ∀ name unit, members name → units.get? name = some unit →
      ∀ i ∈ unit.importsFrom name, members i.dependee)
    (policy : Policy) (calls : List SourceName) (pending : List Import) (s : Survey)
    (inside : ∀ i ∈ pending, members i.dependee) :
    Survey.outcome units' policy (calls.map f) (pending.map (Import.rename f)) (s.rename f) =
      renameOutcome f (Survey.rename f) (Survey.outcome units policy calls pending s) := by
  have injective := renamed.injective
  have mem_map : ∀ (l : List SourceName) (i : Import),
      (i.rename f).dependee ∈ l.map f ↔ i.dependee ∈ l :=
    fun l i => List.mem_map_of_injective injective
  induction calls, pending, s using Survey.visit.induct units policy with
  | case1 calls s =>
      rw [List.map_nil, Survey.outcome_nil, Survey.outcome_nil]
      rfl
  | case2 calls i rest s known active ih =>
      rw [List.map_cons, Survey.outcome_close ((mem_map s.visited i).mpr known)
        ((mem_map calls i).mpr active), Survey.outcome_close known active,
        ← Survey.rename_close injective]
      exact ih (List.forall_mem_cons.mp inside).2
  | case3 calls i rest s known returned ih =>
      rw [List.map_cons, Survey.outcome_settle ((mem_map s.visited i).mpr known)
        (mt (mem_map calls i).mp returned), Survey.outcome_settle known returned,
        ← Survey.rename_settle injective]
      exact ih (List.forall_mem_cons.mp inside).2
  | case4 calls i rest s unvisited missing strict =>
      rw [List.map_cons, Survey.outcome_fail (mt (mem_map s.visited i).mp unvisited)
        ((renamed.found i.dependee).trans missing) strict,
        Survey.outcome_fail unvisited missing strict]
      rfl
  | case5 calls i rest s unvisited missing lenient ih =>
      rw [List.map_cons, Survey.outcome_skip (mt (mem_map s.visited i).mp unvisited)
        ((renamed.found i.dependee).trans missing) lenient,
        Survey.outcome_skip unvisited missing lenient, ← Survey.rename_skip]
      exact ih (List.forall_mem_cons.mp inside).2
  | case6 calls i rest s unvisited unit found ihCall ihRest =>
      obtain ⟨first, others⟩ := List.forall_mem_cons.mp inside
      have call := ihCall (closed _ _ first found)
      rw [← renamed.importsFrom_rename first found, Survey.rename_enter injective,
        List.map_cons] at call
      rw [List.map_cons, Survey.outcome_enter (mt (mem_map s.visited i).mp unvisited)
        ((renamed.found i.dependee).trans found), Survey.outcome_enter unvisited found]
      change Survey.outcome units' policy (f i.dependee :: calls.map f)
        (unit.importsFrom (f i.dependee)) _ >>= _ = _
      rw [call]
      cases called : Survey.outcome units policy (i.dependee :: calls)
          (unit.importsFrom i.dependee) (s.enter i) with
      | error e => rfl
      | ok middle =>
          obtain ⟨later, -⟩ := Survey.visit_of_outcome called
          exact ihRest ⟨middle, later⟩ others

theorem discover_rename {target : SourceName}
    (renamed : RenamedUnits f units units' (ImportClosure units target)) (policy : Policy) :
    discover units' policy (f target) =
      renameOutcome f (Discovery.rename f) (discover units policy target) := by
  cases found : units.get? target with
  | none =>
      simp only [discover, found, (renamed.found target).trans found]
      rfl
  | some unit =>
      have start : (Survey.start target).rename f = .start (f target) := by
        simp only [Survey.start, Survey.rename, Discovery.rename,
          ImportGraph.rename_addName renamed.injective]
        rfl
      have visited := renamed.outcome_rename
        (fun _ _ member found _ own => member.of_import found own) policy [target]
        (unit.importsFrom target) (.start target)
        (fun _ own => ImportClosure.target.of_import found own)
      rw [start, ← renamed.importsFrom_rename .target found] at visited
      rw [discover_eq_outcome policy found,
        discover_eq_outcome policy ((renamed.found target).trans found)]
      change (Survey.outcome units' policy ([target].map f) _ _).map _ = _
      rw [visited]
      cases Survey.outcome units policy [target] (unit.importsFrom target) (.start target) <;> rfl

end RenamedUnits

theorem ImportClosure.reached {units : NameMap SourceUnit} {target name : SourceName}
    {unit : SourceUnit} (member : ImportClosure units target name)
    (found : units.get? name = some unit) : Reached units target name := by
  refine ⟨contains_found found, ?_⟩
  clear found
  induction member with
  | target => exact .refl
  | @dependee name unit specifier _ found written ih =>
      refine ih.tail ⟨⟨name, name.resolve specifier, specifier⟩, ?_, rfl⟩
      rw [importsOf_found found]
      exact List.mem_map_of_mem written

/-- A compilation with its files renamed has the same order, or the same error, with the files in it
renamed. -/
theorem Compilation.order_rename {f : SourceName → SourceName} {c c' : Compilation}
    (renamed : RenamedUnits f c.units c'.units (ImportClosure c.units c.target))
    (target : c'.target = f c.target) (policy : Policy) :
    c'.order policy = renameOutcome f (FlatOrder.rename f) (c.order policy) := by
  simp only [order, target, renamed.discover_rename policy]
  cases discover c.units policy c.target with
  | error e => rfl
  | ok d =>
      have linear := ImportGraph.linearize_rename renamed.injective d.graph c.target
      simp only [renameOutcome, bind, Except.bind, Discovery.rename, linear]
      cases d.graph.linearize c.target <;> rfl

end ImportFlattening

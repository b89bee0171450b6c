import ImportFlattening.Proofs.ConcatenationOrder

/-! # Dropping and keeping closing edges

A discovery that keeps the imports that close a cycle as edges makes the same walk as one that
drops them: the two surveys stay twins (`Survey.Twins`) through every visit. They could part only
where a kept edge stands in for an edge that the other discovery still has to add. That does not
happen, since during a call the files under way stay the same, so that the imports of one file by
another all close a cycle or none does.
-/

namespace ImportFlattening

open Relation

/-- Both computations fail with one error, or they succeed with related results. -/
inductive Alike {α : Type} (related : α → α → Prop) : Except Error α → Except Error α → Prop where
  | error (e : Error) : Alike related (.error e) (.error e)
  | ok {a b : α} (results : related a b) : Alike related (.ok a) (.ok b)

namespace Alike

variable {α β : Type} {related : α → α → Prop} {relatedNext : β → β → Prop} {x y : Except Error α}

theorem bind {f g : α → Except Error β} (alike : Alike related x y)
    (next : ∀ a b, y = .ok b → related a b → Alike relatedNext (f a) (g b)) :
    Alike relatedNext (x >>= f) (y >>= g) := by
  cases alike with
  | error e => exact .error e
  | ok results => exact next _ _ rfl results

theorem map {f : α → β} (alike : Alike related x y)
    (results : ∀ a b, related a b → relatedNext (f a) (f b)) :
    Alike relatedNext (x.map f) (y.map f) := by
  cases alike with
  | error e => exact .error e
  | ok ends => exact .ok (results _ _ ends)

end Alike

/-- The discovery is the other one without the edges that are recorded as closing a cycle. These
edges are all that is recorded so, in the same order. -/
structure Discovery.WithoutClosing (d k : Discovery) : Prop where
  names : d.graph.names = k.graph.names
  cycles : d.cycles = k.cycles
  skipped : d.skipped = k.skipped
  others : d.graph.edges = k.graph.edges.filter (· ∉ k.cycles)
  closing : k.graph.edges.filter (· ∈ k.cycles) = k.cycles

namespace Discovery.WithoutClosing

variable {d k : Discovery} {i : Import}

theorem addEdge (h : d.WithoutClosing k) (unrecorded : i ∉ k.cycles) :
    WithoutClosing { d with graph := d.graph.addEdge i } { k with graph := k.graph.addEdge i } where
  names := ImportGraph.names_addEdge_congr h.names i
  cycles := h.cycles
  skipped := h.skipped
  others := by simp [h.others, unrecorded]
  closing := by simpa [unrecorded] using h.closing

theorem addClosing (h : d.WithoutClosing k) (importer : i.importer ∈ k.graph.names)
    (dependee : i.dependee ∈ k.graph.names) (before : i ∈ k.graph.edges → i ∈ k.cycles) :
    WithoutClosing { d with cycles := d.cycles ++ [i] }
      { k with graph := k.graph.addEdge i, cycles := k.cycles ++ [i] } := by
  -- an earlier edge for the same import is recorded as closing already
  have same : ∀ e ∈ k.graph.edges, (e ∈ k.cycles ++ [i] ↔ e ∈ k.cycles) := by
    intro e member
    rw [List.mem_append, List.mem_singleton]
    apply or_iff_left_of_imp
    rintro rfl
    exact before member
  refine
    { names := h.names.trans (ImportGraph.names_addEdge_known importer dependee).symm
      cycles := congrArg (· ++ [i]) h.cycles
      skipped := h.skipped
      others := ?_
      closing := ?_ }
  · have earlier : k.graph.edges.filter (· ∉ k.cycles ++ [i]) =
        k.graph.edges.filter (· ∉ k.cycles) :=
      List.filter_congr fun e member => by simp only [same e member]
    simp only [ImportGraph.edges_addEdge, List.filter_append, earlier, h.others]
    simp
  · have earlier : k.graph.edges.filter (· ∈ k.cycles ++ [i]) =
        k.graph.edges.filter (· ∈ k.cycles) :=
      List.filter_congr fun e member => by simp only [same e member]
    simp only [ImportGraph.edges_addEdge, List.filter_append, earlier, h.closing]
    simp

theorem hasEdge_eq (h : d.WithoutClosing k) {a b : SourceName}
    (apart : ∀ e ∈ k.cycles, e.importer = a → e.dependee ≠ b) :
    d.graph.hasEdge a b = k.graph.hasEdge a b := by
  rw [Bool.eq_iff_iff, ImportGraph.hasEdge_iff, ImportGraph.hasEdge_iff]
  constructor
  · exact ImportGraph.Edge.mono (by simp [h.others])
  · rintro ⟨e, member, importer, dependee⟩
    have unrecorded : e ∉ k.cycles := fun closing => apart e closing importer dependee
    exact ⟨e, by simp [h.others, member, unrecorded], importer, dependee⟩

end Discovery.WithoutClosing

/-- The imports that closed a cycle, whether as edges or not, are those of the files in `calls`. -/
structure Account.ClosesOn (a : Account) (calls : List SourceName) : Prop where
  cycles : ∀ i ∈ a.cycles, i.dependee ∈ calls
  edges : ∀ e ∈ a.edges, e.dependee ∈ calls → e ∈ a.cycles

namespace Account.ClosesOn

variable {calls : List SourceName}

theorem blank (calls : List SourceName) : ClosesOn {} calls where
  cycles := by simp
  edges := by simp

theorem note {a : Account} (closes : a.ClosesOn calls) (units : NameMap SourceUnit) (i : Import) :
    (a.note units .keep (· ∈ calls) i).ClosesOn calls := by
  obtain ⟨cycles, edges⟩ := closes
  unfold Account.note
  constructor <;> grind

theorem unrecorded {d : Discovery} {i : Import} (closes : (d.account i.importer).ClosesOn calls)
    (uncalled : i.dependee ∉ calls) : i ∉ d.cycles := by
  intro member
  exact uncalled (closes.cycles i (by simp [Discovery.account, member]))

end Account.ClosesOn

namespace Survey

/-- Two surveys of one walk, without and with the closing edges. -/
structure Twins (s k : Survey) : Prop where
  visited : s.visited = k.visited
  found : s.found.WithoutClosing k.found

namespace Twins

theorem start (target : SourceName) : Twins (.start target) (.start target) where
  visited := rfl
  found := by constructor <;> simp [Survey.start, ImportGraph.empty]

variable {units : NameMap SourceUnit} {calls : List SourceName} {s k : Survey} {i : Import}

theorem skip (twins : Twins s k) (i : Import) : Twins (s.skip i) (k.skip i) where
  visited := twins.visited
  found := { twins.found with skipped := congrArg (· ++ [i]) twins.found.skipped }

theorem enter (twins : Twins s k) (closes : (k.found.account i.importer).ClosesOn calls)
    (uncalled : i.dependee ∉ calls) : Twins (s.enter i) (k.enter i) where
  visited := congrArg (i.dependee :: ·) twins.visited
  found := twins.found.addEdge (closes.unrecorded uncalled)

theorem settle (twins : Twins s k) (closes : (k.found.account i.importer).ClosesOn calls)
    (uncalled : i.dependee ∉ calls) : Twins (s.settle i) (k.settle i) where
  visited := twins.visited
  found := by
    have apart : ∀ e ∈ k.found.cycles, e.importer = i.importer → e.dependee ≠ i.dependee := by
      intro e member importer dependee
      have active := closes.cycles e (by simp [Discovery.account, member, importer])
      exact uncalled (dependee ▸ active)
    have joined := twins.found.hasEdge_eq apart
    cases edge : k.found.graph.hasEdge i.importer i.dependee with
    | true => simpa [Survey.settle, joined, edge] using twins.found
    | false =>
        simpa [Survey.settle, joined, edge] using
          twins.found.addEdge (closes.unrecorded uncalled)

theorem close (twins : Twins s k) (underway : Underway units calls i.importer k)
    (closes : (k.found.account i.importer).ClosesOn calls) (active : i.dependee ∈ calls) :
    Twins (s.close .drop i) (k.close .keep i) where
  visited := twins.visited
  found := by
    have importer := underway.mem_names.mpr underway.member
    have dependee := underway.mem_names.mpr (underway.entered _ active)
    refine twins.found.addClosing importer dependee fun member => ?_
    have noted := closes.edges i (by simp [Discovery.account, member]) active
    exact (List.mem_filter.mp noted).1

end Twins

/-- Whether closing edges are kept or dropped, a visit fails alike or leads from twins to twins. -/
theorem outcome_twins {units : NameMap SourceUnit} {unresolved : UnresolvedPolicy}
    {calls : List SourceName} {pending : List Import} {name : SourceName} {s k : Survey}
    (twins : Twins s k) (underway : Underway units calls name k)
    (own : pending ⊆ importsOf units name) (closes : (k.found.account name).ClosesOn calls) :
    Alike Twins (outcome units ⟨unresolved, .drop⟩ calls pending s)
      (outcome units ⟨unresolved, .keep⟩ calls pending k) := by
  induction calls, pending, k using visit.induct units ⟨unresolved, .keep⟩ generalizing s name with
  | case1 calls k =>
      rw [outcome_nil, outcome_nil]
      exact .ok twins
  | case2 calls i rest k known active ih =>
      obtain ⟨first, others⟩ := List.cons_subset.mp own
      obtain rfl := importer_of_mem first
      rw [outcome_close (twins.visited ▸ known) active, outcome_close known active]
      refine ih (twins.close underway closes active) (underway.close rfl known .keep) others ?_
      rw [account_close_own .keep (· ∈ calls) rfl (underway.known _ known) (decide_eq_true active)]
      exact closes.note units i
  | case3 calls i rest k known returned ih =>
      obtain ⟨first, others⟩ := List.cons_subset.mp own
      obtain rfl := importer_of_mem first
      rw [outcome_settle (twins.visited ▸ known) returned, outcome_settle known returned]
      refine ih (twins.settle closes returned) (underway.settle rfl known) others ?_
      rw [account_settle_own .keep (· ∈ calls) rfl (underway.known _ known)
        (decide_eq_false returned)]
      exact closes.note units i
  | case4 calls i rest k unvisited missing strict =>
      obtain rfl : unresolved = .fail := strict
      rw [outcome_fail (twins.visited ▸ unvisited) missing rfl, outcome_fail unvisited missing rfl]
      exact .error _
  | case5 calls i rest k unvisited missing lenient ih =>
      obtain ⟨first, others⟩ := List.cons_subset.mp own
      obtain rfl : unresolved = .skip := lenient
      rw [outcome_skip (twins.visited ▸ unvisited) missing rfl, outcome_skip unvisited missing rfl]
      exact ih (twins.skip i) (underway.skip (importer_of_mem first)) others
        ⟨closes.cycles, closes.edges⟩
  | case6 calls i rest k unvisited unit found ihCall ihRest =>
      obtain ⟨first, others⟩ := List.cons_subset.mp own
      obtain rfl := importer_of_mem first
      have uncalled : i.dependee ∉ calls := fun active => unvisited (underway.entered _ active)
      have different : i.importer ≠ i.dependee := fun same => unvisited (same ▸ underway.member)
      have known := contains_found found
      have entered := underway.enter rfl unvisited known
      rw [outcome_enter (twins.visited ▸ unvisited) found, outcome_enter unvisited found]
      rw [← importsOf_found found] at ihCall ⊢
      refine (ihCall (twins.enter closes uncalled) entered (List.Subset.refl _) ?_).bind ?_
      · rw [account_enter_other different, underway.account_unvisited unvisited]
        exact .blank _
      · intro middle kept done middles
        obtain ⟨later, -⟩ := visit_of_outcome done
        obtain ⟨finished, call⟩ := visits_of_outcome done entered (List.Subset.refl _)
        refine ihRest ⟨kept, later⟩ middles (call.resume underway) others ?_
        rw [call.account_called underway rfl unvisited known]
        exact closes.note units i

end Survey

theorem discover_alike (units : NameMap SourceUnit) (unresolved : UnresolvedPolicy)
    (target : SourceName) : Alike Discovery.WithoutClosing
      (discover units ⟨unresolved, .drop⟩ target) (discover units ⟨unresolved, .keep⟩ target) := by
  cases found : units.get? target with
  | none =>
      simp only [discover, found]
      exact .error _
  | some unit =>
      rw [discover_eq_outcome _ found, discover_eq_outcome _ found, ← importsOf_found found]
      refine (Survey.outcome_twins (.start target) (.start found) (List.Subset.refl _) ?_).map
        fun _ _ twins => twins.found
      rw [Survey.account_start]
      exact .blank _

theorem cycles_subset_edges {units : NameMap SourceUnit} {unresolved : UnresolvedPolicy}
    {target : SourceName} {k : Discovery}
    (discovered : discover units ⟨unresolved, .keep⟩ target = .ok k) :
    k.cycles ⊆ k.graph.edges := by
  have alike := discover_alike units unresolved target
  rw [discovered] at alike
  generalize discover units ⟨unresolved, .drop⟩ target = dropped at alike
  cases alike with
  | ok twins =>
      rw [← twins.closing]
      exact List.filter_subset_self _

theorem Discovery.WithoutClosing.eq_of_acyclic {d k : Discovery} (h : d.WithoutClosing k)
    (none : d.cycles = []) : d = k := by
  obtain ⟨⟨_, _⟩, _, _⟩ := d
  obtain ⟨⟨_, _⟩, _, _⟩ := k
  obtain ⟨rfl, rfl, rfl, others, -⟩ := h
  simp_all

/-- A closing import and the edges that lead back from its file make a cycle. -/
theorem Traversal.linearize_closing {units : NameMap SourceUnit} {target : SourceName}
    {d : Discovery} {order : List SourceName} {policy : CyclePolicy}
    (traversal : Traversal units policy target d order) {i : Import} (closing : i ∈ d.cycles)
    (kept : i ∈ d.graph.edges) :
    d.graph.linearize target = .error (.importCycle d.graph.firstCycle) := by
  obtain ⟨-, -, back⟩ := traversal.cycle_import closing
  exact ImportGraph.linearize_cyclic traversal.closed (.head' ⟨i, kept, rfl, rfl⟩ back)

namespace Compilation

variable {c : Compilation} {unresolved : UnresolvedPolicy}

theorem order_error_of_linearize {policy : Policy} {d : Discovery} {e : Error}
    (discovered : discover c.units policy c.target = .ok d)
    (failed : d.graph.linearize c.target = .error e) : c.order policy = .error e := by
  simp [order, discovered, failed, bind, Except.bind]

theorem order_keep_cyclic {k : Discovery}
    (discovered : discover c.units ⟨unresolved, .keep⟩ c.target = .ok k) (cyclic : k.cycles ≠ []) :
    c.order ⟨unresolved, .keep⟩ = .error (.importCycle k.graph.firstCycle) := by
  obtain ⟨i, closing⟩ := List.exists_mem_of_ne_nil _ cyclic
  have kept : i ∈ k.graph.edges := cycles_subset_edges discovered closing
  exact order_error_of_linearize discovered
    ((traversal_of_discover discovered).linearize_closing closing kept)

theorem flatten_error_of_order {policy : Policy} {e : Error} (failed : c.order policy = .error e) :
    c.flatten policy = .error e := by
  simp [flatten, failed, bind, Except.bind]

theorem flatten_congr_discover {p q : Policy}
    (same : discover c.units p c.target = discover c.units q c.target) :
    c.flatten p = c.flatten q := by
  simp only [flatten, order, same]

/-- Keeping the closing edges changes neither the walk nor what it records, only the edges. So it
changes the result only where there is a cycle, and then there is no order. -/
theorem keep_adds_closing_edges (c : Compilation) (unresolved : UnresolvedPolicy) :
    ((∃ e, discover c.units ⟨unresolved, .drop⟩ c.target = .error e ∧
        discover c.units ⟨unresolved, .keep⟩ c.target = .error e) ∨
      ∃ d k, discover c.units ⟨unresolved, .drop⟩ c.target = .ok d ∧
        discover c.units ⟨unresolved, .keep⟩ c.target = .ok k ∧
        d.graph.names = k.graph.names ∧ d.cycles = k.cycles ∧ d.skipped = k.skipped ∧
        d.graph.edges = k.graph.edges.filter (· ∉ k.cycles) ∧
        k.graph.edges.filter (· ∈ k.cycles) = k.cycles) ∧
    ((∀ d, discover c.units ⟨unresolved, .drop⟩ c.target = .ok d → d.cycles = []) →
      flattenLatest (some c) ⟨unresolved, .keep⟩ = flattenLatest (some c) ⟨unresolved, .drop⟩) ∧
    ∀ d, discover c.units ⟨unresolved, .drop⟩ c.target = .ok d → d.cycles ≠ [] →
      ∃ names, flattenLatest (some c) ⟨unresolved, .keep⟩ = .error (.importCycle names) := by
  have alike := discover_alike c.units unresolved c.target
  generalize dropped : discover c.units ⟨unresolved, .drop⟩ c.target = x at alike
  generalize kept : discover c.units ⟨unresolved, .keep⟩ c.target = y at alike
  cases alike with
  | error e =>
      refine ⟨.inl ⟨e, rfl, rfl⟩, fun _ => ?_, fun d discovered => by cases discovered⟩
      exact flatten_congr_discover (kept.trans dropped.symm)
  | @ok d k twins =>
      refine ⟨.inr ⟨d, k, rfl, rfl, twins.names, twins.cycles, twins.skipped, twins.others,
        twins.closing⟩, ?_, ?_⟩
      · intro acyclic
        have same := twins.eq_of_acyclic (acyclic d rfl)
        exact flatten_congr_discover (by rw [kept, dropped, same])
      · rintro _ ⟨⟩ cyclic
        rw [twins.cycles] at cyclic
        exact ⟨_, flatten_error_of_order (order_keep_cyclic kept cyclic)⟩

/-- Two files, of which the first imports the second. -/
def chained : Compilation where
  target := ⟨"A"⟩
  texts := .ofList [(⟨"A"⟩, "import './B';\ncontract A is B;\n"), (⟨"B"⟩, "contract B;\n")]
  units := .ofList [(⟨"A"⟩, .ofImports ["./B"]), (⟨"B"⟩, .ofImports [])]

theorem discover_chained : discover chained.units ⟨.fail, .drop⟩ chained.target = .ok
    { graph := { names := [⟨"A"⟩, ⟨"B"⟩], edges := [⟨⟨"A"⟩, ⟨"B"⟩, "./B"⟩] } } :=
  discover_of_runWithin rfl 4 (by decide)

theorem keep_chained_tangled :
    ((∀ d, discover chained.units ⟨.fail, .drop⟩ chained.target = .ok d → d.cycles = []) ∧
      flattenLatest (some chained) ⟨.fail, .keep⟩ = flattenLatest (some chained) ⟨.fail, .drop⟩) ∧
    (∃ d, discover tangled.units ⟨.skip, .drop⟩ tangled.target = .ok d ∧ d.cycles ≠ []) ∧
    ∃ names, flattenLatest (some tangled) ⟨.skip, .keep⟩ = .error (.importCycle names) := by
  obtain ⟨-, acyclic, -⟩ := keep_adds_closing_edges chained .fail
  obtain ⟨-, -, cyclic⟩ := keep_adds_closing_edges tangled .skip
  have none : ∀ d, discover chained.units ⟨.fail, .drop⟩ chained.target = .ok d →
      d.cycles = [] := by
    intro d discovered
    rw [discover_chained] at discovered
    cases discovered
    rfl
  have recorded := List.cons_ne_nil (⟨⟨"D"⟩, ⟨"B"⟩, "./B"⟩ : Import) [⟨⟨"C"⟩, ⟨"A"⟩, "./A"⟩]
  exact ⟨⟨none, acyclic none⟩, ⟨_, discover_tangledUnits, recorded⟩,
    cyclic _ discover_tangledUnits recorded⟩

end Compilation

end ImportFlattening

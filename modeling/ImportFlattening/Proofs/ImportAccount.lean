import ImportFlattening.Proofs.VisitTrace

/-! # Accounts of imports

What a discovery records of one file's imports is its account. A call writes its file's account
and no other, one import after the other; and once it has returned, what the account says depends
only on which files had returned before.
-/

namespace ImportFlattening

open Relation

/-- The edges, cycles and skipped imports that one file has a part in as importer. -/
structure Account where
  edges : List Import := []
  cycles : List Import := []
  skipped : List Import := []

namespace Account

/-- Enter an import into the account, where `closes` tells the files that close a cycle. -/
def note (units : NameMap SourceUnit) (policy : CyclePolicy) (closes : SourceName → Bool)
    (a : Account) (i : Import) : Account :=
  if units.contains i.dependee then
    if closes i.dependee then
      match policy with
      | .drop => { a with cycles := a.cycles ++ [i] }
      | .keep => { a with edges := a.edges ++ [i], cycles := a.cycles ++ [i] }
    else if a.edges.any (·.dependee = i.dependee) then a
    else { a with edges := a.edges ++ [i] }
  else { a with skipped := a.skipped ++ [i] }

def ofImports (units : NameMap SourceUnit) (policy : CyclePolicy) (closes : SourceName → Bool)
    (imports : List Import) : Account :=
  imports.foldl (note units policy closes) {}

end Account

/-- The account of the file `name`. -/
def Discovery.account (d : Discovery) (name : SourceName) : Account where
  edges := d.graph.edges.filter (·.importer = name)
  cycles := d.cycles.filter (·.importer = name)
  skipped := d.skipped.filter (·.importer = name)

namespace Survey

section Steps

variable {units : NameMap SourceUnit} {calls : List SourceName} {name : SourceName} {s : Survey}
  {i : Import}

theorem account_start (target : SourceName) :
    (Survey.start target).found.account name = {} := by
  simp [Discovery.account, Survey.start, ImportGraph.empty]

theorem account_skip_other (other : i.importer ≠ name) :
    (s.skip i).found.account name = s.found.account name := by
  simp [Discovery.account, skip, other]

theorem account_settle_other (other : i.importer ≠ name) :
    (s.settle i).found.account name = s.found.account name := by
  cases joined : s.found.graph.hasEdge i.importer i.dependee <;>
    simp [Discovery.account, settle, joined, other]

theorem account_close_other (policy : CyclePolicy) (other : i.importer ≠ name) :
    (s.close policy i).found.account name = s.found.account name := by
  cases policy <;> simp [Discovery.account, close, other]

theorem account_enter_other (other : i.importer ≠ name) :
    (s.enter i).found.account name = s.found.account name := by
  simp [Discovery.account, enter, other]

variable (policy : CyclePolicy) (closes : SourceName → Bool)

theorem account_skip_own (own : i.importer = name) (missing : units.contains i.dependee = false) :
    (s.skip i).found.account name = (s.found.account name).note units policy closes i := by
  simp [Discovery.account, Account.note, skip, own, missing]

theorem account_close_own (own : i.importer = name) (known : units.contains i.dependee)
    (closing : closes i.dependee) :
    (s.close policy i).found.account name = (s.found.account name).note units policy closes i := by
  cases policy <;> simp [Discovery.account, Account.note, close, own, known, closing]

/-- The check for an edge between two files looks at the importer's account only. -/
theorem hasEdge_eq_any (own : i.importer = name) :
    s.found.graph.hasEdge i.importer i.dependee =
      (s.found.account name).edges.any (·.dependee = i.dependee) := by
  simp [ImportGraph.hasEdge, Discovery.account, List.any_filter, own]

theorem account_settle_own (own : i.importer = name) (known : units.contains i.dependee)
    (returned : closes i.dependee = false) :
    (s.settle i).found.account name = (s.found.account name).note units policy closes i := by
  have looked := hasEdge_eq_any (s := s) own
  cases joined : s.found.graph.hasEdge i.importer i.dependee with
  | true =>
      rw [joined] at looked
      simp [Account.note, settle, known, returned, joined, ← looked]
  | false =>
      rw [joined] at looked
      simp only [Account.note, settle, known, returned, joined, ← looked]
      simp [Discovery.account, own]

theorem account_enter_own (own : i.importer = name) (known : units.contains i.dependee)
    (fresh : closes i.dependee = false) (apart : ¬ s.found.graph.Edge i.importer i.dependee) :
    (s.enter i).found.account name = (s.found.account name).note units policy closes i := by
  rw [← account_settle_own policy closes own known fresh]
  have joined : s.found.graph.hasEdge i.importer i.dependee = false := by
    rw [← ImportGraph.hasEdge_iff] at apart
    simpa using apart
  simp [Discovery.account, settle, enter, joined]

end Steps

theorem Underway.account_unvisited {units : NameMap SourceUnit} {calls : List SourceName}
    {name file : SourceName} {s : Survey} (h : Underway units calls name s)
    (unvisited : file ∉ s.visited) : s.found.account file = {} := by
  have edges : s.found.graph.edges.filter (·.importer = file) = [] := by
    rw [List.filter_eq_nil_iff]
    intro e member own
    exact unvisited (of_decide_eq_true own ▸ (h.edges e member).1)
  have cycles : s.found.cycles.filter (·.importer = file) = [] := by
    rw [List.filter_eq_nil_iff]
    intro i member own
    exact unvisited (of_decide_eq_true own ▸ h.cycles i member)
  have skipped : s.found.skipped.filter (·.importer = file) = [] := by
    rw [List.filter_eq_nil_iff]
    intro i member own
    exact unvisited (of_decide_eq_true own ▸ h.skipped i member)
  simp only [Discovery.account, edges, cycles, skipped]

/-- The file's account is complete, given the files `before` that had returned before it, and the
files that it counts as closing a cycle lead to it. -/
structure Settled (units : NameMap SourceUnit) (policy : CyclePolicy) (d : Discovery)
    (before : List SourceName) (file : SourceName) : Prop where
  account : d.account file = .ofImports units policy (· ∉ before) (importsOf units file)
  closing : ∀ i ∈ importsOf units file, units.contains i.dependee → i.dependee ∉ before →
    ReflTransGen d.graph.Edge i.dependee file

namespace Visits

variable {units : NameMap SourceUnit} {policy : Policy} {calls finished : List SourceName}
  {pending : List Import} {name : SourceName} {s t : Survey}

theorem account_other (visits : Visits units policy calls name pending s finished t)
    {file : SourceName} (other : file ≠ name) (elsewhere : file ∉ finished) :
    t.found.account file = s.found.account file := by
  induction visits with
  | done => rfl
  | close _ own _ _ ih =>
      rw [ih other elsewhere]
      exact account_close_other _ (importer_of_mem own ▸ other.symm)
  | settle _ own _ _ _ ih =>
      rw [ih other elsewhere]
      exact account_settle_other (importer_of_mem own ▸ other.symm)
  | skip _ own _ _ _ ih =>
      rw [ih other elsewhere]
      exact account_skip_other (importer_of_mem own ▸ other.symm)
  | @enter _ _ i _ _ inner _ finished _ _ own _ _ _ _ ihCall ihTail =>
      simp only [List.mem_append, List.mem_cons, not_or] at elsewhere
      rw [ihTail other elsewhere.2.2, ihCall elsewhere.2.1 elsewhere.1]
      exact account_enter_other (importer_of_mem own ▸ other.symm)

/-- What a call leaves in the account of the file that made it is the import that it was made for. -/
theorem account_called {i : Import} (call : Visits units policy (i.dependee :: calls) i.dependee
    pending (s.enter i) finished t) (underway : Underway units calls name s)
    (own : i.importer = name) (fresh : i.dependee ∉ s.visited)
    (found : units.contains i.dependee) :
    t.found.account name =
      (s.found.account name).note units policy.cycles (· ∈ calls) i := by
  have uncalled : i.dependee ∉ calls := fun active => fresh (underway.entered _ active)
  -- the call writes another account
  have different : name ≠ i.dependee := fun same => fresh (same ▸ underway.member)
  have elsewhere : name ∉ finished := fun returned =>
    call.finished_fresh returned (List.mem_cons_of_mem _ underway.member)
  rw [call.account_other different elsewhere]
  exact account_enter_own _ _ own found (decide_eq_false uncalled) (underway.unjoined fresh)

theorem account_own (visits : Visits units policy calls name pending s finished t) :
    t.found.account name =
      pending.foldl (Account.note units policy.cycles (· ∈ calls)) (s.found.account name) := by
  induction visits with
  | done => rfl
  | close underway own active _ ih =>
      have known := underway.known _ (underway.entered _ active)
      rw [ih, List.foldl_cons]
      congr 1
      exact account_close_own _ _ (importer_of_mem own) known (decide_eq_true active)
  | settle underway own visited returned _ ih =>
      rw [ih, List.foldl_cons]
      congr 1
      exact account_settle_own _ _ (importer_of_mem own) (underway.known _ visited)
        (decide_eq_false returned)
  | skip underway own missing _ _ ih =>
      rw [ih, List.foldl_cons]
      congr 1
      exact account_skip_own _ _ (importer_of_mem own) (contains_missing missing)
  | enter underway own fresh found call _ _ ihTail =>
      rw [ihTail, List.foldl_cons, call.account_called underway (importer_of_mem own) fresh found]

end Visits

namespace Settled

variable {units : NameMap SourceUnit} {policy : Policy} {calls finished before : List SourceName}
  {pending : List Import} {name file : SourceName} {s t : Survey}

/-- A call leaves its file settled when it returns. -/
theorem of_call (call : Visits units policy calls name (importsOf units name) s finished t)
    (blank : s.found.account name = {})
    (returned : ∀ file, file ∈ before ↔ file ∈ s.visited ∧ file ∉ calls) :
    Settled units policy.cycles t.found (before ++ finished) name := by
  -- at the return, a visited file is under way or has returned, and never both
  have active_iff : ∀ i ∈ importsOf units name, units.contains i.dependee →
      (i.dependee ∈ calls ↔ i.dependee ∉ before ++ finished) := by
    intro i member known
    have visited := call.mem_visited.mp (call.pending_visited i member known)
    have entered := call.before.entered i.dependee
    have fresh : i.dependee ∈ finished → i.dependee ∉ s.visited := call.finished_fresh
    have earlier := returned i.dependee
    rw [List.mem_append]
    tauto
  constructor
  · rw [call.account_own, blank]
    refine List.foldl_ext _ _ _ fun a i member => ?_
    by_cases known : units.contains i.dependee
    · simp only [Account.note, active_iff i member known]
    · simp only [Account.note, if_neg known]
  · intro i member known missing
    exact call.after.chain _ ((active_iff i member known).mpr missing)

theorem later (settled : Settled units policy.cycles s.found before file)
    (visits : Visits units policy calls name pending s finished t) (other : file ≠ name)
    (visited : file ∈ s.visited) : Settled units policy.cycles t.found before file := by
  have elsewhere : file ∉ finished := fun returned => visits.finished_fresh returned visited
  constructor
  · rw [visits.account_other other elsewhere]
    exact settled.account
  · intro i member known missing
    exact ImportGraph.path_mono visits.edges_subset (settled.closing i member known missing)

end Settled

theorem Visits.settled {units : NameMap SourceUnit} {policy : Policy}
    {calls finished before : List SourceName} {pending : List Import} {name : SourceName}
    {s t : Survey} (visits : Visits units policy calls name pending s finished t)
    (returned : ∀ file, file ∈ before ↔ file ∈ s.visited ∧ file ∉ calls) :
    InOrder (fun added => Settled units policy.cycles t.found (before ++ added)) finished := by
  induction visits generalizing before with
  | done => exact .nil
  | close _ _ _ _ ih | settle _ _ _ _ _ ih | skip _ _ _ _ _ ih => exact ih returned
  | @enter calls name i _ s inner middle finished t underway own fresh _ call tail ihCall ihTail =>
      have returnedCall : ∀ file, file ∈ before ↔
          file ∈ (s.enter i).visited ∧ file ∉ i.dependee :: calls := by
        intro file
        simp only [Survey.enter, List.mem_cons, returned file]
        grind
      have returnedTail : ∀ file, file ∈ before ++ (inner ++ [i.dependee]) ↔
          file ∈ middle.visited ∧ file ∉ calls := by
        intro file
        have entered := underway.entered file
        have unentered : file ∈ inner → file ∉ (s.enter i).visited := call.finished_fresh
        simp only [List.mem_append, List.mem_singleton, call.mem_visited, returned file]
        simp only [Survey.enter, List.mem_cons] at unentered ⊢
        grind
      have different : i.importer ≠ i.dependee :=
        fun same => fresh (same ▸ importer_of_mem own ▸ underway.member)
      have blank : (s.enter i).found.account i.dependee = {} := by
        rw [account_enter_other different]
        exact underway.account_unvisited fresh
      have lift : ∀ added file, file ∈ inner ++ [i.dependee] →
          Settled units policy.cycles middle.found (before ++ added) file →
          Settled units policy.cycles t.found (before ++ added) file := by
        intro added file member settled
        have fileUnvisited : file ∉ s.visited := by
          rcases List.mem_append.mp member with member | member
          · exact fun visited => call.finished_fresh member (List.mem_cons_of_mem _ visited)
          · rwa [List.mem_singleton.mp member]
        have other : file ≠ name := fun same => fileUnvisited (same ▸ underway.member)
        exact settled.later tail other (((returnedTail file).mp (List.mem_append_right _ member)).1)
      rw [List.append_cons]
      refine .append (.append ((ihCall returnedCall).imp ?_) (.single ?_)) ?_
      · intro added file member _ settled
        exact lift added file (List.mem_append_left _ member) settled
      · rw [List.append_nil]
        exact lift inner i.dependee (by simp) (.of_call call blank returnedCall)
      · simpa only [List.append_assoc] using ihTail returnedTail

end Survey

end ImportFlattening

import ImportFlattening.Discovery

/-! # Discovery by recursion

The walk of `discover` keeps the files under way on a stack of its own. The same graph is found
by a plain recursion, in which the files under way are those whose calls have not returned. A frame
of the walk does what a call of the recursion does (`Survey.run_eq_visit`), so the two have the same
outcome on every input, errors and the order of every list included.
-/

namespace ImportFlattening

/-- What a recursive visit has seen and found so far. -/
structure Survey where
  visited : List SourceName
  found : Discovery
  deriving DecidableEq, Repr

namespace Survey

/-- The survey at the call for the target. -/
def start (target : SourceName) : Survey where
  visited := [target]
  found := { graph := ImportGraph.empty.addName target }

/-- Mark the file of an import as visited, and record the import. -/
def enter (s : Survey) (i : Import) : Survey where
  visited := i.dependee :: s.visited
  found := { s.found with graph := s.found.graph.addEdge i }

/-- Record an import of a file without a syntax tree. -/
def skip (s : Survey) (i : Import) : Survey :=
  { s with found := { s.found with skipped := s.found.skipped ++ [i] } }

/-- Record an import of a file whose call has not returned. -/
def close (s : Survey) (policy : CyclePolicy) (i : Import) : Survey :=
  let graph := match policy with
    | .drop => s.found.graph
    | .keep => s.found.graph.addEdge i
  { s with found := { s.found with graph, cycles := s.found.cycles ++ [i] } }

/-- Record an import of a file whose call has returned, unless the two files are joined already. -/
def settle (s : Survey) (i : Import) : Survey :=
  let graph := if s.found.graph.hasEdge i.importer i.dependee then s.found.graph
    else s.found.graph.addEdge i
  { s with found := { s.found with graph } }

/-- The walk that has seen and found as much, with the given files under way. -/
def walk (s : Survey) (stack : List Frame) (active : List SourceName) : Walk :=
  ⟨stack, s.visited, active, s.found⟩

/-- The number of files that could still be entered. -/
def unseen (units : NameMap SourceUnit) (s : Survey) : Nat := (s.walk [] []).unseen units

theorem unseen_enter {units : NameMap SourceUnit} {s : Survey} {i : Import} {unit : SourceUnit}
    (unvisited : i.dependee ∉ s.visited) (found : units.get? i.dependee = some unit) :
    (s.enter i).unseen units < s.unseen units := by
  have known := NameMap.mem_names_of_get? found
  have fewer : ((s.walk [] []).enter i.dependee unit).unseen units < (s.walk [] []).unseen units :=
    Walk.unseen_enter_lt known unvisited
  exact fewer

theorem unseen_mono {units : NameMap SourceUnit} {s t : Survey}
    (later : s.visited <:+ t.visited) : t.unseen units ≤ s.unseen units := by
  change (units.names.filter (· ∉ t.visited)).length ≤
    (units.names.filter (· ∉ s.visited)).length
  simp only [← List.countP_eq_length_filter]
  apply List.countP_mono_left
  intro name _ unvisited
  simp only [decide_eq_true_eq] at unvisited ⊢
  exact fun visited => unvisited (later.subset visited)

/-- The surveys that a visit can lead to: what was visited remains so. -/
abbrev Later (s : Survey) : Type := { t : Survey // s.visited <:+ t.visited }

/-- Follow the imports `pending` of a file in their order, where `calls` are the files whose calls
have not returned. -/
def visit (units : NameMap SourceUnit) (policy : Policy) (calls : List SourceName) :
    (pending : List Import) → (s : Survey) → Except Error s.Later
  | [], s => .ok ⟨s, List.suffix_rfl⟩
  | i :: rest, s =>
    if _known : i.dependee ∈ s.visited then
      if i.dependee ∈ calls then
        visit units policy calls rest (s.close policy.cycles i)
      else
        visit units policy calls rest (s.settle i)
    else
      match _found : units.get? i.dependee with
      | none =>
        match policy.unresolved with
        | .fail => .error (.unresolved i)
        | .skip => visit units policy calls rest (s.skip i)
      | some unit => do
        let inner ← visit units policy (i.dependee :: calls)
          (unit.importsFrom i.dependee) (s.enter i)
        let outer ← visit units policy calls rest inner.1
        return ⟨outer.1, (List.suffix_cons _ _).trans (inner.2.trans outer.2)⟩
termination_by pending s => (s.unseen units, pending.length)
decreasing_by
  · exact Prod.Lex.right _ (Nat.lt_succ_self _)
  · exact Prod.Lex.right _ (Nat.lt_succ_self _)
  · exact Prod.Lex.right _ (Nat.lt_succ_self _)
  · exact Prod.Lex.left _ _ (unseen_enter _known _found)
  · exact Prod.Lex.right' _ (unseen_mono ((List.suffix_cons _ _).trans inner.2))
      (Nat.lt_succ_self _)

section Outcome

variable {units : NameMap SourceUnit} {policy : Policy} {calls : List SourceName}
  {pending rest : List Import} {s t : Survey} {i : Import}

/-- The outcome of a visit, without the evidence that its survey is a later one. -/
def outcome (units : NameMap SourceUnit) (policy : Policy) (calls : List SourceName)
    (pending : List Import) (s : Survey) : Except Error Survey :=
  (visit units policy calls pending s).map Subtype.val

theorem visit_of_outcome (reached : outcome units policy calls pending s = .ok t) :
    ∃ later : s.visited <:+ t.visited, visit units policy calls pending s = .ok ⟨t, later⟩ := by
  unfold outcome at reached
  cases visited : visit units policy calls pending s with
  | error e => simp [visited, Except.map] at reached
  | ok last =>
      rw [visited] at reached
      cases reached
      exact ⟨last.2, rfl⟩

theorem outcome_nil : outcome units policy calls [] s = .ok s := by
  rw [outcome, visit]
  rfl

theorem outcome_close (known : i.dependee ∈ s.visited) (active : i.dependee ∈ calls) :
    outcome units policy calls (i :: rest) s =
      outcome units policy calls rest (s.close policy.cycles i) := by
  rw [outcome, visit, dif_pos known]
  exact congrArg (Except.map Subtype.val) (if_pos active)

theorem outcome_settle (known : i.dependee ∈ s.visited) (returned : i.dependee ∉ calls) :
    outcome units policy calls (i :: rest) s = outcome units policy calls rest (s.settle i) := by
  rw [outcome, visit, dif_pos known]
  exact congrArg (Except.map Subtype.val) (if_neg returned)

theorem outcome_fail (unvisited : i.dependee ∉ s.visited) (missing : units.get? i.dependee = none)
    (strict : policy.unresolved = .fail) :
    outcome units policy calls (i :: rest) s = .error (.unresolved i) := by
  rw [outcome, visit, dif_neg unvisited]
  split
  · simp only [strict]
    rfl
  · simp_all

theorem outcome_skip (unvisited : i.dependee ∉ s.visited) (missing : units.get? i.dependee = none)
    (lenient : policy.unresolved = .skip) :
    outcome units policy calls (i :: rest) s = outcome units policy calls rest (s.skip i) := by
  rw [outcome, visit, dif_neg unvisited]
  split
  · simp only [lenient]
    rfl
  · simp_all

theorem outcome_enter {unit : SourceUnit} (unvisited : i.dependee ∉ s.visited)
    (found : units.get? i.dependee = some unit) :
    outcome units policy calls (i :: rest) s =
      outcome units policy (i.dependee :: calls) (unit.importsFrom i.dependee) (s.enter i) >>=
        outcome units policy calls rest := by
  rw [outcome, visit, dif_neg unvisited]
  split
  · simp_all
  · rename_i other found'
    obtain rfl : unit = other := by simpa [found] using found'
    unfold outcome
    cases visit units policy (i.dependee :: calls) (unit.importsFrom i.dependee) (s.enter i) with
    | error e => rfl
    | ok inner =>
        simp only [bind, Except.bind, Except.map, pure, Except.pure]
        cases visit units policy calls rest inner.1 <;> rfl

end Outcome

end Survey

/-- The import graph of `target`, found by recursion. -/
def discoverRecursively (units : NameMap SourceUnit) (policy : Policy) (target : SourceName) :
    Except Error Discovery :=
  match units.get? target with
  | none => .error (.unknownTarget target)
  | some unit =>
    (Survey.visit units policy [target] (unit.importsFrom target) (.start target)).map
      fun last => last.1.found

namespace Walk

variable {units : NameMap SourceUnit} {policy : Policy}

theorem run_of_step {w next : Walk} (step : w.step units policy = .ok (some next)) :
    w.run units policy = next.run units policy := by
  rw [run]
  split <;> simp_all

theorem run_of_error {w : Walk} {e : Error} (step : w.step units policy = .error e) :
    w.run units policy = .error e := by
  rw [run]
  split <;> simp_all

theorem run_of_end {w : Walk} (step : w.step units policy = .ok none) :
    w.run units policy = .ok w.found := by
  rw [run]
  split <;> simp_all

theorem run_of_left {w : Walk} (left : w.stack = []) : w.run units policy = .ok w.found := by
  apply run_of_end
  simp only [Walk.step, left]

/-- The outcome of a walk that ends within so many steps. It can be evaluated, since it does not
depend on the argument why a walk ends. -/
def runWithin (units : NameMap SourceUnit) (policy : Policy) :
    Nat → Walk → Option (Except Error Discovery)
  | 0, _ => none
  | count + 1, w =>
    match w.step units policy with
    | .error e => some (.error e)
    | .ok none => some (.ok w.found)
    | .ok (some next) => runWithin units policy count next

theorem run_of_runWithin {count : Nat} {w : Walk} {outcome : Except Error Discovery}
    (ended : w.runWithin units policy count = some outcome) : w.run units policy = outcome := by
  fun_induction runWithin units policy count w with
  | case1 => cases ended
  | case2 count w e step =>
      rw [run_of_error step]
      exact Option.some.inj ended
  | case3 count w step =>
      rw [run_of_end step]
      exact Option.some.inj ended
  | case4 count w next step ih =>
      rw [run_of_step step]
      exact ih ended

theorem filter_ne_cons {name : SourceName} {others : List SourceName} (fresh : name ∉ others) :
    (name :: others).filter (· ≠ name) = others := by
  rw [List.filter_cons_of_neg (by simp), List.filter_eq_self]
  intro other member
  have different : other ≠ name := fun same => fresh (same ▸ member)
  simpa using different

end Walk

namespace Survey

variable {units : NameMap SourceUnit} {policy : Policy} {calls outer : List SourceName}

theorem run_return (s : Survey) (name : SourceName) (frames : List Frame)
    (fresh : name ∉ calls) :
    (s.walk (⟨name, []⟩ :: frames) (name :: calls)).run units policy =
      (s.walk frames calls).run units policy := by
  apply Walk.run_of_step
  simp only [Walk.step, Walk.leave, walk, Walk.filter_ne_cons fresh]

section Following

variable (s : Survey) (name : SourceName) (i : Import) (rest : List Import) (frames : List Frame)

theorem run_follow :
    (s.walk (⟨name, i :: rest⟩ :: frames) calls).run units policy =
      match (s.walk (⟨name, rest⟩ :: frames) calls).follow units policy i with
      | .error e => .error e
      | .ok next => next.run units policy := by
  cases followed : (s.walk (⟨name, rest⟩ :: frames) calls).follow units policy i with
  | error e =>
      apply Walk.run_of_error
      simp only [walk] at followed
      simp only [Walk.step, walk, followed, Except.map]
  | ok next =>
      apply Walk.run_of_step
      simp only [walk] at followed
      simp only [Walk.step, walk, followed, Except.map]

theorem run_close (known : i.dependee ∈ s.visited) (active : i.dependee ∈ calls) :
    (s.walk (⟨name, i :: rest⟩ :: frames) calls).run units policy =
      ((s.close policy.cycles i).walk (⟨name, rest⟩ :: frames) calls).run units policy := by
  rw [run_follow]
  cases keeping : policy.cycles <;>
    simp [Walk.follow, Walk.meet, Walk.addCycle, Walk.addEdge, walk, close, known, active, keeping]

theorem run_settle (known : i.dependee ∈ s.visited) (returned : i.dependee ∉ calls) :
    (s.walk (⟨name, i :: rest⟩ :: frames) calls).run units policy =
      ((s.settle i).walk (⟨name, rest⟩ :: frames) calls).run units policy := by
  rw [run_follow]
  cases joined : s.found.graph.hasEdge i.importer i.dependee <;>
    simp [Walk.follow, Walk.meet, Walk.addEdge, walk, settle, known, returned, joined]

theorem run_fail (unvisited : i.dependee ∉ s.visited) (missing : units.get? i.dependee = none)
    (strict : policy.unresolved = .fail) :
    (s.walk (⟨name, i :: rest⟩ :: frames) calls).run units policy = .error (.unresolved i) := by
  rw [run_follow]
  simp [Walk.follow, Walk.meet, walk, unvisited, missing, strict]

theorem run_skip (unvisited : i.dependee ∉ s.visited) (missing : units.get? i.dependee = none)
    (lenient : policy.unresolved = .skip) :
    (s.walk (⟨name, i :: rest⟩ :: frames) calls).run units policy =
      ((s.skip i).walk (⟨name, rest⟩ :: frames) calls).run units policy := by
  rw [run_follow]
  simp [Walk.follow, Walk.meet, Walk.addSkipped, walk, skip, unvisited, missing, lenient]

theorem run_enter {unit : SourceUnit} (unvisited : i.dependee ∉ s.visited)
    (found : units.get? i.dependee = some unit) :
    (s.walk (⟨name, i :: rest⟩ :: frames) calls).run units policy =
      ((s.enter i).walk (⟨i.dependee, unit.importsFrom i.dependee⟩ :: ⟨name, rest⟩ :: frames)
        (i.dependee :: calls)).run units policy := by
  rw [run_follow]
  simp [Walk.follow, Walk.meet, Walk.addEdge, Walk.enter, Walk.frame, walk, enter, unvisited, found]

end Following

/-- The walk does in a frame what the recursion does in a call, and then goes on with the frames
around it. -/
theorem run_eq_visit (pending : List Import) (s : Survey) {name : SourceName}
    (frames : List Frame) (shape : calls = name :: outer) (fresh : name ∉ outer)
    (entered : ∀ call ∈ calls, call ∈ s.visited) :
    (s.walk (⟨name, pending⟩ :: frames) calls).run units policy =
      visit units policy calls pending s >>= fun t => (t.1.walk frames outer).run units policy := by
  fun_induction visit units policy calls pending s generalizing name outer frames with
  | case1 =>
      subst shape
      exact run_return _ name frames fresh
  | case2 calls i rest s known active ih =>
      rw [run_close s name i rest frames known active]
      exact ih frames shape fresh entered
  | case3 calls i rest s known returned ih =>
      rw [run_settle s name i rest frames known returned]
      exact ih frames shape fresh entered
  | case4 calls i rest s unvisited missing strict =>
      exact run_fail s name i rest frames unvisited missing strict
  | case5 calls i rest s unvisited missing lenient ih =>
      rw [run_skip s name i rest frames unvisited missing lenient]
      exact ih frames shape fresh entered
  | case6 calls i rest s unvisited unit found ihInner ihRest =>
      have uncalled : i.dependee ∉ calls := fun member => unvisited (entered _ member)
      have enteredInner : ∀ call ∈ i.dependee :: calls, call ∈ (s.enter i).visited := by
        intro call member
        exact List.cons_subset_cons _ entered member
      rw [run_enter s name i rest frames unvisited found,
        ihInner (⟨name, rest⟩ :: frames) rfl uncalled enteredInner]
      cases visit units policy (i.dependee :: calls) (unit.importsFrom i.dependee) (s.enter i) with
      | error e => rfl
      | ok inner =>
          have enteredRest : ∀ call ∈ calls, call ∈ inner.1.visited :=
            fun call member => inner.2.subset (List.mem_cons_of_mem _ (entered call member))
          change (inner.1.walk (⟨name, rest⟩ :: frames) calls).run units policy = _
          rw [ihRest inner frames shape fresh enteredRest]
          simp only [bind, Except.bind]
          cases visit units policy calls rest inner.1 <;> rfl

end Survey

theorem discover_of_runWithin {units : NameMap SourceUnit} {policy : Policy} {target : SourceName}
    {unit : SourceUnit} {outcome : Except Error Discovery} (found : units.get? target = some unit)
    (count : Nat)
    (ended : (Walk.start target unit).runWithin units policy count = some outcome) :
    discover units policy target = outcome := by
  simp only [discover, found]
  exact Walk.run_of_runWithin ended

theorem discover_eq_visit {units : NameMap SourceUnit} (policy : Policy) {target : SourceName}
    {unit : SourceUnit} (found : units.get? target = some unit) :
    discover units policy target =
      (Survey.visit units policy [target] (unit.importsFrom target) (.start target)).map
        fun last => last.1.found := by
  have simulated : ((Survey.start target).walk [⟨target, unit.importsFrom target⟩] [target]).run
      units policy = _ :=
    Survey.run_eq_visit _ _ [] rfl (by simp) (fun _ member => member)
  have started : discover units policy target =
      ((Survey.start target).walk [⟨target, unit.importsFrom target⟩] [target]).run
        units policy := by
    simp only [discover, found]
    rfl
  rw [started, simulated]
  cases Survey.visit units policy [target] (unit.importsFrom target) (.start target) with
  | error e => rfl
  | ok last => exact Walk.run_of_left (w := last.1.walk [] []) rfl

/-- The walk with a stack of its own has the outcome of the recursion. -/
theorem discover_eq_discoverRecursively (units : NameMap SourceUnit) (policy : Policy)
    (target : SourceName) :
    discover units policy target = discoverRecursively units policy target := by
  cases found : units.get? target with
  | none => simp only [discover, discoverRecursively, found]
  | some unit =>
      rw [discover_eq_visit policy found]
      simp only [discoverRecursively, found]

theorem discover_eq_outcome {units : NameMap SourceUnit} (policy : Policy) {target : SourceName}
    {unit : SourceUnit} (found : units.get? target = some unit) :
    discover units policy target =
      (Survey.outcome units policy [target] (unit.importsFrom target) (.start target)).map
        Survey.found := by
  rw [discover_eq_visit policy found, Survey.outcome]
  cases Survey.visit units policy [target] (unit.importsFrom target) (.start target) <;> rfl

end ImportFlattening
